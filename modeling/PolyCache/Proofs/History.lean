import Mathlib.Data.List.Dedup
import Mathlib.Data.List.Induction
import Mathlib.Data.List.Perm.Subperm
import PolyCache.Backend

-- What has been asked of a backend and answered by it, and what this says of a key: who wrote last,
-- and whether anything has ended that write since.
namespace PolyCache

def Request.key? : Request → Option EntryKey
  | .set key _ => some key
  | .get key => some key
  | .del key => some key
  | .register _ => none
  | .close => none

-- The name of the collection that a request is about. A cache closes with all its collections.
def Request.collection? : Request → Option String
  | .register c => some c.name
  | .set key _ => some key.collection
  | .get key => some key.collection
  | .del key => some key.collection
  | .close => none

def Request.concerns (request : Request) (name : String) : Bool :=
  request.collection?.all (· == name)

theorem Request.eq_of_concerns {request : Request} {name c : String}
    (h : request.concerns name = true) (hc : request.collection? = some c) : name = c := by
  rw [concerns, hc] at h
  exact (beq_iff_eq.mp h).symm

theorem Request.ne_of_not_concerns {request : Request} {name c : String}
    (h : request.concerns name = false) (hc : request.collection? = some c) : name ≠ c := by
  rw [concerns, hc] at h
  exact (beq_eq_false_iff_ne.mp h).symm

def Answer.failure? : Answer → Option Error
  | .ok _ => none
  | .error e => some e

instance instDecidableEqExcept {ε α : Type} [DecidableEq ε] [DecidableEq α] :
    DecidableEq (Except ε α)
  | .ok x, .ok y => decidable_of_iff (x = y) (by simp)
  | .error d, .error e => decidable_of_iff (d = e) (by simp)
  | .ok _, .error _ | .error _, .ok _ => isFalse (by simp)

structure Exchange where
  time : Time
  request : Request
  answer : Answer
deriving DecidableEq

-- The oldest exchange first.
abbrev History := List Exchange

namespace Backend

variable {σ : Type} [Backend σ]

-- The state after calls, each at its time. The times are arbitrary: a clock may go back.
def after (s : σ) : List (Time × Request) → σ
  | [] => s
  | (now, request) :: calls => after (call now s request).state calls

def history (s : σ) : List (Time × Request) → History
  | [] => []
  | (now, request) :: calls =>
    ⟨now, request, (call now s request).answer⟩ :: history (call now s request).state calls

theorem after_concat (s : σ) (calls : List (Time × Request)) (now : Time) (request : Request) :
    after s (calls ++ [(now, request)]) = (call now (after s calls) request).state := by
  induction calls generalizing s with
  | nil => rfl
  | cons first calls ih => exact ih _

theorem history_concat (s : σ) (calls : List (Time × Request)) (now : Time) (request : Request) :
    history s (calls ++ [(now, request)]) =
      history s calls ++ [⟨now, request, (call now (after s calls) request).answer⟩] := by
  induction calls generalizing s with
  | nil => rfl
  | cons first calls ih => exact congrArg (_ :: ·) (ih _)

theorem after_append (s : σ) (calls more : List (Time × Request)) :
    after s (calls ++ more) = after (after s calls) more := by
  induction calls generalizing s with
  | nil => rfl
  | cons first calls ih => exact ih _

theorem history_append (s : σ) (calls more : List (Time × Request)) :
    history s (calls ++ more) = history s calls ++ history (after s calls) more := by
  induction calls generalizing s with
  | nil => rfl
  | cons first calls ih => exact congrArg (_ :: ·) (ih _)

theorem mem_history {s : σ} {calls : List (Time × Request)} {x : Exchange}
    (hx : x ∈ history s calls) : (x.time, x.request) ∈ calls := by
  induction calls generalizing s with
  | nil => cases hx
  | cons first calls ih =>
      rcases List.mem_cons.mp hx with rfl | hx
      · exact List.mem_cons_self
      · exact List.mem_cons_of_mem _ (ih hx)

end Backend

namespace Exchange

def Writes (x : Exchange) (key : EntryKey) (value : Value) : Prop :=
  x.request = .set key value ∧ x.answer = .ok none

def Registers (x : Exchange) (c : Collection) : Prop :=
  x.request = .register c ∧ x.answer = .ok none

-- What a key was given at some time is over: it was written anew, it was deleted, or it was read at
-- or after the end of its lifetime. A time before the write is no age at all.
def Ends (x : Exchange) (key : EntryKey) (ttl : Duration) (writtenAt : Time) : Prop :=
  (∃ value, x.Writes key value) ∨ x.request = .del key ∨
    x.request = .get key ∧ ttl.nanoseconds ≤ x.time - writtenAt

-- The key of an accepted write to the collection of this name.
def writtenKey? (name : String) (x : Exchange) : Option String :=
  match x.request, x.answer with
  | .set key _, .ok _ => if key.collection = name then some key.key else none
  | _, _ => none

end Exchange

namespace History

-- The last accepted write of the key, and nothing has ended it since.
def Kept (h : History) (key : EntryKey) (ttl : Duration) (value : Value) (writtenAt : Time) :
    Prop :=
  ∃ before after, h = before ++ ⟨writtenAt, .set key value, .ok none⟩ :: after ∧
    ∀ x ∈ after, ¬ x.Ends key ttl writtenAt

-- A collection that was registered, in a cache that is still open.
def Registered (h : History) (c : Collection) : Prop :=
  (∃ x ∈ h, x.Registers c) ∧ ∀ x ∈ h, x.request ≠ .close

-- No read of the collection comes at or after the end of the lifetime of what it could find.
def ReadInTime (h : History) (c : Collection) : Prop :=
  ∀ before x after, h = before ++ x :: after → before.Registered c → ∀ key value writtenAt,
    x.request = .get (c.entry key) → Kept before (c.entry key) c.effectiveTtl value writtenAt →
    x.time - writtenAt < c.effectiveTtl.nanoseconds

-- What has been asked about the collection of this name, and answered.
def about (h : History) (name : String) : History := h.filter fun x => x.request.concerns name

-- What each request failed with, if it did.
def failures (h : History) : List (Option Error) := h.map (·.answer.failure?)

-- The keys ever written to the collection of this name, each once.
def writtenKeys (h : History) (name : String) : List String :=
  (h.filterMap (Exchange.writtenKey? name)).dedup

-- The collection has no bound, or no more keys than its bound were ever written to it.
def HasRoom (h : History) (c : Collection) : Prop :=
  c.maxItems = 0 ∨ (h.writtenKeys c.name).length ≤ c.maxItems

variable {h : History} {x : Exchange} {key : EntryKey} {ttl : Duration} {value : Value}
  {writtenAt : Time} {c : Collection} {name : String}

theorem kept_concat :
    Kept (h ++ [x]) key ttl value writtenAt ↔
      x = ⟨writtenAt, .set key value, .ok none⟩ ∨
        Kept h key ttl value writtenAt ∧ ¬ x.Ends key ttl writtenAt := by
  constructor
  · rintro ⟨before, after, heq, hafter⟩
    rcases List.eq_nil_or_concat after with rfl | ⟨init, last, rfl⟩
    · exact Or.inl (List.singleton_inj.mp (List.append_inj' heq rfl).2)
    · rw [List.concat_eq_append] at heq hafter
      have hsplit :
          h ++ [x] = (before ++ ⟨writtenAt, .set key value, .ok none⟩ :: init) ++ [last] := by
        simpa using heq
      obtain ⟨hinit, hlast⟩ := List.append_inj' hsplit rfl
      obtain rfl : x = last := List.singleton_inj.mp hlast
      refine Or.inr ⟨⟨before, init, hinit, ?_⟩, hafter x (by simp)⟩
      intro y hy
      exact hafter y (by simp [hy])
  · rintro (rfl | ⟨⟨before, after, rfl, hafter⟩, hends⟩)
    · exact ⟨h, [], rfl, by simp⟩
    · refine ⟨before, after ++ [x], by simp, ?_⟩
      intro y hy
      rcases List.mem_append.mp hy with hy | hy
      · exact hafter y hy
      · rw [List.mem_singleton.mp hy]
        exact hends

theorem Kept.written (hk : Kept h key ttl value writtenAt) :
    ∃ x ∈ h, x.Writes key value ∧ x.time = writtenAt := by
  obtain ⟨before, after, rfl, -⟩ := hk
  exact ⟨⟨writtenAt, .set key value, .ok none⟩, by simp, ⟨rfl, rfl⟩, rfl⟩

-- There is one last write.
theorem Kept.unique {value' : Value} {writtenAt' : Time} (hk : Kept h key ttl value writtenAt)
    (hk' : Kept h key ttl value' writtenAt') : value' = value ∧ writtenAt' = writtenAt := by
  induction h using List.reverseRecOn with
  | nil =>
      obtain ⟨before, after, heq, -⟩ := hk
      simp at heq
  | append_singleton h x ih =>
      have hwrites {v : Value} {t : Time} (hx : x = ⟨t, .set key v, .ok none⟩) (u : Time) :
          x.Ends key ttl u := .inl ⟨v, by rw [hx]; exact ⟨rfl, rfl⟩⟩
      rcases kept_concat.mp hk with hx | ⟨hk, hx⟩ <;>
        rcases kept_concat.mp hk' with hx' | ⟨hk', hx'⟩
      · rw [hx] at hx'
        cases hx'
        exact ⟨rfl, rfl⟩
      · exact absurd (hwrites hx _) hx'
      · exact absurd (hwrites hx' _) hx
      · exact ih hk hk'

theorem kept_concat_of_idle (hx : ¬ x.Ends key ttl writtenAt) :
    Kept (h ++ [x]) key ttl value writtenAt ↔ Kept h key ttl value writtenAt := by
  rw [kept_concat]
  constructor
  · rintro (rfl | ⟨hk, -⟩)
    · exact absurd (Or.inl ⟨value, rfl, rfl⟩) hx
    · exact hk
  · intro hk
    exact Or.inr ⟨hk, hx⟩

-- A request about another key ends nothing.
theorem not_ends_of_key? (hx : x.request.key? ≠ some key) : ¬ x.Ends key ttl writtenAt := by
  rintro (⟨value, hreq, -⟩ | hreq | ⟨hreq, -⟩) <;> exact hx (by rw [hreq]; rfl)

theorem not_ends_of_ne {k other : String} (hx : x.request.key? = some (c.entry k))
    (hne : other ≠ k) : ¬ x.Ends (c.entry other) ttl writtenAt := by
  apply not_ends_of_key?
  rw [hx]
  intro heq
  exact hne (EntryKey.mk.inj (Option.some.inj heq)).2.symm

-- Nor does a failed write.
theorem not_ends_of_failed {e : Error} {now : Time} {other : EntryKey} :
    ¬ (⟨now, .set other value, .error e⟩ : Exchange).Ends key ttl writtenAt := by
  rintro (⟨value, -, hans⟩ | hreq | ⟨hreq, -⟩)
  · cases hans
  · exact Request.noConfusion hreq
  · exact Request.noConfusion hreq

theorem mem_writtenKeys {k : String} :
    k ∈ h.writtenKeys name ↔ ∃ x ∈ h, x.writtenKey? name = some k := by
  rw [writtenKeys, List.mem_dedup, List.mem_filterMap]

theorem Kept.mem_writtenKeys {k : String} (hk : Kept h (c.entry k) ttl value writtenAt) :
    k ∈ h.writtenKeys c.name := by
  obtain ⟨x, hx, ⟨hreq, hans⟩, -⟩ := hk.written
  refine History.mem_writtenKeys.mpr ⟨x, hx, ?_⟩
  rw [Exchange.writtenKey?, hreq, hans]
  exact if_pos rfl

-- Different keys that were all written are no more than the keys written.
theorem length_le_writtenKeys {keys : List String} (hd : keys.Nodup)
    (hw : ∀ k ∈ keys, k ∈ h.writtenKeys name) : keys.length ≤ (h.writtenKeys name).length :=
  (hd.subperm hw).length_le

theorem HasRoom.of_concat (hr : HasRoom (h ++ [x]) c) : HasRoom h c := by
  refine hr.imp_right fun hle => Nat.le_trans ?_ hle
  apply length_le_writtenKeys (List.nodup_dedup _)
  intro k hk
  obtain ⟨y, hy, hkey⟩ := mem_writtenKeys.mp hk
  exact mem_writtenKeys.mpr ⟨y, List.mem_append_left _ hy, hkey⟩

theorem ReadInTime.of_concat (hr : ReadInTime (h ++ [x]) c) : ReadInTime h c := by
  rintro before y after rfl
  exact hr before y (after ++ [x]) (by simp)

theorem about_concat : (h ++ [x]).about name = h.about name ++ about [x] name :=
  List.filter_append h [x]

theorem failures_concat : failures (h ++ [x]) = h.failures ++ [x.answer.failure?] :=
  List.map_append

theorem registered_concat :
    Registered (h ++ [x]) c ↔
      (Registered h c ∨ x.Registers c ∧ ∀ y ∈ h, y.request ≠ .close) ∧ x.request ≠ .close := by
  simp only [Registered, List.mem_append, List.mem_singleton, or_imp, forall_and, forall_eq,
    or_and_right, exists_or, exists_eq_left, and_assoc]

end History

end PolyCache
