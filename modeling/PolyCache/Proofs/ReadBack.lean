import PolyCache.Proofs.Backend.Memory
import PolyCache.Proofs.Backend.Mock
import PolyCache.Proofs.ReadThrough
import PolyCache.Proofs.Readable
import PolyCache.Proofs.Relational.Cache

-- Whether a read through a cache finds again what an earlier read has loaded and written, as
-- long as the entry is there.
namespace PolyCache.ReadThrough

open Storable (Yields Readable Misused)

section Reads

variable {σ : Type} [Backend σ] {α : Type} [Storable α] {ω : Type} {now later : Time} {s : σ}
  {key : EntryKey} {fetch : EntryKey → StateM ω (Except Cause α)} {world : ω} {x : α}
  {value : Value}

-- A read has not found its key, has loaded `x` instead, and its write in the background succeeded.
structure Wrote (now later : Time) (s : σ) (key : EntryKey) (x : α) (run : Reading σ α) : Prop where
  fetched : run.fetched = true
  answer : run.answer = .ok x
  accepted : (write later (Backend.call now s (.get key)).state key x).answer = .ok none

-- A read has loaded nothing, and this is what it answers.
structure Answered (outcome : Except Error α → Prop) (run : Reading σ α × ω) (world : ω) :
    Prop where
  answer : outcome run.1.answer
  fetched : run.1.fetched = false
  world : run.2 = world

theorem loads_of_fetched
    (h : ((getOrSetIn now later s key fetch).run world).1.fetched = true) :
    Loads later (Backend.call now s (.get key)) key ((fetch key).run world)
      ((getOrSetIn now later s key fetch).run world) := by
  cases ho : (Backend.call now s (.get key)).answer with
  | ok found =>
      cases found with
      | some value =>
          have hrests := rests_of_found now later s key fetch world ho
          rw [hrests.fetched] at h
          cases h
      | none => exact loads_of_missed now later s key fetch world (.inl ho)
  | error e =>
      by_cases hkind : e.kind = .usage
      · have hrests := rests_of_usage now later s key fetch world ho hkind
        rw [hrests.fetched] at h
        cases h
      · exact loads_of_missed now later s key fetch world (.inr ⟨e, ho, hkind⟩)

theorem write_accepted (h : (write later s key x).answer = .ok none) :
    ∃ value, Storable.toValue x = .ok value ∧
      (Backend.call later s (.set key value)).answer = .ok none := by
  unfold write warned at h
  cases hvalue : Storable.toValue x with
  | error e =>
      rw [hvalue] at h
      cases h
  | ok value =>
      rw [hvalue] at h
      refine ⟨value, rfl, ?_⟩
      dsimp only at h
      split at h
      · exact h
      · rename_i e he
        rw [he] at h
        cases h

-- The read leaves what its write leaves.
theorem Wrote.written
    (h : Wrote now later s key x ((getOrSetIn now later s key fetch).run world).1) :
    ∃ value, Storable.toValue x = .ok value ∧
      (Backend.call later (Backend.call now s (.get key)).state (.set key value)).answer =
        .ok none ∧
      ((getOrSetIn now later s key fetch).run world).1.state =
        (Backend.call later (Backend.call now s (.get key)).state (.set key value)).state := by
  obtain ⟨value, hvalue, haccepted⟩ := write_accepted h.accepted
  have hloads := loads_of_fetched h.fetched
  have hanswer := h.answer
  refine ⟨value, hvalue, haccepted, ?_⟩
  cases hloaded : ((fetch key).run world).1 with
  | error cause =>
      rw [(hloads.failed cause hloaded).1] at hanswer
      cases hanswer
  | ok a =>
      rw [hloads.answered a hloaded] at hanswer
      cases hanswer
      exact hloads.written _ value hloaded hvalue

theorem answered_of_found {outcome : Except Error α → Prop} (hx : Yields x outcome)
    (hvalue : Storable.toValue x = .ok value)
    (hfound : (Backend.call now s (.get key)).answer = .ok (some value)) :
    Answered outcome ((getOrSetIn now later s key fetch).run world) world := by
  have hrests := rests_of_found now later s key fetch world hfound
  exact ⟨hrests.answer ▸ hx value hvalue, hrests.fetched, hrests.world⟩

end Reads

end PolyCache.ReadThrough

namespace PolyCache.MemoryCache

variable {s : MemoryCache} {h : History} {c : Collection} {key : String} {value : Value}
  {now writtenAt : Time}

-- The collection is there, and nothing has displaced its entry under the key.
def Holds (s : MemoryCache) (c : Collection) (key : String) : Prop :=
  ∃ p entry, s.partitions.get c.name = .ok p ∧ p.collection = c ∧
    p.shelf.entries.lookup key = some entry

-- The entry is the last write of its key.
theorem Reflects.get_of_holds (hr : s.Reflects h) (hholds : s.Holds c key)
    (hk : h.Kept (c.entry key) c.effectiveTtl value writtenAt)
    (hyoung : now - writtenAt < c.effectiveTtl.nanoseconds) :
    (s.call now (.get (c.entry key))).answer = .ok (some value) := by
  obtain ⟨p, entry, hp, rfl, hl⟩ := hholds
  obtain ⟨value', hencode, hk'⟩ := (hr.partition _ p hp).2.kept key entry hl
  obtain ⟨rfl, hstored⟩ := hk.unique hk'
  have hlive : p.isExpired now entry = false := by
    rw [Partition.isExpired_eq_false_iff, hstored]
    exact Nat.not_le.mpr hyoung
  have hread : (p.read now (p.collection.entry key).key).1 = some entry :=
    Partition.read_eq_some_iff.mpr ⟨hl, hlive⟩
  refine Eq.trans (get_answer hp now) ?_
  rw [hread]
  show (p.collection.type.decode entry.bytes).map some = _
  rw [ValueType.decode_of_encode hencode]
  rfl

end PolyCache.MemoryCache

namespace PolyCache.RelationalCache

open Relational

variable {s : RelationalCache} {now : Time} {key : EntryKey} {value : Value} {c : Collection}
  {bytes : Bytes} {row : Row}

-- A change that succeeded has been made, whatever else may fail.
theorem change_done {verb : Verb} {parameters : List Parameter}
    (ho : (s.change now verb c parameters).answer = .ok none) :
    s.Reaches (s.link.server.execute now (s.understood verb c) parameters).1
      (s.change now verb c parameters).state := by
  have hhandled := Link.handled_run s.link now (s.statement verb c) parameters
  unfold change run at ho ⊢
  generalize s.link.run now (s.statement verb c) parameters = ran at ho hhandled ⊢
  obtain ⟨result, link⟩ := ran
  cases result with
  | error e => cases ho
  | ok reply => exact ⟨link, rfl, (hhandled.done reply rfl).1, hhandled.steady⟩

theorem row?_of_set (ho : (s.set now key value).answer = .ok none) :
    ∃ c bytes, s.collections.get key.collection = .ok c ∧ c.type.encode value = .ok bytes ∧
      (s.set now key value).state.collections = s.collections ∧
      (s.set now key value).state.row? c.name key.key = some ⟨some bytes, now⟩ := by
  unfold set at ho ⊢
  cases hc : s.collections.get key.collection with
  | error e =>
      rw [hc] at ho
      cases ho
  | ok c =>
      rw [hc] at ho
      dsimp only at ho ⊢
      cases hencode : c.type.encode value with
      | error e =>
          rw [hencode] at ho
          cases ho
      | ok bytes =>
          rw [hencode] at ho
          have hreaches := change_done ho
          refine ⟨c, bytes, rfl, hencode, ?_, ?_⟩
          · obtain ⟨link, hstate, -, -⟩ := hreaches
            dsimp only
            rw [hstate]
          · refine (hreaches.row?_eq c.name key.key).trans ?_
            show (s.link.server.upsert now (s.tableName c.name) key.key (some bytes)).row? _ _ = _
            rw [Server.row?_upsert, if_pos ⟨rfl, rfl⟩]

theorem get_of_row (hs : s.link.outage = .none) (hc : s.collections.get key.collection = .ok c)
    (hencode : c.type.encode value = .ok bytes)
    (hrow : s.row? c.name key.key = some row) (hbytes : row.bytes = some bytes)
    (hlive : row.isLive now c.effectiveTtl.toBinary64 = true) :
    (s.get now key).answer = .ok (some value) := by
  rw [(get_spec hs now hc).1, hrow, visible, Option.filter_some, if_pos hlive]
  simp only [answerTo, rowValue, hbytes, ValueType.decode_of_encode hencode]
  rfl

end PolyCache.RelationalCache

namespace PolyCache.MockCache

variable {s : MockCache} {now : Time} {key : EntryKey} {value : Value} {c : Collection}

theorem lookup_of_set (ho : (s.call now (.set key value)).answer = .ok none) :
    (s.call now (.set key value)).state.data.lookup key = some value := by
  unfold call at ho ⊢
  split at ho
  · cases ho
  · rename_i hfails
    rw [if_neg hfails]
    simp only [perform, set] at ho ⊢
    cases hc : (s.record (.set key value)).collections.get key.collection with
    | error e =>
        rw [hc] at ho
        cases ho
    | ok c =>
        rw [hc] at ho
        dsimp only at ho ⊢
        cases hencode : c.type.encode value with
        | error e =>
            rw [hencode] at ho
            cases ho
        | ok bytes => exact (value?_insert key value key.key).trans (if_pos rfl)

theorem get_of_lookup (hc : s.collections.get key.collection = .ok c)
    (hvalue : s.data.lookup key = some value) (hfails : s.fails (.get key) = false) (now : Time) :
    (s.call now (.get key)).answer = .ok (some value) := by
  unfold call
  rw [if_neg (by simp [hfails]), perform, get, record_collections, hc]
  exact congrArg Except.ok hvalue

end PolyCache.MockCache

namespace PolyCache.ReadThrough

open Storable (Yields Readable Misused)

section Stores

variable {α : Type} [Storable α]

-- In memory: what is done after the write neither writes nor deletes the key, nor finds it too old,
-- and the entry has not been displaced.
def RereadsInMemory (x : α) (outcome : Except Error α → Prop) : Prop :=
  ∀ (ω : Type) (name : Option String) (calls more : List (Time × Request)) (c : Collection)
    (key : String) (now later now' later' : Time)
    (fetch fetch' : EntryKey → StateM ω (Except Cause α))
    (world world' : ω),
    let s := Backend.after (MemoryCache.new name) calls
    let first := ((getOrSetIn now later s (c.entry key) fetch).run world).1
    let s' := Backend.after first.state more
    Wrote now later s (c.entry key) x first →
      (∀ e ∈ Backend.history first.state more, ¬e.Ends (c.entry key) c.effectiveTtl later) →
      s'.Holds c key → now' - later < c.effectiveTtl.nanoseconds →
      Answered outcome ((getOrSetIn now' later' s' (c.entry key) fetch').run world') world'

-- In a table: the row is there as it was left, and it is not too old. No statement fails now.
def RereadsInTable (x : α) (outcome : Except Error α → Prop) : Prop :=
  ∀ (ω : Type) (s s' : RelationalCache) (c : Collection) (key : EntryKey) (row : Relational.Row)
    (now later now' later' : Time) (fetch fetch' : EntryKey → StateM ω (Except Cause α))
    (world world' : ω),
    let first := ((getOrSetIn now later s key fetch).run world).1
    Wrote now later s key x first →
      first.state.collections.get key.collection = .ok c →
      s'.collections.get key.collection = .ok c →
      first.state.row? c.name key.key = some row → s'.row? c.name key.key = some row →
      row.isLive now' c.effectiveTtl.toBinary64 = true → s'.link.outage = .none →
      Answered outcome ((getOrSetIn now' later' s' key fetch').run world') world'

-- In the mock: the entry is there as it was left, and the read is not made to fail.
def RereadsInMock (x : α) (outcome : Except Error α → Prop) : Prop :=
  ∀ (ω : Type) (s s' : MockCache) (c : Collection) (key : EntryKey) (now later now' later' : Time)
    (fetch fetch' : EntryKey → StateM ω (Except Cause α)) (world world' : ω),
    let first := ((getOrSetIn now later s key fetch).run world).1
    Wrote now later s key x first →
      s'.collections.get key.collection = .ok c →
      s'.data.lookup key = first.state.data.lookup key → s'.fails (.get key) = false →
      Answered outcome ((getOrSetIn now' later' s' key fetch').run world') world'

variable {x : α} {outcome : Except Error α → Prop}

theorem rereadsInMemory (hx : Yields x outcome) : RereadsInMemory x outcome := by
  intro ω name calls more c key now later now' later' fetch fetch' world world' s first s'
    hwrote hlasts hholds hyoung
  obtain ⟨value, hvalue, haccepted, hstate⟩ := hwrote.written
  let written := calls ++ [(now, .get (c.entry key))] ++ [(later, .set (c.entry key) value)]
  have hfirst : first.state = Backend.after (MemoryCache.new name) written := by
    rw [Backend.after_concat, Backend.after_concat]
    exact hstate
  have hhistory : Backend.history (MemoryCache.new name) written =
      Backend.history (MemoryCache.new name) (calls ++ [(now, .get (c.entry key))]) ++
        [⟨later, .set (c.entry key) value, .ok none⟩] := by
    rw [Backend.history_concat, Backend.after_concat]
    exact congrArg (fun answer => _ ++ [Exchange.mk later (.set (c.entry key) value) answer])
      haccepted
  have hr := MemoryCache.reflects_after name (written ++ more)
  rw [Backend.after_append, Backend.history_append, ← hfirst] at hr
  have hkept : (Backend.history (MemoryCache.new name) written ++
      Backend.history first.state more).Kept (c.entry key) c.effectiveTtl value later := by
    rw [hhistory, List.append_assoc]
    exact ⟨_, _, rfl, hlasts⟩
  exact answered_of_found hx hvalue (hr.get_of_holds hholds hkept hyoung)

theorem rereadsInTable (hx : Yields x outcome) : RereadsInTable x outcome := by
  intro ω s s' c key row now later now' later' fetch fetch' world world' first hwrote hc hc' hrow
    hrow' hlive houtage
  obtain ⟨value, hvalue, haccepted, hstate⟩ := hwrote.written
  obtain ⟨d, bytes, hd, hencode, hcollections, hwritten⟩ := RelationalCache.row?_of_set haccepted
  have hfirst : first.state =
      (RelationalCache.set later (Backend.call now s (.get key)).state key value).state := hstate
  rw [hfirst, hcollections, hd] at hc
  obtain rfl : d = c := Except.ok.inj hc
  rw [hfirst, hwritten] at hrow
  obtain rfl : _ = row := Option.some.inj hrow
  have hfound : (Backend.call now' s' (.get key)).answer = .ok (some value) :=
    RelationalCache.get_of_row houtage hc' hencode hrow' rfl hlive
  exact answered_of_found hx hvalue hfound

theorem rereadsInMock (hx : Yields x outcome) : RereadsInMock x outcome := by
  intro ω s s' c key now later now' later' fetch fetch' world world' first hwrote hc hkept hfails
  obtain ⟨value, hvalue, haccepted, hstate⟩ := hwrote.written
  have hfirst : first.state.data.lookup key = some value := by
    rw [hstate]
    exact MockCache.lookup_of_set haccepted
  have hfound : (Backend.call now' s' (.get key)).answer = .ok (some value) :=
    MockCache.get_of_lookup hc (hkept.trans hfirst) hfails now'
  exact answered_of_found hx hvalue hfound

-- What a later read answers, from each store, without loading anything.
structure Rereads (x : α) (outcome : Except Error α → Prop) : Prop where
  memory : RereadsInMemory x outcome
  table : RereadsInTable x outcome
  mock : RereadsInMock x outcome

theorem rereads (hx : Yields x outcome) : Rereads x outcome :=
  ⟨rereadsInMemory hx, rereadsInTable hx, rereadsInMock hx⟩

-- The first read of a new collection, which loads `x`, and the same read once more.
def readTwice {σ : Type} [Backend σ] (new : σ) (type : ValueType) (x : α) :
    Reading σ α × Reading σ α :=
  let c : Collection := ⟨"c", none, type, 0⟩
  let s := Backend.after new [(0, .register c)]
  let fetch : EntryKey → StateM Unit (Except Cause α) := fun _ => pure (.ok x)
  let first := ((getOrSetIn 1 2 s (c.entry "k") fetch).run ()).1
  (first, ((getOrSetIn 3 4 first.state (c.entry "k") fetch).run ()).1)

section Twice

variable {σ : Type} [Backend σ] {s : σ} {now later : Time} {key : EntryKey} {value : Value}
  {fetch : EntryKey → StateM Unit (Except Cause α)}

theorem wrote_of_missed (hmissed : (Backend.call now s (.get key)).answer = .ok none)
    (hfetch : ((fetch key).run ()).1 = .ok x) (hvalue : Storable.toValue x = .ok value)
    (hset : (Backend.call later (Backend.call now s (.get key)).state (.set key value)).answer =
      .ok none) :
    Wrote now later s key x ((getOrSetIn now later s key fetch).run ()).1 := by
  have hloads := loads_of_missed now later s key fetch () (.inl hmissed)
  refine ⟨hloads.fetched, hloads.answered x hfetch, ?_⟩
  simp only [write, hvalue, warned, hset]

end Twice

-- Whatever a collection takes can be written by one read and met by the next.
theorem RereadsInMemory.twice (h : RereadsInMemory x outcome) {type : ValueType}
    {value : Value} {bytes : Bytes} (hvalue : Storable.toValue x = .ok value)
    (hencode : type.encode value = .ok bytes) :
    outcome (readTwice (MemoryCache.new none) type x).2.answer ∧
      (readTwice (MemoryCache.new none) type x).2.fetched = false := by
  let c : Collection := ⟨"c", none, type, 0⟩
  let s := Backend.after (MemoryCache.new none) [(0, .register c)]
  let fetch : EntryKey → StateM Unit (Except Cause α) := fun _ => pure (.ok x)
  let first := ((getOrSetIn 1 2 s (c.entry "k") fetch).run ()).1
  have hmissed : (Backend.call 1 s (.get (c.entry "k"))).answer = .ok none := rfl
  let read := (Backend.call 1 s (.get (c.entry "k"))).state
  let p : Partition := ⟨c, (Shelf.empty none).write "k" ⟨bytes, 2⟩⟩
  have hpartition : read.partitions.get "c" = .ok ⟨c, .empty none⟩ := rfl
  have hset : Backend.call 2 read (.set (c.entry "k") value) = .done (read.put "c" p) := by
    show MemoryCache.set 2 read (c.entry "k") value = _
    exact MemoryCache.set_of_encode (p := ⟨c, .empty none⟩) hpartition hencode 2
  have hwrote : Wrote 1 2 s (c.entry "k") x first :=
    wrote_of_missed hmissed rfl hvalue (congrArg Outcome.answer hset)
  have hfirst : first.state = read.put "c" p := by
    rw [(loads_of_missed 1 2 s (c.entry "k") fetch () (.inl hmissed)).written x value rfl hvalue]
    exact congrArg Outcome.state hset
  have hholds : first.state.Holds c "k" := by
    rw [hfirst]
    exact ⟨p, ⟨bytes, 2⟩, rfl, rfl, rfl⟩
  have hyoung : 3 - 2 < c.effectiveTtl.nanoseconds := by
    show 1 < Collection.forever.nanoseconds
    decide
  have hanswered := h Unit none [(0, .register c)] [] c "k" 1 2 3 4 fetch fetch () () hwrote
    (fun x hx => by cases hx) hholds hyoung
  exact ⟨hanswered.answer, hanswered.fetched⟩

-- The same in a table, where the row that the first read leaves is looked at.
theorem RereadsInTable.twice (h : RereadsInTable x outcome) (new : RelationalCache)
    (type : ValueType) (row : Relational.Row) {value : Value}
    (hvalue : Storable.toValue x = .ok value) :
    let c : Collection := ⟨"c", none, type, 0⟩
    let s := Backend.after new [(0, .register c)]
    let left := (readTwice new type x).1.state
    (Backend.call 1 s (.get (c.entry "k"))).answer = .ok none →
      (Backend.call 2 (Backend.call 1 s (.get (c.entry "k"))).state
        (.set (c.entry "k") value)).answer =
        .ok none →
      left.collections.get "c" = .ok c → left.row? "c" "k" = some row →
      row.isLive 3 c.effectiveTtl.toBinary64 = true → left.link.outage = .none →
      outcome (readTwice new type x).2.answer ∧ (readTwice new type x).2.fetched = false := by
  intro c s left hmissed hset hc hrow hlive houtage
  let fetch : EntryKey → StateM Unit (Except Cause α) := fun _ => pure (.ok x)
  have hwrote : Wrote 1 2 s (c.entry "k") x (readTwice new type x).1 :=
    wrote_of_missed hmissed rfl hvalue hset
  have hanswered :=
    h Unit s left c (c.entry "k") row 1 2 3 4 fetch fetch () () hwrote hc hc hrow hrow
    hlive houtage
  exact ⟨hanswered.answer, hanswered.fetched⟩

end Stores

-- What a read has loaded and written, the next one finds and can read, so nothing is loaded again,
-- unless it is kept as JSON and is a number that is not finite or a tree in which more than 127
-- lists and objects stand inside one another. These are written all the same, and the next read is
-- told that it has made a mistake.
theorem written_values_are_read_back (kind : Kind) (x : kind.Carrier) (proper : kind.IsProper x) :
    (kind.IsLegible x → Rereads x Readable) ∧ (¬kind.IsLegible x → Rereads x Misused) := by
  have hjudged := kind.judged x proper
  exact ⟨fun h => rereads (hjudged.readable h), fun h => rereads (hjudged.misused h)⟩

-- Lists inside one another, `n` of them.
def nested : Nat → Json.Tree
  | 0 => .null
  | n + 1 => .list [nested n]

theorem nested_isProper (n : Nat) : (nested n).IsProper := by
  induction n with
  | zero => exact .null
  | succ n ih => exact .list (List.forall_mem_singleton.mpr ih)

theorem depth_nested (n : Nat) : (nested n).depth = n := by
  induction n with
  | zero => rfl
  | succ n ih =>
      rw [nested, Json.Tree.depth, Json.itemsDepth, Json.itemsDepth, ih, Nat.max_zero]

theorem encode_nested (n : Nat) :
    ValueType.object.encode (.object (nested n).print) = .ok (nested n).print :=
  ValueType.encode_object_eq_ok_iff.mpr ((nested_isProper n).settled 0).value.element

-- One and a half is read back, from a table as a double and from memory as JSON, and so is a list
-- as deep as a list may be. One more list around it is written, but it cannot be read.
theorem lists_are_read_back_up_to_a_depth :
    Readable (readTwice (⟨"public", none, .empty, [], .new⟩ : RelationalCache) .real
        (⟨0x3FF8000000000000⟩ : Binary64)).2.answer ∧
      Readable (readTwice (MemoryCache.new none) .object
        (AsJson.mk (⟨0x3FF8000000000000⟩ : Binary64))).2.answer ∧
      Readable (readTwice (MemoryCache.new none) .object (AsJson.mk (nested 127))).2.answer ∧
      Misused (readTwice (MemoryCache.new none) .object (AsJson.mk (nested 128))).2.answer := by
  refine ⟨?_, ?_, ?_, ?_⟩
  · have hread : Rereads (⟨0x3FF8000000000000⟩ : Binary64) Readable :=
      (written_values_are_read_back .real _ trivial).1 trivial
    exact (hread.table.twice ⟨"public", none, .empty, [], .new⟩ .real
      ⟨some [0, 0, 0, 0, 0, 0, 0xF8, 0x3F], 2⟩ rfl (by decide +kernel) (by decide +kernel)
      (by decide +kernel) (by decide +kernel) (by decide +kernel) (by decide +kernel)).1
  · have hread : Rereads (AsJson.mk (⟨0x3FF8000000000000⟩ : Binary64)) Readable := by
      refine (written_values_are_read_back (.json .real) _ trivial).1 ?_
      show Binary64.IsFinite ⟨0x3FF8000000000000⟩
      decide
    have hvalue : Storable.toValue (AsJson.mk (⟨0x3FF8000000000000⟩ : Binary64)) =
        .ok (.object [0x31, 0x2E, 0x35]) := by decide +kernel
    have hencode :
        ValueType.object.encode (.object [0x31, 0x2E, 0x35]) = .ok [0x31, 0x2E, 0x35] := by
      decide
    exact (hread.memory.twice hvalue hencode).1
  · have hread : Rereads (AsJson.mk (nested 127)) Readable :=
      (written_values_are_read_back (.json .tree) _ (nested_isProper 127)).1
        (Nat.le_of_eq (depth_nested 127))
    exact (hread.memory.twice rfl (encode_nested 127)).1
  · have hread : Rereads (AsJson.mk (nested 128)) Misused := by
      refine (written_values_are_read_back (.json .tree) _ (nested_isProper 128)).2 ?_
      show ¬(nested 128).depth ≤ 127
      rw [depth_nested]
      decide
    exact (hread.memory.twice rfl (encode_nested 128)).1

theorem infinity_is_not_read_back :
    ¬RereadsInMemory (AsJson.mk (Binary64.infinity false)) Readable := by
  intro h
  have hvalue : Storable.toValue (AsJson.mk (Binary64.infinity false)) =
      .ok (.object Json.nullText) := by decide +kernel
  have hencode : ValueType.object.encode (.object Json.nullText) = .ok Json.nullText := by
    decide +kernel
  have hnot : ¬(Binary64.infinity false).IsFinite := by decide
  obtain ⟨⟨y, hread⟩, -⟩ := h.twice hvalue hencode
  obtain ⟨⟨e, hmisused, -⟩, -⟩ :=
    (rereadsInMemory (Storable.misused_not_finite hnot)).twice hvalue hencode
  rw [hread] at hmisused
  cases hmisused

end PolyCache.ReadThrough
