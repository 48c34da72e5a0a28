import PolyCache.Proofs.Backend.Recency

-- Which entries a bounded collection in memory loses, and to what.
namespace PolyCache

open History

namespace Shelf

variable {α : Type} {s : Shelf α} {key other : String} {value : α}

@[simp] theorem countRead_counting : (s.countRead key).counting = s.counting := by
  unfold countRead
  split <;> rfl

@[simp] theorem read_counting : (s.read key).2.counting = s.counting := by
  simp only [read, countRead_entries]
  cases s.entries.lookup key <;> exact countRead_counting

-- A read counts for its own key.
theorem frequency_countRead (hle : s.frequency other ≤ maxFrequency) :
    (s.countRead key).frequency other =
      if s.counting = true ∧ other = key then min maxFrequency (s.frequency other + 1)
      else s.frequency other := by
  unfold countRead
  by_cases hcount : s.counting = true ∧ s.frequency key < maxFrequency
  · rw [if_pos (by simpa using hcount), frequency, Entries.lookup_insert Entries.stringLess_isOrder]
    by_cases ho : other = key
    · subst ho
      simp only [beq_self_eq_true, if_true, Option.getD_some, and_true, hcount.1]
      omega
    · rw [if_neg (by simpa using ho), if_neg (by simp [ho]), frequency]
  · rw [if_neg (by simpa using hcount)]
    split
    · rename_i h
      obtain ⟨hcounting, rfl⟩ := h
      have hmax : ¬ s.frequency other < maxFrequency := fun hlt => hcount ⟨hcounting, hlt⟩
      omega
    · rfl

theorem frequency_read (hle : s.frequency other ≤ maxFrequency) :
    (s.read key).2.frequency other =
      if s.counting = true ∧ other = key then min maxFrequency (s.frequency other + 1)
      else s.frequency other := by
  rw [← frequency_countRead hle, read]
  cases (s.countRead key).entries.lookup key <;> rfl

end Shelf

namespace Partition

open PolyCache.Shelf

variable {p p' : Partition} {h : History} {now : Time} {request : Request} {answer : Answer}
  {key other : String} {full : Bool} {reads : Nat}

-- What costs a key its place in one step: its deletion, its own read that finds it expired, or a
-- new key that is read more often than the first in line, on a full shelf.
theorem Step.lost (hs : p.Step now request answer p') (hm : key ∈ p.keys) (hlost : key ∉ p'.keys) :
    request = .del (p.collection.entry key) ∨
    (request = .get (p.collection.entry key) ∧
      ∃ entry, p.shelf.entries.lookup key = some entry ∧ p.isExpired now entry = true) ∨
    ∃ newcomer value, request = .set (p.collection.entry newcomer) value ∧
      newcomer ∉ p.keys ∧ p.shelf.isFull = true ∧
      p.shelf.frequency key < p.shelf.frequency newcomer ∧
      ∃ old entries, p.shelf.entries = (key, old) :: entries := by
  cases hs with
  | wrote newcomer encodes =>
      obtain ⟨hnew, hfull, hrarer, old, entries, hfirst, -⟩ := Shelf.lost_write hm hlost
      exact Or.inr (Or.inr ⟨newcomer, _, rfl, hnew, hfull, hrarer, old, entries, hfirst⟩)
  | read k =>
      right
      left
      unfold keys at hm hlost
      rcases read_entries p now k with ⟨heq, -⟩ | ⟨heq, -, entry, hl, hexpired⟩ | ⟨entry, heq, -⟩
      · rw [heq] at hlost
        exact absurd hm hlost
      · rw [heq] at hlost
        obtain rfl : key = k := eq_of_erased hm hlost
        exact ⟨rfl, entry, hl, hexpired⟩
      · rw [heq] at hlost
        exact absurd (mem_keys_moveToEnd hm k entry) hlost
  | erased k =>
      left
      obtain rfl : key = k := eq_of_erased hm hlost
      rfl
  | kept idle => exact absurd hm hlost

-- One step costs one key its place at most.
theorem Step.lost_unique (hs : p.Step now request answer p')
    (hm : key ∈ p.keys) (hlost : key ∉ p'.keys)
    (hm' : other ∈ p.keys) (hlost' : other ∉ p'.keys) : key = other := by
  rcases hs.lost hm hlost with hreq | ⟨hreq, -⟩ | ⟨_, _, hreq, -, -, -, _, _, hfirst⟩ <;>
    rcases hs.lost hm' hlost' with hreq' | ⟨hreq', -⟩ | ⟨_, _, hreq', -, -, -, _, _, hfirst'⟩ <;>
    rw [hreq] at hreq'
  · exact (EntryKey.mk.inj (Request.del.inj hreq')).2
  · cases hreq'
  · cases hreq'
  · cases hreq'
  · exact (EntryKey.mk.inj (Request.get.inj hreq')).2
  · cases hreq'
  · cases hreq'
  · cases hreq'
  · rw [hfirst] at hfirst'
    exact congrArg Prod.fst (List.cons.inj hfirst').1

def isHalfFull (p : Partition) : Bool :=
  p.collection.bound?.any fun bound => Shelf.isHalfFull bound p.shelf.entries

-- So often has a key been read since the shelf was half full for the first
-- time, before now if `full`.
structure Tallies (p : Partition) (key : String) (full : Bool) (reads : Nat) : Prop where
  bound : p.shelf.bound? = p.collection.bound?
  counting : p.shelf.counting = (full || p.isHalfFull)
  frequency : p.shelf.frequency key = min maxFrequency reads

theorem tallies_new (c : Collection) (key : String) : (new c).Tallies key false 0 :=
  ⟨rfl, rfl, rfl⟩

-- A shelf that has not grown is not half full for the first time.
theorem Tallies.counting_of_le (ht : p.Tallies key full reads)
    (hcollection : p'.collection = p.collection) (hle : p'.shelf.size ≤ p.shelf.size) :
    p.shelf.counting = (full || p.isHalfFull || p'.isHalfFull) := by
  have hhalf : p'.isHalfFull = true → p.isHalfFull = true := by
    unfold isHalfFull Shelf.isHalfFull
    rw [hcollection]
    cases p.collection.bound? with
    | none => exact id
    | some bound =>
        simp only [Option.any_some, decide_eq_true_eq]
        exact fun h => Nat.le_trans h hle
  rw [ht.counting]
  cases hp' : p'.isHalfFull with
  | false => simp
  | true => simp [hhalf hp']

theorem size_read_le (p : Partition) (now : Time) (key : String) :
    (p.read now key).2.shelf.size ≤ p.shelf.size := by
  unfold size
  rcases read_entries p now key with ⟨heq, -⟩ | ⟨heq, -⟩ | ⟨entry, heq, -, hl⟩ <;> rw [heq]
  · exact List.length_filter_le _ _
  · rw [moveToEnd, List.length_append, List.length_singleton]
    exact length_erase_lt (List.mem_map.mpr ⟨_, Entries.mem_of_lookup hl, rfl⟩)

theorem read_counting : (p.read now key).2.shelf.counting = p.shelf.counting := by
  rw [read_eq]
  split
  · exact Shelf.read_counting
  · split <;> exact Shelf.read_counting

theorem read_frequency :
    (p.read now key).2.shelf.frequency other = (p.shelf.read key).2.frequency other := by
  rw [read_eq]
  split
  · rfl
  · split <;> rfl

theorem Step.tallies (hs : p.Step now request answer p') (ht : p.Tallies key full reads) :
    p'.Tallies key (full || p.isHalfFull)
      (reads +
        if (full || p.isHalfFull) ∧ request = .get (p.collection.entry key) then 1 else 0) := by
  cases hs with
  | @wrote k value bytes encodes =>
      refine ⟨ht.bound, ?_, ?_⟩
      · show (p.shelf.counting || p.shelf.bound?.any fun bound =>
          Shelf.isHalfFull bound (p.shelf.write k ⟨bytes, now⟩).entries) = _
        rw [ht.counting, ht.bound]
        rfl
      · rw [if_neg (by simp)]
        exact ht.frequency
  | read k =>
      refine ⟨?_, ?_, ?_⟩
      · rw [read_bound?, read_collection]
        exact ht.bound
      · rw [read_counting]
        exact ht.counting_of_le read_collection (size_read_le p now k)
      · rw [read_frequency, Shelf.frequency_read (ht.frequency ▸ Nat.min_le_left _ _),
          ht.frequency, ht.counting]
        have hkey : p.collection.entry k = p.collection.entry key ↔ key = k := by
          simp [Collection.entry, eq_comm]
        simp only [Request.get.injEq, hkey]
        split
        · omega
        · rfl
  | erased k =>
      refine ⟨ht.bound, ?_, ?_⟩
      · exact ht.counting_of_le rfl (List.length_filter_le _ _)
      · rw [if_neg (by simp)]
        exact ht.frequency
  | kept idle =>
      refine ⟨ht.bound, ?_, ?_⟩
      · exact ht.counting_of_le rfl (Nat.le_refl _)
      · rw [if_neg]
        · exact ht.frequency
        · rintro ⟨-, rfl⟩
          rcases idle with hother | ⟨_, _, _, hreq, -⟩
          · exact hother key rfl
          · cases hreq

end Partition

namespace MemoryCache

variable {s : MemoryCache} {p : Partition} {h : History} {c : Collection} {name key other : String}
  {now : Time} {request : Request} {full : Bool} {reads : Nat}

-- The keys that have an entry, expired ones that have not been read included.
def keys (s : MemoryCache) (name : String) : List String :=
  match s.partitions.get name with
  | .error _ => []
  | .ok p => p.keys

def frequency (s : MemoryCache) (key : EntryKey) : Nat :=
  match s.partitions.get key.collection with
  | .error _ => 0
  | .ok p => p.shelf.frequency key.key

def isHalfFull (s : MemoryCache) (c : Collection) : Bool :=
  match s.entryCount c.name with
  | .error _ => false
  | .ok n => c.bound?.any fun bound => bound / 2 ≤ n

-- The reads of a key once its collection has been half full. It has been before if `full`.
def countedReads (c : Collection) (key : String) (full : Bool) (s : MemoryCache) :
    List (Time × Request) → Nat
  | [] => 0
  | (now, request) :: calls =>
    (if (full || s.isHalfFull c) ∧ request = .get (c.entry key) then 1 else 0) +
      countedReads c key (full || s.isHalfFull c) (s.call now request).state calls

-- No call closes the cache or is about the key, and no new key that is set
-- has been read more often.
def Outranks (c : Collection) (key : String) (s : MemoryCache) : List (Time × Request) → Prop
  | [] => True
  | (now, request) :: calls =>
    (request ≠ .close ∧ request.key? ≠ some (c.entry key) ∧
      ∀ newcomer value, request = .set (c.entry newcomer) value → newcomer ∉ s.keys c.name →
        s.frequency (c.entry newcomer) ≤ s.frequency (c.entry key)) ∧
      Outranks c key (s.call now request).state calls

-- What takes the entry of a key away.
inductive Loss (s : MemoryCache) (h : History) (c : Collection) (key : String) (now : Time) :
    Request → Prop
  | deleted : Loss s h c key now (.del (c.entry key))
  | expired {value : Value} {writtenAt : Time}
      (kept : h.Kept (c.entry key) c.effectiveTtl value writtenAt)
      (old : c.effectiveTtl.nanoseconds ≤ now - writtenAt) :
      Loss s h c key now (.get (c.entry key))
  | closed : Loss s h c key now .close
  | displaced {newcomer : String} {value : Value} (new : newcomer ∉ s.keys c.name)
      (full : (s.keys c.name).length = c.maxItems)
      (oldest : ∀ other ∈ s.keys c.name, other ≠ key →
        h.UsedSince (c.entry key) (c.entry other))
      (rarer : s.frequency (c.entry key) < s.frequency (c.entry newcomer)) :
      Loss s h c key now (.set (c.entry newcomer) value)

theorem keys_eq (hp : s.partitions.get name = .ok p) : s.keys name = p.keys := by
  rw [keys, hp]

theorem partition_of_mem_keys (hm : key ∈ s.keys name) :
    ∃ p, s.partitions.get name = .ok p ∧ key ∈ p.keys := by
  unfold keys at hm
  split at hm
  · cases hm
  · exact ⟨_, ‹_›, hm⟩

theorem frequency_eq (hp : s.partitions.get c.name = .ok p) (key : String) :
    s.frequency (c.entry key) = p.shelf.frequency key := by
  rw [frequency, Collection.entry, hp]

theorem entryCount_eq (hp : s.partitions.get name = .ok p) :
    s.entryCount name = .ok (s.keys name).length := by
  rw [entryCount, keys_eq hp, hp, Partition.keys, List.length_map]
  rfl

theorem isHalfFull_eq (hp : s.partitions.get p.collection.name = .ok p) :
    s.isHalfFull p.collection = p.isHalfFull := by
  rw [isHalfFull, entryCount_eq hp, keys_eq hp, Partition.keys, List.length_map]
  rfl

-- While the cache is open, the reads of the key since its collection was half full for the first
-- time, before now if `full`.
structure Tallies (s : MemoryCache) (c : Collection) (key : String) (full : Bool) (reads : Nat) :
    Prop where
  missing : ∀ e, s.partitions.get c.name = .error e →
    s.partitions.entries? = none ∨ full = false ∧ reads = 0
  counted : ∀ p, s.partitions.get c.name = .ok p → p.collection = c → p.Tallies key full reads

theorem tallies_start (name : Option String) (c : Collection) (key : String) :
    (new name).Tallies c key false 0 where
  missing e he := Or.inr ⟨rfl, rfl⟩
  counted p hp hc := by simp [new] at hp

theorem isHalfFull_of_missing {e : Error} (he : s.partitions.get c.name = .error e) :
    s.isHalfFull c = false := by
  rw [isHalfFull, entryCount, he]
  rfl

theorem Tallies.call (ht : s.Tallies c key full reads) (hr : s.Reflects h) (now : Time)
    (request : Request) :
    (s.call now request).state.Tallies c key (full || s.isHalfFull c)
      (reads + if (full || s.isHalfFull c) ∧ request = .get (c.entry key) then 1 else 0) := by
  by_cases hclose : request = .close
  · subst hclose
    exact ⟨fun e he => Or.inl rfl, fun p hp => nomatch hp⟩
  cases hp : s.partitions.get c.name with
  | error e =>
      have hfalse := isHalfFull_of_missing hp
      rcases ht.missing e hp with hclosed | ⟨rfl, rfl⟩
      · have hclosed' := closed_call hclosed now request
        refine ⟨fun e he => Or.inl hclosed', ?_⟩
        intro p' hp'
        rw [Registry.get, hclosed'] at hp'
        cases hp'
      · rw [hfalse]
        refine ⟨fun e he => Or.inr ⟨rfl, by simp⟩, ?_⟩
        intro p' hp' hc
        rw [(call_new hp hp').1]
        simpa using Partition.tallies_new p'.collection key
  | ok p =>
      obtain ⟨p', hp', hstep⟩ := call_step hp (hr.partition _ p hp).1 now hclose
      constructor
      · intro e he
        rw [hp'] at he
        cases he
      · intro q hq hc
        rw [hp'] at hq
        obtain rfl := Except.ok.inj hq
        have hcollection : p.collection = c := hstep.collection.symm.trans hc
        subst hcollection
        rw [isHalfFull_eq hp]
        exact hstep.tallies (ht.counted p hp rfl)

theorem Tallies.after (ht : s.Tallies c key full reads) (hr : s.Reflects h)
    (calls : List (Time × Request)) :
    ∃ full',
      (Backend.after s calls).Tallies c key full' (reads + countedReads c key full s calls) := by
  induction calls generalizing s h full reads with
  | nil => exact ⟨full, ht⟩
  | cons call calls ih =>
      obtain ⟨now, request⟩ := call
      rw [countedReads, ← Nat.add_assoc]
      exact ih (ht.call hr now request) (hr.call now request)

theorem ranks_after (start : Option String) (calls : List (Time × Request))
    (hp : (Backend.after (new start) calls).partitions.get name = .ok p) :
    p.Ranks (Backend.history (new start) calls) := by
  induction calls using List.reverseRecOn generalizing p with
  | nil => simp [Backend.after, new] at hp
  | append_singleton calls call ih =>
      obtain ⟨now, request⟩ := call
      have hr := reflects_after start calls
      rw [Backend.after_concat] at hp
      rw [Backend.history_concat]
      have hclose : request ≠ .close := by
        rintro rfl
        cases hp
      cases hq : (Backend.after (new start) calls).partitions.get name with
      | error e =>
          rw [(call_new hq hp).1]
          exact Partition.ranks_new _ _
      | ok q =>
          obtain ⟨hname, hreflects⟩ := hr.partition name q hq
          obtain ⟨p', hp', hstep⟩ := call_step hq hname now hclose
          obtain rfl : p' = p := Except.ok.inj (hp'.symm.trans hp)
          exact hstep.ranks (ih hq) hreflects

-- A collection keeps the partition that it was registered with.
theorem collection_eq (start : Option String) (calls : List (Time × Request))
    (hreg : ∃ x ∈ Backend.history (new start) calls, x.Registers c)
    (hp : (Backend.after (new start) calls).partitions.get c.name = .ok p) : p.collection = c := by
  have hopen := (registered_of_partition start calls hp).2
  obtain ⟨q, hq, hc⟩ := (reflects_after start calls).registered c ⟨hreg, hopen⟩
  rw [hp] at hq
  rw [Except.ok.inj hq, hc]

theorem length_keys_le (start : Option String) (calls : List (Time × Request))
    (hpos : 0 < c.maxItems) (hreg : ∃ x ∈ Backend.history (new start) calls, x.Registers c) :
    ((Backend.after (new start) calls).keys c.name).length ≤ c.maxItems := by
  cases hp : (Backend.after (new start) calls).partitions.get c.name with
  | error e =>
      rw [keys, hp]
      exact Nat.zero_le _
  | ok p =>
      obtain rfl := collection_eq start calls hreg hp
      have hbound := ((reflects_after start calls).partition _ p hp).2.bound
      rw [Collection.bound?, if_neg (Nat.ne_of_gt hpos)] at hbound
      rw [keys_eq hp, Partition.keys, List.length_map]
      exact (ranks_after start calls hp).fits _ hbound

theorem lost (start : Option String) (calls : List (Time × Request)) (hpos : 0 < c.maxItems)
    (hreg : ∃ x ∈ Backend.history (new start) calls, x.Registers c)
    (hm : key ∈ (Backend.after (new start) calls).keys c.name)
    (hlost : key ∉ ((Backend.after (new start) calls).call now request).state.keys c.name) :
    (Backend.after (new start) calls).Loss (Backend.history (new start) calls) c key now
      request := by
  have hle := length_keys_le start calls hpos hreg
  obtain ⟨p, hp, hkey⟩ := partition_of_mem_keys hm
  obtain ⟨hname, hreflects⟩ := (reflects_after start calls).partition _ p hp
  have hranks := ranks_after start calls hp
  obtain rfl := collection_eq start calls hreg hp
  by_cases hclose : request = .close
  · exact hclose ▸ .closed
  obtain ⟨p', hp', hstep⟩ := call_step hp hname now hclose
  rw [keys_eq hp'] at hlost
  rcases hstep.lost hkey hlost with
    rfl | ⟨rfl, entry, hl, hexpired⟩ |
      ⟨newcomer, value, rfl, hnew, hfull, hrarer, old, entries, hfirst⟩
  · exact .deleted
  · obtain ⟨value, -, hkept⟩ := hreflects.kept key entry hl
    exact .expired hkept (by simpa [Partition.isExpired] using hexpired)
  · have hbound : p.shelf.bound? = some p.collection.maxItems := by
      rw [hreflects.bound, Collection.bound?, if_neg (Nat.ne_of_gt hpos)]
    have hge := (Shelf.isFull_iff hbound).mp hfull
    have horder := hranks.order
    rw [hfirst, List.pairwise_cons] at horder
    refine .displaced (by rwa [keys_eq hp]) ?_ ?_ ?_
    · refine Nat.le_antisymm hle ?_
      rw [keys_eq hp, Partition.keys, List.length_map]
      exact hge
    · -- the key is the first in line
      intro other hother hne
      rw [keys_eq hp, Partition.keys, hfirst, List.map_cons, List.mem_cons] at hother
      obtain ⟨entry, hentry, rfl⟩ := List.mem_map.mp (hother.resolve_left hne)
      exact horder.1 entry hentry
    · rw [frequency_eq hp, frequency_eq hp]
      exact hrarer

theorem lost_unique (hr : s.Reflects h) (hclose : request ≠ .close)
    (hm : key ∈ s.keys name) (hlost : key ∉ (s.call now request).state.keys name)
    (hm' : other ∈ s.keys name) (hlost' : other ∉ (s.call now request).state.keys name) :
    key = other := by
  obtain ⟨p, hp, hkey⟩ := partition_of_mem_keys hm
  rw [keys_eq hp] at hm'
  obtain ⟨p', hp', hstep⟩ := call_step hp (hr.partition _ p hp).1 now hclose
  rw [keys_eq hp'] at hlost hlost'
  exact hstep.lost_unique hkey hlost hm' hlost'

-- A key that no newcomer outranks keeps its place.
theorem survives (start : Option String) (calls later : List (Time × Request))
    (hpos : 0 < c.maxItems) (hreg : ∃ x ∈ Backend.history (new start) calls, x.Registers c)
    (hm : key ∈ (Backend.after (new start) calls).keys c.name)
    (hout : Outranks c key (Backend.after (new start) calls) later) :
    key ∈ (Backend.after (Backend.after (new start) calls) later).keys c.name := by
  induction later generalizing calls with
  | nil => exact hm
  | cons call later ih =>
      obtain ⟨now, request⟩ := call
      obtain ⟨⟨hclose, hother, hrarer⟩, hrest⟩ := hout
      have hafter := Backend.after_concat (new start) calls now request
      have hkept :
          key ∈ ((Backend.after (new start) calls).call now request).state.keys c.name := by
        by_contra hlost
        cases lost start calls hpos hreg hm hlost with
        | deleted => exact hother rfl
        | expired kept old => exact hother rfl
        | closed => exact hclose rfl
        | displaced new full oldest rarer =>
            exact absurd rarer (Nat.not_lt.mpr (hrarer _ _ rfl new))
      have hreg' :
          ∃ x ∈ Backend.history (new start) (calls ++ [(now, request)]), x.Registers c := by
        obtain ⟨x, hx, hc⟩ := hreg
        rw [Backend.history_concat]
        exact ⟨x, List.mem_append_left _ hx, hc⟩
      have hlater := ih (calls ++ [(now, request)]) hreg'
      rw [hafter] at hlater
      exact hlater hkept hrest

theorem frequency_after (start : Option String) (calls : List (Time × Request))
    (hreg : (Backend.history (new start) calls).Registered c) (key : String) :
    (Backend.after (new start) calls).frequency (c.entry key) =
      min Shelf.maxFrequency (countedReads c key false (new start) calls) := by
  obtain ⟨p, hp, hc⟩ := (reflects_after start calls).registered c hreg
  obtain ⟨full, htallies⟩ := (tallies_start start c key).after (reflects_start start) calls
  rw [frequency_eq hp, (htallies.counted p hp hc).frequency, Nat.zero_add]

-- A bounded collection keeps to its bound. Until the cache is closed a call takes one entry away
-- at most, and a new key does so only on a full shelf, in the place of the key that was used the
-- longest ago and has been read less often. So a key that no newcomer outranks stays.
theorem bounded_displaces_only_outranked (start : Option String) (calls : List (Time × Request))
    (c : Collection) (hpos : 0 < c.maxItems)
    (hreg : ∃ x ∈ Backend.history (new start) calls, x.Registers c) :
    let s := Backend.after (new start) calls
    let h := Backend.history (new start) calls
    (h.Registered c → s.entryCount c.name = .ok (s.keys c.name).length ∧
      ∀ key, s.frequency (c.entry key) =
        min 15 (countedReads c key false (new start) calls)) ∧
    (s.keys c.name).length ≤ c.maxItems ∧
    (∀ now request key, key ∈ s.keys c.name → key ∉ (s.call now request).state.keys c.name →
      s.Loss h c key now request ∧
      (request ≠ .close → ∀ other ∈ s.keys c.name,
        other ∉ (s.call now request).state.keys c.name → other = key)) ∧
    ∀ key ∈ s.keys c.name, ∀ later, s.Outranks c key later →
      key ∈ (Backend.after s later).keys c.name := by
  intro s h
  refine ⟨?_, length_keys_le start calls hpos hreg, ?_, ?_⟩
  · intro hregistered
    obtain ⟨p, hp, hc⟩ := (reflects_after start calls).registered c hregistered
    exact ⟨entryCount_eq hp, frequency_after start calls hregistered⟩
  · intro now request key hm hlost
    refine ⟨lost start calls hpos hreg hm hlost, ?_⟩
    intro hclose other hm' hlost'
    exact lost_unique (reflects_after start calls) hclose hm' hlost' hm hlost
  · intro key hm later hout
    exact survives start calls later hpos hreg hm hout

-- Of two keys the one that was read is used last. A third one that has been read as often takes the
-- place of the other, and a fourth one none.
theorem read_key_outlives_unread :
    let c : Collection := ⟨"c", none, .int64, 2⟩
    let calls : List (Time × Request) :=
      [(0, .register c), (1, .set (c.entry "a") (.int64 1)), (2, .set (c.entry "b") (.int64 2)),
        (3, .get (c.entry "a")), (4, .get (c.entry "x"))]
    let s := Backend.after (new none) calls
    s.Loss (Backend.history (new none) calls) c "b" 5 (.set (c.entry "x") (.int64 3)) ∧
      "a" ∈ (Backend.after s
        [(5, .set (c.entry "x") (.int64 3)), (6, .set (c.entry "y") (.int64 4))]).keys "c" := by
  intro c calls s
  have hreg : ∃ x ∈ Backend.history (new none) calls, x.Registers c :=
    ⟨_, List.mem_cons_self, rfl, rfl⟩
  obtain ⟨-, -, hloss, hstays⟩ := bounded_displaces_only_outranked none calls c (by decide) hreg
  refine ⟨(hloss 5 _ "b" (by decide +kernel) (by decide +kernel)).1, ?_⟩
  refine hstays "a" (by decide +kernel) _ ⟨⟨nofun, by decide, ?_⟩, ⟨nofun, by decide, ?_⟩, trivial⟩
  all_goals
    intro newcomer value hreq _
    cases hreq
    decide +kernel

end MemoryCache

end PolyCache
