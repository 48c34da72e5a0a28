import PolyCache.Proofs.Backend.Memory

-- In which order keys have been used, told from the history, and that the entries of a partition
-- stand in this order.
namespace PolyCache

-- A write, or a read that found something.
def Exchange.Uses (x : Exchange) (key : EntryKey) : Prop :=
  (∃ value, x.Writes key value) ∨ ∃ value, x.request = .get key ∧ x.answer = .ok (some value)

-- The other key has been used since this one was used last.
def History.UsedSince (h : History) (key other : EntryKey) : Prop :=
  ∃ before x after, h = before ++ x :: after ∧ x.Uses other ∧ ∀ y ∈ x :: after, ¬ y.Uses key

-- An exchange uses no key but its own.
theorem Exchange.Uses.key? {x : Exchange} {key : EntryKey} (hx : x.Uses key) :
    x.request.key? = some key := by
  rcases hx with ⟨value, hreq, -⟩ | ⟨value, hreq, -⟩ <;> rw [hreq] <;> rfl

namespace History

variable {h : History} {x : Exchange} {key other : EntryKey}

theorem UsedSince.concat (hu : h.UsedSince key other) (hx : ¬ x.Uses key) :
    (h ++ [x]).UsedSince key other := by
  obtain ⟨before, y, after, rfl, hy, hnone⟩ := hu
  refine ⟨before, y, after ++ [x], by simp, hy, ?_⟩
  intro z hz
  rcases List.mem_append.mp (List.cons_append ▸ hz) with hz | hz
  · exact hnone z hz
  · rw [List.mem_singleton.mp hz]
    exact hx

theorem usedSince_of_uses (hother : x.Uses other) (hx : ¬ x.Uses key) :
    (h ++ [x]).UsedSince key other := by
  refine ⟨h, x, [], rfl, hother, ?_⟩
  rw [List.forall_mem_singleton]
  exact hx

end History

namespace Shelf

open Entries

variable {α : Type} {s : Shelf α} {key other : String} {value : α} {bound : Nat}

theorem contains_iff : s.contains key = true ↔ key ∈ s.entries.map Prod.fst := by
  rw [← not_iff_not, Bool.not_eq_true, contains, contains_eq_false_iff, lookup_eq_none_iff]

theorem mem_keys_erase (entries : List (String × α)) :
    other ∈ (Entries.erase key entries).map Prod.fst ↔
      other ∈ entries.map Prod.fst ∧ other ≠ key := by
  simp only [Entries.erase, List.mem_map, List.mem_filter, Bool.not_eq_true', beq_eq_false_iff_ne]
  constructor
  · rintro ⟨entry, ⟨hm, hne⟩, rfl⟩
    exact ⟨⟨entry, hm, rfl⟩, hne⟩
  · rintro ⟨⟨entry, hm, rfl⟩, hne⟩
    exact ⟨entry, ⟨hm, hne⟩, rfl⟩

theorem eq_of_erased {entries : List (String × α)} (hm : other ∈ entries.map Prod.fst)
    (hlost : other ∉ (Entries.erase key entries).map Prod.fst) : other = key := by
  by_contra hne
  exact hlost ((mem_keys_erase entries).mpr ⟨hm, hne⟩)

-- A key that is moved is still there, and so are the others.
theorem mem_keys_moveToEnd {entries : List (String × α)} (hm : other ∈ entries.map Prod.fst)
    (key : String) (value : α) : other ∈ (moveToEnd key value entries).map Prod.fst := by
  rw [moveToEnd, List.map_append, List.mem_append, mem_keys_erase]
  by_cases ho : other = key
  · exact Or.inr (by simp [ho])
  · exact Or.inl ⟨hm, ho⟩

theorem length_erase_lt {entries : List (String × α)} (hm : key ∈ entries.map Prod.fst) :
    (Entries.erase key entries).length < entries.length := by
  obtain ⟨entry, hentry, rfl⟩ := List.mem_map.mp hm
  exact List.length_filter_lt_length_iff_exists.mpr ⟨entry, hentry, by simp⟩

theorem isFull_iff (hb : s.bound? = some bound) : s.isFull = true ↔ bound ≤ s.size := by
  simp [isFull, hb]

-- A shelf never grows beyond its bound.
theorem size_write_le (hb : s.bound? = some bound) (hle : s.size ≤ bound) :
    (s.write key value).size ≤ bound := by
  unfold size at hle ⊢
  rw [write_entries]
  split
  · rename_i hc
    have hlt := length_erase_lt (contains_iff.mp hc)
    rw [moveToEnd, List.length_append, List.length_singleton]
    omega
  · unfold offer
    split
    · cases hentries : s.entries with
      | nil => simp
      | cons oldest entries =>
          rw [hentries, List.length_cons] at hle
          dsimp only
          split
          · rw [List.length_append, List.length_singleton]
            exact hle
          · exact hle
    · rename_i hfull
      have hlt : ¬ bound ≤ s.size := by rwa [← isFull_iff hb]
      unfold size at hlt
      rw [List.length_append, List.length_singleton]
      omega

-- A write costs a key its place only if it is another key that was not there, the shelf is full,
-- and the first key in line has been read less often. Only this one goes.
theorem lost_write (hm : other ∈ s.entries.map Prod.fst)
    (hlost : other ∉ (s.write key value).entries.map Prod.fst) :
    key ∉ s.entries.map Prod.fst ∧ s.isFull = true ∧
      s.frequency other < s.frequency key ∧
      ∃ old entries, s.entries = (other, old) :: entries ∧
        (s.write key value).entries = entries ++ [(key, value)] := by
  rw [write_entries] at hlost ⊢
  split at hlost
  · exact absurd (mem_keys_moveToEnd hm key value) hlost
  · rename_i hc
    rw [if_neg hc]
    refine ⟨fun hkey => hc (contains_iff.mpr hkey), ?_⟩
    unfold offer at hlost ⊢
    split at hlost
    · rename_i hfull
      rw [if_pos hfull]
      cases hentries : s.entries with
      | nil =>
          rw [hentries] at hm
          cases hm
      | cons oldest entries =>
          rw [hentries] at hm hlost
          dsimp only at hlost ⊢
          split at hlost
          · rename_i hrarer
            have hfirst : other = oldest.1 := by
              rcases List.mem_cons.mp hm with hfirst | hrest
              · exact hfirst
              · refine absurd ?_ hlost
                rw [List.map_append]
                exact List.mem_append_left _ hrest
            rw [if_pos hrarer, hfirst]
            exact ⟨hfull, hrarer, oldest.2, entries, rfl, rfl⟩
          · exact absurd hm hlost
    · refine absurd ?_ hlost
      rw [List.map_append]
      exact List.mem_append_left _ hm

end Shelf

namespace Partition

open History

variable {p p' : Partition} {h : History} {now : Time} {request : Request} {answer : Answer}

def keys (p : Partition) : List String := p.shelf.entries.map Prod.fst

-- What a read answers about the entry that it finds.
def answerTo (p : Partition) : Option StoredEntry → Answer
  | none => .ok none
  | some entry => (p.collection.type.decode entry.bytes).map some

-- A request that is about none of the partition's keys, or a write that is refused.
def Idle (p : Partition) (request : Request) (answer : Answer) : Prop :=
  (∀ key, request.key? ≠ some (p.collection.entry key)) ∨
    ∃ key value e, request = .set (p.collection.entry key) value ∧ answer = .error e

-- What a call makes of a partition that stays.
inductive Step (p : Partition) (now : Time) : Request → Answer → Partition → Prop
  | wrote (key : String) {value : Value} {bytes : Bytes}
      (encodes : p.collection.type.encode value = .ok bytes) :
      Step p now (.set (p.collection.entry key) value) (.ok none)
        { p with shelf := p.shelf.write key ⟨bytes, now⟩ }
  | read (key : String) :
      Step p now (.get (p.collection.entry key)) (p.answerTo (p.read now key).1) (p.read now key).2
  | erased (key : String) :
      Step p now (.del (p.collection.entry key)) (.ok none)
        { p with shelf := p.shelf.erase key }
  | kept {request : Request} {answer : Answer} (idle : p.Idle request answer) :
      Step p now request answer p

theorem Step.collection (hs : p.Step now request answer p') : p'.collection = p.collection := by
  cases hs with
  | wrote key encodes => rfl
  | read key => exact read_collection
  | erased key => rfl
  | kept idle => rfl

theorem Idle.not_uses (hi : p.Idle request answer) (key : String) :
    ¬ (⟨now, request, answer⟩ : Exchange).Uses (p.collection.entry key) := by
  intro hu
  rcases hi with hother | ⟨k, value, e, rfl, rfl⟩
  · exact hother key hu.key?
  · rcases hu with ⟨value', -, hans⟩ | ⟨value', hreq, -⟩
    · cases hans
    · cases hreq

-- What a read leaves: the entries as they were, or without the one that it found expired, or with
-- the one that it found at the end.
theorem read_entries (p : Partition) (now : Time) (key : String) :
    (p.read now key).2.shelf.entries = p.shelf.entries ∧ (p.read now key).1 = none ∨
    (p.read now key).2.shelf.entries = Entries.erase key p.shelf.entries ∧
      (p.read now key).1 = none ∧
      (∃ entry, p.shelf.entries.lookup key = some entry ∧ p.isExpired now entry = true) ∨
    ∃ entry, (p.read now key).2.shelf.entries = Shelf.moveToEnd key entry p.shelf.entries ∧
      (p.read now key).1 = some entry ∧ p.shelf.entries.lookup key = some entry := by
  rw [read_eq]
  cases hl : p.shelf.entries.lookup key with
  | none =>
      left
      refine ⟨?_, rfl⟩
      simp only [Shelf.read, Shelf.countRead_entries, hl]
  | some entry =>
      right
      have hmoved : (p.shelf.read key).2.entries = Shelf.moveToEnd key entry p.shelf.entries := by
        simp only [Shelf.read, Shelf.countRead_entries, hl]
      dsimp only
      split
      · rename_i hexpired
        left
        refine ⟨?_, rfl, entry, rfl, hexpired⟩
        show Entries.erase key (p.shelf.read key).2.entries = _
        rw [hmoved, Shelf.moveToEnd, Entries.erase, List.filter_append]
        simp [Entries.erase]
      · exact Or.inr ⟨entry, hmoved, rfl, rfl⟩

-- The partition keeps to its bound, and its entries stand in the order of their last use.
structure Ranks (p : Partition) (h : History) : Prop where
  fits : ∀ bound, p.shelf.bound? = some bound → p.shelf.size ≤ bound
  order : p.shelf.entries.Pairwise fun a b =>
    h.UsedSince (p.collection.entry a.1) (p.collection.entry b.1)

theorem ranks_new (c : Collection) (h : History) : (new c).Ranks h :=
  ⟨fun _ _ => Nat.zero_le _, List.Pairwise.nil⟩

-- Entries that are not used keep their order,
theorem Ranks.order_of_idle (hr : p.Ranks h) {x : Exchange}
    {kept : List (String × StoredEntry)} (hsub : kept.Sublist p.shelf.entries)
    (hx : ∀ key ∈ kept.map Prod.fst, ¬ x.Uses (p.collection.entry key)) :
    kept.Pairwise fun a b =>
      (h ++ [x]).UsedSince (p.collection.entry a.1) (p.collection.entry b.1) := by
  refine (hr.order.sublist hsub).imp_of_mem ?_
  intro a b ha _ hu
  exact hu.concat (hx a.1 (List.mem_map_of_mem ha))

-- and one that is used goes to the end.
theorem Ranks.order_of_used (hr : p.Ranks h) {x : Exchange} {key : String} (entry : StoredEntry)
    {kept : List (String × StoredEntry)} (hsub : kept.Sublist p.shelf.entries)
    (hkey : key ∉ kept.map Prod.fst) (hx : x.Uses (p.collection.entry key)) :
    (kept ++ [(key, entry)]).Pairwise fun a b =>
      (h ++ [x]).UsedSince (p.collection.entry a.1) (p.collection.entry b.1) := by
  have hother : ∀ other ∈ kept.map Prod.fst, ¬ x.Uses (p.collection.entry other) := by
    intro other hm hu
    have heq := Option.some.inj (hx.key?.symm.trans hu.key?)
    exact hkey ((EntryKey.mk.inj heq).2 ▸ hm)
  rw [List.pairwise_append]
  refine ⟨hr.order_of_idle hsub hother, List.pairwise_singleton _ _, ?_⟩
  intro a ha b hb
  rw [List.mem_singleton.mp hb]
  exact usedSince_of_uses hx (hother a.1 (List.mem_map_of_mem ha))

theorem Ranks.wrote (hr : p.Ranks h) (now : Time) (key : String) (value : Value) (bytes : Bytes) :
    Partition.Ranks { p with shelf := p.shelf.write key ⟨bytes, now⟩ }
      (h ++ [⟨now, .set (p.collection.entry key) value, .ok none⟩]) := by
  have hu : (⟨now, .set (p.collection.entry key) value, .ok none⟩ : Exchange).Uses
      (p.collection.entry key) := Or.inl ⟨value, rfl, rfl⟩
  refine ⟨fun bound hb => Shelf.size_write_le hb (hr.fits bound hb), ?_⟩
  obtain ⟨kept, hsub, hkey, hshape⟩ := Shelf.write_shape p.shelf key ⟨bytes, now⟩
  have hused := hr.order_of_used ⟨bytes, now⟩ hsub hkey hu
  show ((p.shelf.write key ⟨bytes, now⟩).entries).Pairwise _
  rcases hshape with heq | heq
  · -- the new key was turned away
    rw [heq]
    exact (List.pairwise_append.mp hused).1
  · rw [heq]
    exact hused

theorem Ranks.read (hr : p.Ranks h) (hreflects : p.Reflects h) (now : Time) (key : String) :
    Partition.Ranks (p.read now key).2
      (h ++ [⟨now, .get (p.collection.entry key), p.answerTo (p.read now key).1⟩]) := by
  have hcollection : (p.read now key).2.collection = p.collection := read_collection
  -- a read that finds nothing uses nothing
  have hidle (k : String) :
      ¬ (⟨now, .get (p.collection.entry key), p.answerTo none⟩ : Exchange).Uses
        (p.collection.entry k) := by
    rintro (⟨_, hreq, -⟩ | ⟨_, -, hans⟩)
    · cases hreq
    · cases hans
  rcases read_entries p now key with ⟨heq, hnone⟩ | ⟨heq, hnone, -⟩ | ⟨entry, heq, hsome, hl⟩
  · rw [hnone]
    refine ⟨?_, ?_⟩
    · rw [read_bound?, Shelf.size, heq]
      exact hr.fits
    · rw [hcollection, heq]
      exact hr.order_of_idle (List.Sublist.refl _) fun k _ => hidle k
  · rw [hnone]
    refine ⟨?_, ?_⟩
    · rw [read_bound?, Shelf.size, heq]
      exact fun bound hb => Nat.le_trans (List.length_filter_le _ _) (hr.fits bound hb)
    · rw [hcollection, heq]
      exact hr.order_of_idle List.filter_sublist fun k _ => hidle k
  · obtain ⟨value, hencode, -⟩ := hreflects.kept key entry hl
    have hanswer : p.answerTo (some entry) = .ok (some value) := by
      rw [answerTo, ValueType.decode_of_encode hencode]
      rfl
    have hu : (⟨now, .get (p.collection.entry key), .ok (some value)⟩ : Exchange).Uses
        (p.collection.entry key) := Or.inr ⟨value, rfl, rfl⟩
    rw [hsome, hanswer]
    refine ⟨?_, ?_⟩
    · rw [read_bound?, Shelf.size, heq, Shelf.moveToEnd, List.length_append,
        List.length_singleton]
      have hlt := Shelf.length_erase_lt
        (List.mem_map.mpr ⟨_, Entries.mem_of_lookup hl, rfl⟩)
      exact fun bound hb => Nat.le_trans hlt (hr.fits bound hb)
    · rw [hcollection, heq]
      exact hr.order_of_used entry List.filter_sublist (Shelf.key_not_mem_erase _) hu

theorem Step.ranks (hs : p.Step now request answer p') (hr : p.Ranks h) (hreflects : p.Reflects h) :
    p'.Ranks (h ++ [⟨now, request, answer⟩]) := by
  cases hs with
  | wrote key encodes => exact hr.wrote now key _ _
  | read key => exact hr.read hreflects now key
  | erased key =>
      refine ⟨fun bound hb => ?_, ?_⟩
      · exact Nat.le_trans (List.length_filter_le _ _) (hr.fits bound hb)
      · refine hr.order_of_idle List.filter_sublist ?_
        rintro k - (⟨_, hreq, -⟩ | ⟨_, hreq, -⟩) <;> cases hreq
  | kept idle =>
      exact ⟨hr.fits, hr.order_of_idle (List.Sublist.refl _) fun k _ => idle.not_uses k⟩

end Partition

namespace MemoryCache

variable {s : MemoryCache} {p p' : Partition} {now : Time} {name : String} {request : Request}

-- After a call the partition is there, and the call has made one step of it.
def Steps (s : MemoryCache) (name : String) (p : Partition) (now : Time) (request : Request) :
    Prop :=
  ∃ p', (s.call now request).state.partitions.get name = .ok p' ∧
    p.Step now request (s.call now request).answer p'

theorem get_put_self (hp : s.partitions.get name = .ok p) :
    (s.put name p').partitions.get name = .ok p' := by
  rw [get_put, if_pos rfl, hp]
  rfl

theorem steps_register (hp : s.partitions.get name = .ok p) (now : Time) (c : Collection) :
    s.Steps name p now (.register c) := by
  refine ⟨p, ?_, .kept (Or.inl nofun)⟩
  show (s.register c).state.partitions.get name = _
  unfold register
  cases hi : s.partitions.insert c.name (.new c) with
  | error e => exact hp
  | ok partitions =>
      show partitions.get name = _
      rw [Registry.get_insert hi, if_neg]
      · exact hp
      · rintro rfl
        rw [Registry.get_of_vacant (Registry.insert_eq_ok_iff.mp hi).1] at hp
        cases hp

theorem steps_set (hp : s.partitions.get p.collection.name = .ok p) (now : Time) (key : String)
    (value : Value) :
    s.Steps p.collection.name p now (.set (p.collection.entry key) value) := by
  show ∃ p', (s.set now (p.collection.entry key) value).state.partitions.get _ = .ok p' ∧
    p.Step now _ (s.set now (p.collection.entry key) value).answer p'
  have hp' : s.partitions.get (p.collection.entry key).collection = .ok p := hp
  unfold set
  rw [hp']
  dsimp only
  cases hencode : p.collection.type.encode value with
  | error e => exact ⟨p, hp, .kept (Or.inr ⟨key, value, e, rfl, rfl⟩)⟩
  | ok bytes => exact ⟨_, get_put_self hp, .wrote key hencode⟩

theorem steps_get (hp : s.partitions.get p.collection.name = .ok p) (now : Time) (key : String) :
    s.Steps p.collection.name p now (.get (p.collection.entry key)) := by
  show ∃ p', (s.get now (p.collection.entry key)).state.partitions.get _ = .ok p' ∧
    p.Step now _ (s.get now (p.collection.entry key)).answer p'
  have hp' : s.partitions.get (p.collection.entry key).collection = .ok p := hp
  rw [get_state hp', get_answer hp']
  exact ⟨_, get_put_self hp, .read key⟩

theorem steps_del (hp : s.partitions.get p.collection.name = .ok p) (now : Time) (key : String) :
    s.Steps p.collection.name p now (.del (p.collection.entry key)) := by
  show ∃ p', (s.del (p.collection.entry key)).state.partitions.get _ = .ok p' ∧
    p.Step now _ (s.del (p.collection.entry key)).answer p'
  have hp' : s.partitions.get (p.collection.entry key).collection = .ok p := hp
  unfold del
  rw [hp']
  exact ⟨_, get_put_self hp, .erased key⟩

-- A call for a key of another collection.
theorem steps_other {key : EntryKey} (hp : s.partitions.get p.collection.name = .ok p) (now : Time)
    (hkey : request.key? = some key) (hcollection : request.collection? = some key.collection)
    (hne : key.collection ≠ p.collection.name) : s.Steps p.collection.name p now request := by
  have hconcerns : request.concerns p.collection.name = false := by
    rw [Request.concerns, hcollection]
    exact beq_eq_false_iff_ne.mpr hne
  refine ⟨p, (get_call_other hconcerns now).trans hp, .kept (Or.inl fun k heq => ?_)⟩
  rw [hkey] at heq
  exact hne (congrArg EntryKey.collection (Option.some.inj heq))

-- Until the cache is closed a partition stays, and each call makes one step of it.
theorem call_step (hp : s.partitions.get name = .ok p) (hname : p.collection.name = name)
    (now : Time) (hclose : request ≠ .close) : s.Steps name p now request := by
  subst hname
  cases request with
  | register c => exact steps_register hp now c
  | set key value =>
      by_cases hn : key.collection = p.collection.name
      · obtain ⟨collection, key⟩ := key
        obtain rfl : collection = p.collection.name := hn
        exact steps_set hp now key value
      · exact steps_other hp now rfl rfl hn
  | get key =>
      by_cases hn : key.collection = p.collection.name
      · obtain ⟨collection, key⟩ := key
        obtain rfl : collection = p.collection.name := hn
        exact steps_get hp now key
      · exact steps_other hp now rfl rfl hn
  | del key =>
      by_cases hn : key.collection = p.collection.name
      · obtain ⟨collection, key⟩ := key
        obtain rfl : collection = p.collection.name := hn
        exact steps_del hp now key
      · exact steps_other hp now rfl rfl hn
  | close => exact absurd rfl hclose

-- Where there was no partition there is one only for a collection that has just been registered.
theorem call_new {e : Error} (hnone : s.partitions.get name = .error e)
    (hp' : (s.call now request).state.partitions.get name = .ok p') :
    p' = .new p'.collection ∧ p'.collection.name = name := by
  cases request with
  | register c =>
      replace hp' : (s.register c).state.partitions.get name = .ok p' := hp'
      unfold register at hp'
      cases hi : s.partitions.insert c.name (.new c) with
      | error e' =>
          rw [hi] at hp'
          rw [show s.partitions.get name = .ok p' from hp'] at hnone
          cases hnone
      | ok partitions =>
          rw [hi] at hp'
          replace hp' : partitions.get name = .ok p' := hp'
          rw [Registry.get_insert hi] at hp'
          split at hp'
          · rename_i hn
            cases hp'
            exact ⟨rfl, hn.symm⟩
          · rw [hp'] at hnone
            cases hnone
  | close => cases hp'
  | _ =>
      rcases call_partition hp' with ⟨p, hp, -⟩ | ⟨hreq, -⟩
      · rw [hp] at hnone
        cases hnone
      · cases hreq

end MemoryCache

end PolyCache
