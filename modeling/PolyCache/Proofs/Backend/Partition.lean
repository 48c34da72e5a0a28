import PolyCache.Backend.Memory
import PolyCache.Proofs.Backend.Shelf
import PolyCache.Proofs.Codec
import PolyCache.Proofs.History

-- What a partition holds, told from the history of its collection alone.
namespace PolyCache.Partition

open History

variable {p : Partition} {h : History} {x : Exchange} {now : Time} {key other : String}
  {entry : StoredEntry} {value : Value} {bytes : Bytes} {answer : Answer}

theorem read_eq (p : Partition) (now : Time) (key : String) :
    p.read now key =
      match p.shelf.entries.lookup key with
      | none => (none, { p with shelf := (p.shelf.read key).2 })
      | some entry =>
        if p.isExpired now entry then
          (none, { p with shelf := (p.shelf.read key).2.erase key })
        else (some entry, { p with shelf := (p.shelf.read key).2 }) := by
  rw [← Shelf.read_value, read]
  generalize p.shelf.read key = found
  obtain ⟨_ | entry, shelf⟩ := found <;> rfl

@[simp] theorem read_collection : (p.read now key).2.collection = p.collection := by
  rw [read_eq]
  split
  · rfl
  · split <;> rfl

@[simp] theorem read_bound? : (p.read now key).2.shelf.bound? = p.shelf.bound? := by
  rw [read_eq]
  split
  · exact Shelf.read_bound?
  · split <;> exact Shelf.read_bound?

theorem distinct_read (hd : Entries.Distinct p.shelf.entries) :
    Entries.Distinct (p.read now key).2.shelf.entries := by
  rw [read_eq]
  split
  · exact Shelf.distinct_read hd
  · split
    · exact Shelf.distinct_erase (Shelf.distinct_read hd)
    · exact Shelf.distinct_read hd

theorem read_eq_some_iff :
    (p.read now key).1 = some entry ↔
      p.shelf.entries.lookup key = some entry ∧ p.isExpired now entry = false := by
  rw [read_eq]
  cases p.shelf.entries.lookup key with
  | none => simp
  | some found =>
      by_cases he : p.isExpired now found = true
      · simp only [he, if_true, Option.some.injEq]
        constructor
        · intro hnone
          cases hnone
        · rintro ⟨rfl, hlive⟩
          rw [he] at hlive
          cases hlive
      · simp only [he, Bool.false_eq_true, if_false, Option.some.injEq]
        constructor
        · rintro rfl
          exact ⟨rfl, Bool.eq_false_iff.mpr he⟩
        · exact And.left

-- A read takes away the entry that it finds expired, and nothing else.
theorem lookup_read :
    (p.read now key).2.shelf.entries.lookup other = some entry ↔
      p.shelf.entries.lookup other = some entry ∧
        (other = key → p.isExpired now entry = false) := by
  rw [read_eq]
  cases hkey : p.shelf.entries.lookup key with
  | none =>
      simp only [Shelf.lookup_read, iff_self_and]
      rintro hother rfl
      rw [hkey] at hother
      cases hother
  | some found =>
      by_cases he : p.isExpired now found = true
      · simp only [he, if_true, Shelf.lookup_shelf_erase, Shelf.lookup_read]
        by_cases ho : other = key
        · subst ho
          simp only [if_true, hkey, Option.some.injEq, forall_const]
          constructor
          · intro hnone
            cases hnone
          · rintro ⟨rfl, hlive⟩
            rw [he] at hlive
            cases hlive
        · simp only [ho, if_false, false_implies, and_true]
      · simp only [he, Bool.false_eq_true, if_false, Shelf.lookup_read, iff_self_and]
        rintro hother rfl
        rw [hkey] at hother
        cases hother
        exact Bool.eq_false_iff.mpr he

-- What is found is what is there afterwards.
theorem lookup_read_self :
    (p.read now key).2.shelf.entries.lookup key = (p.read now key).1 := by
  ext entry
  rw [lookup_read, read_eq_some_iff]
  simp

theorem lookup_read_of_ne (hne : other ≠ key) :
    (p.read now key).2.shelf.entries.lookup other = p.shelf.entries.lookup other := by
  ext entry
  rw [lookup_read]
  simp [hne]

-- A read that finds nothing expired takes nothing away.
theorem lookup_read_of_live
    (h : ∀ entry, p.shelf.entries.lookup key = some entry → p.isExpired now entry = false)
    (other : String) :
    (p.read now key).2.shelf.entries.lookup other = p.shelf.entries.lookup other := by
  ext entry
  rw [lookup_read]
  constructor
  · exact And.left
  · intro hl
    refine ⟨hl, ?_⟩
    rintro rfl
    exact h entry hl

theorem read_eq_none_iff :
    (p.read now key).1 = none ↔
      ∀ entry, p.shelf.entries.lookup key = some entry → p.isExpired now entry = true := by
  simp only [Option.eq_none_iff_forall_ne_some, ne_eq, read_eq_some_iff, not_and,
    Bool.not_eq_false]

theorem isExpired_eq_false_iff :
    p.isExpired now entry = false ↔
      ¬ p.collection.effectiveTtl.nanoseconds ≤ now - entry.storedAt := by
  simp [isExpired]

-- Each entry is the encoded value of the write that still counts, and with room for all keys every
-- such write has its entry.
structure Reflects (p : Partition) (h : History) : Prop where
  distinct : Entries.Distinct p.shelf.entries
  bound : p.shelf.bound? = p.collection.bound?
  kept : ∀ key entry, p.shelf.entries.lookup key = some entry →
    ∃ value, p.collection.type.encode value = .ok entry.bytes ∧
      h.Kept (p.collection.entry key) p.collection.effectiveTtl value entry.storedAt
  found : h.HasRoom p.collection → ∀ key value writtenAt,
    h.Kept (p.collection.entry key) p.collection.effectiveTtl value writtenAt →
    ∃ bytes, p.collection.type.encode value = .ok bytes ∧
      p.shelf.entries.lookup key = some ⟨bytes, writtenAt⟩

theorem Reflects.idle (hr : p.Reflects h)
    (hx : ∀ key writtenAt,
      ¬ x.Ends (p.collection.entry key) p.collection.effectiveTtl writtenAt) :
    p.Reflects (h ++ [x]) where
  distinct := hr.distinct
  bound := hr.bound
  kept key entry hl := by
    obtain ⟨value, hencode, hk⟩ := hr.kept key entry hl
    exact ⟨value, hencode, (kept_concat_of_idle (hx _ _)).mpr hk⟩
  found hroom key value writtenAt hk :=
    hr.found hroom.of_concat key value writtenAt ((kept_concat_of_idle (hx _ _)).mp hk)

-- With room for all keys a new one does not meet a full shelf: the keys that stand there and the
-- new one have all been written.
theorem Reflects.hasPlace (hr : p.Reflects h) (hroom : HasRoom (h ++ [x]) p.collection)
    (hx : x.writtenKey? p.collection.name = some key) :
    p.shelf.contains key = true ∨ p.shelf.isFull = false := by
  by_cases hc : p.shelf.contains key = true
  · exact Or.inl hc
  right
  rw [Shelf.isFull_eq_false_iff]
  intro bound hbound
  rw [hr.bound, Collection.bound?] at hbound
  split at hbound
  · cases hbound
  rename_i hmax
  -- the new key and those on the shelf are different, and all of them have been written
  have hkeys : (key :: p.shelf.entries.map Prod.fst).Nodup :=
    List.nodup_cons.mpr ⟨Shelf.key_not_mem_of_not_contains hc, hr.distinct⟩
  have hwritten : ∀ k ∈ key :: p.shelf.entries.map Prod.fst,
      k ∈ (h ++ [x]).writtenKeys p.collection.name := by
    intro k hk
    rcases List.mem_cons.mp hk with rfl | hk
    · exact mem_writtenKeys.mpr ⟨x, by simp, hx⟩
    · obtain ⟨⟨_, entry⟩, hentry, rfl⟩ := List.mem_map.mp hk
      obtain ⟨value, -, hkept⟩ := hr.kept _ entry (hr.distinct.lookup_of_mem hentry)
      obtain ⟨y, hy, hkey⟩ := mem_writtenKeys.mp hkept.mem_writtenKeys
      exact mem_writtenKeys.mpr ⟨y, List.mem_append_left _ hy, hkey⟩
  have hle := length_le_writtenKeys hkeys hwritten
  have hlimit := hroom.resolve_left hmax
  have heq : p.collection.maxItems = bound := Option.some.inj hbound
  simp only [List.length_cons, List.length_map] at hle
  unfold Shelf.size
  omega

theorem Reflects.write (hr : p.Reflects h) (now : Time) (key : String)
    (hencode : p.collection.type.encode value = .ok bytes) :
    ({ p with shelf := p.shelf.write key ⟨bytes, now⟩ } : Partition).Reflects
      (h ++ [⟨now, .set (p.collection.entry key) value, .ok none⟩]) where
  distinct := Shelf.distinct_write hr.distinct
  bound := hr.bound
  kept other entry hl := by
    rcases Shelf.lookup_write_some hr.distinct hl with ⟨rfl, rfl⟩ | ⟨hne, hold⟩
    · exact ⟨value, hencode, kept_concat.mpr (Or.inl rfl)⟩
    · obtain ⟨old, hold, hk⟩ := hr.kept other entry hold
      exact ⟨old, hold, (kept_concat_of_idle (not_ends_of_ne rfl hne)).mpr hk⟩
  found hroom other old writtenAt hk := by
    have hplace : p.shelf.contains key = true ∨ p.shelf.isFull = false :=
      hr.hasPlace hroom (if_pos rfl)
    simp only [Shelf.lookup_write hplace]
    rcases kept_concat.mp hk with heq | ⟨hk, hends⟩
    · simp only [Exchange.mk.injEq, Request.set.injEq, Collection.entry, EntryKey.mk.injEq] at heq
      obtain ⟨rfl, ⟨⟨-, rfl⟩, rfl⟩, -⟩ := heq
      exact ⟨bytes, hencode, if_pos rfl⟩
    · have hne : other ≠ key := by
        rintro rfl
        exact hends (Or.inl ⟨value, rfl, rfl⟩)
      rw [if_neg hne]
      exact hr.found hroom.of_concat other old writtenAt hk

theorem Reflects.read (hr : p.Reflects h) (now : Time) (key : String) (answer : Answer) :
    (p.read now key).2.Reflects (h ++ [⟨now, .get (p.collection.entry key), answer⟩]) where
  distinct := distinct_read hr.distinct
  bound := by
    rw [read_bound?, read_collection]
    exact hr.bound
  kept other entry hl := by
    rw [read_collection]
    obtain ⟨hl, hlive⟩ := lookup_read.mp hl
    obtain ⟨value, hencode, hk⟩ := hr.kept other entry hl
    refine ⟨value, hencode, (kept_concat_of_idle ?_).mpr hk⟩
    rintro (⟨_, hreq, -⟩ | hreq | ⟨hreq, hold⟩)
    · cases hreq
    · cases hreq
    · have heq : other = key := (EntryKey.mk.inj (Request.get.inj hreq)).2.symm
      exact isExpired_eq_false_iff.mp (hlive heq) hold
  found hroom other value writtenAt hk := by
    rw [read_collection] at hroom hk ⊢
    rcases kept_concat.mp hk with heq | ⟨hk, hends⟩
    · cases heq
    obtain ⟨bytes, hencode, hl⟩ := hr.found hroom.of_concat other value writtenAt hk
    refine ⟨bytes, hencode, lookup_read.mpr ⟨hl, ?_⟩⟩
    rintro rfl
    rw [isExpired_eq_false_iff]
    exact fun hold => hends (Or.inr (Or.inr ⟨rfl, hold⟩))

theorem Reflects.erase (hr : p.Reflects h) (now : Time) (key : String) (answer : Answer) :
    ({ p with shelf := p.shelf.erase key } : Partition).Reflects
      (h ++ [⟨now, .del (p.collection.entry key), answer⟩]) where
  distinct := Shelf.distinct_erase hr.distinct
  bound := hr.bound
  kept other entry hl := by
    have hne : other ≠ key := by
      rintro rfl
      simp at hl
    simp only [Shelf.lookup_shelf_erase, if_neg hne] at hl
    obtain ⟨value, hencode, hk⟩ := hr.kept other entry hl
    exact ⟨value, hencode, (kept_concat_of_idle (not_ends_of_ne rfl hne)).mpr hk⟩
  found hroom other value writtenAt hk := by
    rcases kept_concat.mp hk with heq | ⟨hk, hends⟩
    · cases heq
    have hne : other ≠ key := by
      rintro rfl
      exact hends (Or.inr (Or.inl rfl))
    simp only [Shelf.lookup_shelf_erase, if_neg hne]
    exact hr.found hroom.of_concat other value writtenAt hk

theorem reflects_new (c : Collection)
    (hnone : ∀ x ∈ h, ∀ key value, x.Writes key value → key.collection ≠ c.name) :
    (Partition.new c).Reflects h where
  distinct := Entries.distinct_nil
  bound := rfl
  kept key entry hl := by simp [Partition.new, Shelf.empty] at hl
  found _ key value writtenAt hk := by
    obtain ⟨x, hx, hwrites, -⟩ := hk.written
    exact absurd rfl (hnone x hx _ _ hwrites)

end PolyCache.Partition
