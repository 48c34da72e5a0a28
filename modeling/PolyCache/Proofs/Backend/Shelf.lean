import PolyCache.Backend.Shelf
import PolyCache.Proofs.Entries

-- What stands on a shelf after it has been used. Within its bound a shelf is a table; beyond it a
-- write may displace one key or be turned away, but never makes anything up.
namespace PolyCache.Shelf

open Entries

variable {α : Type} {s : Shelf α} {key other : String} {value found : α}

@[simp] theorem countRead_entries : (s.countRead key).entries = s.entries := by
  unfold countRead
  split <;> rfl

@[simp] theorem countRead_bound? : (s.countRead key).bound? = s.bound? := by
  unfold countRead
  split <;> rfl

@[simp] theorem read_value : (s.read key).1 = s.entries.lookup key := by
  simp only [read, countRead_entries]
  cases s.entries.lookup key <;> rfl

@[simp] theorem read_bound? : (s.read key).2.bound? = s.bound? := by
  simp only [read, countRead_entries]
  cases s.entries.lookup key <;> exact countRead_bound?

theorem write_entries :
    (s.write key value).entries =
      if s.contains key then moveToEnd key value s.entries else s.offer key value := rfl

theorem lookup_moveToEnd (entries : List (String × α)) :
    (moveToEnd key value entries).lookup other =
      if other = key then some value else entries.lookup other := by
  rw [moveToEnd, List.lookup_append, lookup_erase, lookup_cons]
  by_cases ho : other = key
  · simp [ho]
  · simp [ho]

theorem key_not_mem_erase (entries : List (String × α)) :
    key ∉ (Entries.erase key entries).map Prod.fst := by
  rw [← lookup_eq_none_iff, lookup_erase, if_pos (beq_self_eq_true key)]

theorem distinct_erase (hd : Distinct s.entries) : Distinct (s.erase key).entries := hd.filter _

theorem distinct_read (hd : Distinct s.entries) : Distinct (s.read key).2.entries := by
  simp only [read, countRead_entries]
  cases s.entries.lookup key with
  | none => simpa using hd
  | some found => exact distinct_concat (distinct_erase hd) (key_not_mem_erase _)

theorem key_not_mem_of_not_contains (hc : ¬ s.contains key = true) :
    key ∉ s.entries.map Prod.fst :=
  lookup_eq_none_iff.mp (contains_eq_false_iff.mp (Bool.eq_false_iff.mpr hc))

-- A new key takes the last place or is turned away. The others stay, but for the oldest.
theorem offer_shape (s : Shelf α) (key : String) (value : α) :
    ∃ kept, kept.Sublist s.entries ∧
      (s.offer key value = kept ∨ s.offer key value = kept ++ [(key, value)]) := by
  unfold offer
  split
  · cases s.entries with
    | nil => exact ⟨[], List.Sublist.refl _, Or.inl rfl⟩
    | cons oldest entries =>
        dsimp only
        split
        · exact ⟨entries, List.sublist_cons_self _ _, Or.inr rfl⟩
        · exact ⟨oldest :: entries, List.Sublist.refl _, Or.inl rfl⟩
  · exact ⟨s.entries, List.Sublist.refl _, Or.inr rfl⟩

theorem write_shape (s : Shelf α) (key : String) (value : α) :
    ∃ kept, kept.Sublist s.entries ∧ key ∉ kept.map Prod.fst ∧
      ((s.write key value).entries = kept ∨
        (s.write key value).entries = kept ++ [(key, value)]) := by
  rw [write_entries]
  split
  · exact ⟨_, List.filter_sublist, key_not_mem_erase s.entries, Or.inr rfl⟩
  · rename_i hc
    obtain ⟨kept, hsub, hshape⟩ := offer_shape s key value
    have hkey : key ∉ kept.map Prod.fst := fun hm =>
      key_not_mem_of_not_contains hc ((hsub.map Prod.fst).subset hm)
    exact ⟨kept, hsub, hkey, hshape⟩

theorem distinct_write (hd : Distinct s.entries) : Distinct (s.write key value).entries := by
  obtain ⟨kept, hsub, hkey, hshape⟩ := write_shape s key value
  have hkept : Distinct kept := hd.sublist (hsub.map Prod.fst)
  rcases hshape with heq | heq <;> rw [heq]
  · exact hkept
  · exact distinct_concat hkept hkey

-- A read changes the order of use only.
@[simp] theorem lookup_read : (s.read key).2.entries.lookup other = s.entries.lookup other := by
  simp only [read, countRead_entries]
  cases hkey : s.entries.lookup key with
  | none => rw [countRead_entries]
  | some found =>
      simp only [lookup_moveToEnd]
      by_cases ho : other = key
      · simp [ho, hkey]
      · simp [ho]

@[simp] theorem lookup_shelf_erase :
    (s.erase key).entries.lookup other = if other = key then none else s.entries.lookup other := by
  simp only [erase, lookup_erase, beq_iff_eq]

-- With room left, a write is heard.
theorem lookup_write (hroom : s.contains key = true ∨ s.isFull = false) :
    (s.write key value).entries.lookup other =
      if other = key then some value else s.entries.lookup other := by
  rw [write_entries]
  split
  · exact lookup_moveToEnd _
  · rename_i hc
    have hfull : s.isFull = false := hroom.resolve_left hc
    have hnone := lookup_eq_none_iff.mpr (key_not_mem_of_not_contains hc)
    rw [offer, hfull, if_neg Bool.false_ne_true, List.lookup_append, lookup_cons]
    by_cases ho : other = key
    · simp [ho, hnone]
    · simp [ho]

-- Room or not, what is found is what was written, or was there before.
theorem lookup_write_some (hd : Distinct s.entries)
    (h : (s.write key value).entries.lookup other = some found) :
    other = key ∧ found = value ∨ other ≠ key ∧ s.entries.lookup other = some found := by
  obtain ⟨kept, hsub, hkey, hshape⟩ := write_shape s key value
  have hold : (other, found) ∈ kept →
      other ≠ key ∧ s.entries.lookup other = some found := fun hm => by
    refine ⟨?_, hd.lookup_of_mem (hsub.subset hm)⟩
    rintro rfl
    exact hkey (List.mem_map.mpr ⟨_, hm, rfl⟩)
  have hm := mem_of_lookup h
  rcases hshape with heq | heq <;> rw [heq] at hm
  · exact Or.inr (hold hm)
  · rcases List.mem_append.mp hm with hm | hm
    · exact Or.inr (hold hm)
    · exact Or.inl (Prod.mk.inj (List.mem_singleton.mp hm))

theorem isFull_eq_false_iff :
    s.isFull = false ↔ ∀ bound, s.bound? = some bound → s.size < bound := by
  unfold isFull
  cases s.bound? <;> simp

end PolyCache.Shelf
