import Mathlib.Data.String.Basic
import PolyCache.Entries

-- What is found in a table after each change, and that every change keeps the keys in order.
namespace PolyCache.Entries

variable {κ ν : Type}

-- An order in which each key comes before or after each other one.
structure IsOrder (less : κ → κ → Bool) : Prop where
  irrefl : ∀ k, less k k = false
  trans : ∀ j k l, less j k = true → less k l = true → less j l = true
  total : ∀ j k, less j k = false → less k j = false → j = k

theorem stringLess_isOrder : IsOrder stringLess where
  irrefl := by simp [stringLess]
  trans := by
    intro j k l hj hk
    simp only [stringLess, decide_eq_true_eq] at *
    exact lt_trans hj hk
  total := by
    intro j k hj hk
    simp only [stringLess, decide_eq_false_iff_not, not_lt] at *
    exact le_antisymm hk hj

theorem intLess_isOrder : IsOrder intLess where
  irrefl := by simp [intLess]
  trans := by
    intro j k l hj hk
    simp only [intLess, decide_eq_true_eq] at *
    exact lt_trans hj hk
  total := by
    intro j k hj hk
    simp only [intLess, decide_eq_false_iff_not, not_lt] at *
    exact le_antisymm hk hj

-- Keys can be compared by something that tells them apart.
theorem IsOrder.comap {ι : Type} {less : κ → κ → Bool} (ho : IsOrder less) {f : ι → κ}
    (hf : Function.Injective f) : IsOrder fun i j => less (f i) (f j) where
  irrefl i := ho.irrefl (f i)
  trans i j k := ho.trans (f i) (f j) (f k)
  total i j hi hj := hf (ho.total (f i) (f j) hi hj)

-- The keys ascend, so none stands twice.
def Sorted (less : κ → κ → Bool) (entries : List (κ × ν)) : Prop :=
  entries.Pairwise fun a b => less a.1 b.1 = true

def Distinct (entries : List (κ × ν)) : Prop := (entries.map Prod.fst).Nodup

@[simp] theorem sorted_nil (less : κ → κ → Bool) : Sorted less ([] : List (κ × ν)) :=
  List.Pairwise.nil

@[simp] theorem distinct_nil : Distinct ([] : List (κ × ν)) := List.nodup_nil

theorem Sorted.distinct {less : κ → κ → Bool} (ho : IsOrder less) {entries : List (κ × ν)}
    (hs : Sorted less entries) : Distinct entries := by
  unfold Distinct List.Nodup
  rw [List.pairwise_map]
  apply List.Pairwise.imp _ hs
  intro a b hab heq
  rw [heq, ho.irrefl] at hab
  exact Bool.noConfusion hab

theorem Sorted.filter {less : κ → κ → Bool} {entries : List (κ × ν)} (hs : Sorted less entries)
    (keep : κ × ν → Bool) : Sorted less (entries.filter keep) :=
  List.Pairwise.filter keep hs

theorem Distinct.filter {entries : List (κ × ν)} (hd : Distinct entries)
    (keep : κ × ν → Bool) : Distinct (entries.filter keep) :=
  hd.sublist (List.Sublist.map Prod.fst List.filter_sublist)

theorem distinct_concat {entries : List (κ × ν)} {key : κ} {value : ν} (hd : Distinct entries)
    (hkey : key ∉ entries.map Prod.fst) : Distinct (entries ++ [(key, value)]) := by
  unfold Distinct
  rw [List.map_append, List.nodup_append]
  refine ⟨hd, by simp, ?_⟩
  rintro other hother last hlast rfl
  rw [List.mem_singleton.mp hlast] at hother
  exact hkey hother

theorem mem_insert {less : κ → κ → Bool} {key : κ} {value : ν} {entries : List (κ × ν)}
    {entry : κ × ν} (hm : entry ∈ insert less key value entries) :
    entry = (key, value) ∨ entry ∈ entries := by
  fun_induction insert less key value entries with
  | case1 => exact Or.inl (List.mem_singleton.mp hm)
  | case2 k v entries hless => exact List.mem_cons.mp hm
  | case3 k v entries hless hmore ih =>
      rcases List.mem_cons.mp hm with rfl | htail
      · exact Or.inr List.mem_cons_self
      · exact (ih htail).imp_right (List.mem_cons_of_mem _)
  | case4 k v entries hless hmore =>
      rcases List.mem_cons.mp hm with rfl | htail
      · exact Or.inl rfl
      · exact Or.inr (List.mem_cons_of_mem _ htail)

theorem Sorted.insert {less : κ → κ → Bool} (ho : IsOrder less) {entries : List (κ × ν)}
    (hs : Sorted less entries) (key : κ) (value : ν) :
    Sorted less (Entries.insert less key value entries) := by
  fun_induction Entries.insert less key value entries with
  | case1 => exact List.pairwise_singleton _ _
  | case2 k v entries hless =>
      apply List.pairwise_cons.mpr ⟨_, hs⟩
      intro entry hm
      rcases List.mem_cons.mp hm with rfl | htail
      · exact hless
      · exact ho.trans _ _ _ hless ((List.pairwise_cons.mp hs).1 entry htail)
  | case3 k v entries hless hmore ih =>
      obtain ⟨hhead, htail⟩ := List.pairwise_cons.mp hs
      apply List.pairwise_cons.mpr ⟨_, ih htail⟩
      intro entry hm
      rcases mem_insert hm with rfl | hold
      · exact hmore
      · exact hhead entry hold
  | case4 k v entries hless hmore =>
      have heq : key = k := ho.total _ _ (by simpa using hless) (by simpa using hmore)
      subst heq
      exact List.pairwise_cons.mpr (List.pairwise_cons.mp hs)

-- A key that has no value yet gets one, and all else stays.
theorem perm_insert {less : κ → κ → Bool} (ho : IsOrder less) {key : κ} {entries : List (κ × ν)}
    (hnew : key ∉ entries.map Prod.fst) (value : ν) :
    (insert less key value entries).Perm (entries ++ [(key, value)]) := by
  refine List.Perm.trans ?_ List.perm_append_comm
  fun_induction insert less key value entries with
  | case1 => exact List.Perm.refl _
  | case2 k v entries hless => exact List.Perm.refl _
  | case3 k v entries hless hmore ih =>
      have hrest := ih fun hm => hnew (List.mem_cons_of_mem _ hm)
      exact (hrest.cons (k, v)).trans (List.Perm.swap _ _ _)
  | case4 k v entries hless hmore =>
      have heq : key = k := ho.total _ _ (by simpa using hless) (by simpa using hmore)
      exact absurd (heq ▸ List.mem_cons_self) hnew

-- A key that comes after all others goes to the end.
theorem insert_of_forall_less {less : κ → κ → Bool} (ho : IsOrder less) {entries : List (κ × ν)}
    {key : κ} (h : ∀ entry ∈ entries, less entry.1 key = true) (value : ν) :
    insert less key value entries = entries ++ [(key, value)] := by
  induction entries with
  | nil => rfl
  | cons entry entries ih =>
      obtain ⟨hhead, hmore⟩ := List.forall_mem_cons.mp h
      have hnot : less key entry.1 = false := by
        cases hk : less key entry.1 with
        | false => rfl
        | true => rw [← ho.irrefl key, ho.trans _ _ _ hk hhead]
      rw [insert, hnot, hhead, ih hmore]
      rfl

section Lookup

variable [BEq κ]

theorem lookup_cons (key other : κ) (value : ν) (entries : List (κ × ν)) :
    ((key, value) :: entries).lookup other =
      if other == key then some value else entries.lookup other := by
  rw [List.lookup_cons]
  cases other == key <;> rfl

theorem contains_eq_false_iff {key : κ} {entries : List (κ × ν)} :
    contains key entries = false ↔ entries.lookup key = none := by
  simp only [contains, Option.isSome_eq_false_iff, Option.isNone_iff_eq_none]

variable [LawfulBEq κ]

-- An insertion changes what is found for one key, in whatever order the entries stand.
theorem lookup_insert {less : κ → κ → Bool} (ho : IsOrder less) (key other : κ) (value : ν)
    (entries : List (κ × ν)) :
    (insert less key value entries).lookup other =
      if other == key then some value else entries.lookup other := by
  fun_induction insert less key value entries with
  | case1 => simp only [lookup_cons, List.lookup_nil]
  | case2 k v entries hless => simp only [lookup_cons]
  | case3 k v entries hless hmore ih =>
      simp only [lookup_cons, ih]
      by_cases hk : other = k
      · subst hk
        have hne : other ≠ key := by
          rintro rfl
          simp [ho.irrefl] at hmore
        simp [hne]
      · simp [hk]
  | case4 k v entries hless hmore =>
      have heq : key = k := ho.total _ _ (by simpa using hless) (by simpa using hmore)
      subst heq
      simp only [lookup_cons]
      split <;> rfl

theorem lookup_erase (key other : κ) (entries : List (κ × ν)) :
    (erase key entries).lookup other =
      if other == key then none else entries.lookup other := by
  induction entries with
  | nil => simp [erase]
  | cons entry entries ih =>
      obtain ⟨k, v⟩ := entry
      unfold erase at ih ⊢
      by_cases hk : k = key
      · subst hk
        rw [List.filter_cons_of_neg (by simp), ih, lookup_cons]
        split <;> rfl
      · rw [List.filter_cons_of_pos (by simpa using hk), lookup_cons, lookup_cons, ih]
        by_cases ho : other = k
        · subst ho
          simp [hk]
        · simp [ho]

theorem lookup_adjust (key other : κ) (change : ν → ν) (entries : List (κ × ν)) :
    (adjust key change entries).lookup other =
      if other == key then (entries.lookup other).map change else entries.lookup other := by
  induction entries with
  | nil => simp [adjust]
  | cons entry entries ih =>
      obtain ⟨k, v⟩ := entry
      unfold adjust at ih ⊢
      rw [List.map_cons]
      by_cases hk : k = key
      · subst hk
        simp only [beq_self_eq_true, if_true, lookup_cons, ih]
        by_cases ho : other = k <;> simp [ho]
      · simp only [beq_eq_false_iff_ne.mpr hk, Bool.false_eq_true, if_false, lookup_cons, ih]
        by_cases ho : other = k
        · subst ho
          simp [hk]
        · simp [ho]

theorem mem_of_lookup {key : κ} {value : ν} {entries : List (κ × ν)}
    (h : entries.lookup key = some value) : (key, value) ∈ entries := by
  obtain ⟨before, after, heq, -⟩ := List.lookup_eq_some_iff.mp h
  simp [heq]

theorem lookup_eq_none_iff {key : κ} {entries : List (κ × ν)} :
    entries.lookup key = none ↔ key ∉ entries.map Prod.fst := by
  rw [List.lookup_eq_none_iff, List.mem_map]
  constructor
  · rintro h ⟨entry, hm, rfl⟩
    exact absurd (h entry hm) (by simp)
  · intro h entry hm
    simp only [bne_iff_ne]
    rintro rfl
    exact h ⟨entry, hm, rfl⟩

theorem contains_iff {key : κ} {entries : List (κ × ν)} :
    contains key entries = true ↔ key ∈ entries.map Prod.fst := by
  rw [← Bool.not_eq_false, contains_eq_false_iff, lookup_eq_none_iff, not_not]

theorem Distinct.lookup_of_mem {entries : List (κ × ν)} (hd : Distinct entries) {key : κ}
    {value : ν} (hm : (key, value) ∈ entries) : entries.lookup key = some value := by
  induction entries with
  | nil => simp at hm
  | cons entry entries ih =>
      obtain ⟨k, v⟩ := entry
      obtain ⟨hhead, htail⟩ := List.nodup_cons.mp (by simpa only [Distinct, List.map_cons] using hd)
      rcases List.mem_cons.mp hm with heq | hold
      · simp [(Prod.mk.inj heq).1, (Prod.mk.inj heq).2]
      · have hne : key ≠ k := by
          rintro rfl
          exact hhead (List.mem_map.mpr ⟨_, hold, rfl⟩)
        simp [lookup_cons, hne, ih htail hold]

theorem Distinct.lookup_eq_some_iff {entries : List (κ × ν)} (hd : Distinct entries) {key : κ}
    {value : ν} : entries.lookup key = some value ↔ (key, value) ∈ entries :=
  ⟨mem_of_lookup, hd.lookup_of_mem⟩

-- A key that is dropped has no second entry that would then be found.
theorem Distinct.lookup_filter {entries : List (κ × ν)} (hd : Distinct entries)
    (keep : κ → ν → Bool) (key : κ) :
    (entries.filter fun (k, v) => keep k v).lookup key =
      (entries.lookup key).filter (keep key) := by
  have hf := hd.filter fun (k, v) => keep k v
  ext value
  rw [hf.lookup_eq_some_iff, List.mem_filter, Option.filter_eq_some_iff, hd.lookup_eq_some_iff]

end Lookup

end PolyCache.Entries
