import PolyCache.Proofs.Entries
import PolyCache.Registry

-- What a registry tells of a name after each change.
namespace PolyCache.Registry

variable {α β : Type}

@[simp] theorem get_empty (name : String) :
    (empty : Registry α).get name = .error (.usage (.notRegistered name)) := rfl

@[simp] theorem get_close (r : Registry α) (name : String) :
    r.close.1.get name = .error (.usage .closed) := rfl

theorem mem_close {r : Registry α} {name : String} {entry : α} (h : r.get name = .ok entry) :
    entry ∈ r.close.2 := by
  obtain ⟨entries?⟩ := r
  cases entries? with
  | none => cases h
  | some entries =>
      simp only [get] at h
      split at h
      · rename_i hl
        cases h
        exact List.mem_map.mpr ⟨_, Entries.mem_of_lookup hl, rfl⟩
      · cases h

theorem insert_eq_ok_iff {r r' : Registry α} {name : String} {entry : α} :
    r.insert name entry = .ok r' ↔
      r.ensureVacant name = .ok () ∧
        r' = ⟨r.entries?.map (Entries.insert Entries.stringLess name entry)⟩ := by
  obtain ⟨entries?⟩ := r
  cases entries? with
  | none => simp [insert, ensureVacant]
  | some entries =>
      cases hv : checkVacant entries name with
      | error e => simp [insert, ensureVacant, hv]
      | ok vacant => simp [insert, ensureVacant, hv, eq_comm]

theorem insert_eq_error_iff {r : Registry α} {name : String} {entry : α} {e : Error} :
    r.insert name entry = .error e ↔ r.ensureVacant name = .error e := by
  obtain ⟨entries?⟩ := r
  cases entries? with
  | none => simp [insert, ensureVacant]
  | some entries => cases hv : checkVacant entries name <;> simp [insert, ensureVacant, hv]

-- Whether a name is vacant can be told from what is found under it,
theorem ensureVacant_eq {r : Registry α} {r' : Registry β} {name : String} (f : α → β)
    (hname : r'.get name = (r.get name).map f) : r'.ensureVacant name = r.ensureVacant name := by
  obtain ⟨entries?⟩ := r
  obtain ⟨entries'?⟩ := r'
  cases entries? with
  | none =>
      cases entries'? with
      | none => rfl
      | some entries' =>
          simp only [get] at hname
          cases hl : entries'.lookup name <;> simp [hl, Except.map, Error.usage] at hname
  | some entries =>
      cases entries'? with
      | none =>
          simp only [get] at hname
          cases hl : entries.lookup name <;> simp [hl, Except.map, Error.usage] at hname
      | some entries' =>
          have hsame : Entries.contains name entries' = Entries.contains name entries := by
            simp only [get] at hname
            unfold Entries.contains
            cases hl : entries.lookup name <;> cases hl' : entries'.lookup name <;>
              simp [hl, hl', Except.map] at hname ⊢
          simp only [ensureVacant, checkVacant, hsame]

-- so registries that find the same names agree on it.
theorem ensureVacant_congr {r : Registry α} {r' : Registry β} (f : α → β)
    (h : ∀ name, r'.get name = (r.get name).map f) (name : String) :
    r'.ensureVacant name = r.ensureVacant name :=
  ensureVacant_eq f (h name)

theorem get_of_vacant {r : Registry α} {name : String} (h : r.ensureVacant name = .ok ()) :
    r.get name = .error (.usage (.notRegistered name)) := by
  obtain ⟨entries?⟩ := r
  cases entries? with
  | none => simp [ensureVacant] at h
  | some entries =>
      simp only [ensureVacant, checkVacant] at h
      split at h
      · simp at h
      · split at h
        · simp at h
        · rename_i _ hc
          have hnone := Entries.contains_eq_false_iff.mp (Bool.eq_false_iff.mpr hc)
          simp [get, hnone]

-- While a registry is open, what is not found was not registered.
theorem get_of_open {r : Registry α} {name : String} (hopen : r.entries? ≠ none)
    (hnone : ∀ entry, r.get name ≠ .ok entry) :
    r.get name = .error (.usage (.notRegistered name)) := by
  obtain ⟨entries?⟩ := r
  cases entries? with
  | none => exact absurd rfl hopen
  | some entries =>
      simp only [get] at hnone ⊢
      cases hl : entries.lookup name with
      | none => rfl
      | some entry =>
          rw [hl] at hnone
          exact absurd rfl (hnone entry)

theorem ensureVacant_of_get {r : Registry α} {name : String} {entry : α} (hname : name ≠ "")
    (h : r.get name = .ok entry) :
    r.ensureVacant name = .error (.usage (.alreadyRegistered name)) := by
  obtain ⟨entries?⟩ := r
  cases entries? with
  | none => cases h
  | some entries =>
      simp only [get] at h
      cases hl : entries.lookup name with
      | none =>
          rw [hl] at h
          cases h
      | some found => simp [ensureVacant, checkVacant, hname, Entries.contains, hl]

theorem get_insert {r r' : Registry α} {name : String} {entry : α}
    (h : r.insert name entry = .ok r') (other : String) :
    r'.get other = if other = name then .ok entry else r.get other := by
  obtain ⟨hvacant, rfl⟩ := insert_eq_ok_iff.mp h
  obtain ⟨entries?⟩ := r
  cases entries? with
  | none => simp [ensureVacant] at hvacant
  | some entries =>
      simp only [get, Option.map_some, Entries.lookup_insert Entries.stringLess_isOrder,
        beq_iff_eq]
      by_cases ho : other = name <;> simp [ho]

-- They take a new name alike, or refuse it for the same reason; what they find of each name stays
-- alike.
theorem insert_alike {r : Registry α} {r' : Registry β} {name : String} (f : α → β)
    (hname : r'.get name = (r.get name).map f) (entry : α) :
    (∃ e, r.insert name entry = .error e ∧ r'.insert name (f entry) = .error e) ∨
      ∃ s s', r.insert name entry = .ok s ∧ r'.insert name (f entry) = .ok s' ∧
        ∀ other, r'.get other = (r.get other).map f → s'.get other = (s.get other).map f := by
  have hvacant := ensureVacant_eq f hname
  cases h : r.ensureVacant name with
  | error e =>
      exact Or.inl ⟨e, insert_eq_error_iff.mpr h, insert_eq_error_iff.mpr (hvacant.trans h)⟩
  | ok vacant =>
      obtain ⟨s, hs⟩ : ∃ s, r.insert name entry = .ok s :=
        ⟨_, insert_eq_ok_iff.mpr ⟨h, rfl⟩⟩
      obtain ⟨s', hs'⟩ : ∃ s', r'.insert name (f entry) = .ok s' :=
        ⟨_, insert_eq_ok_iff.mpr ⟨hvacant.trans h, rfl⟩⟩
      refine Or.inr ⟨s, s', hs, hs', ?_⟩
      intro other hother
      rw [get_insert hs, get_insert hs']
      split
      · rfl
      · exact hother

theorem insert_same {r r' : Registry α} {name : String} (hname : r'.get name = r.get name)
    (entry : α) :
    (∃ e, r.insert name entry = .error e ∧ r'.insert name entry = .error e) ∨
      ∃ s s', r.insert name entry = .ok s ∧ r'.insert name entry = .ok s' ∧
        s'.get name = s.get name := by
  have hid : r'.get name = (r.get name).map id := by
    rw [Except.map_id]
    exact hname
  refine (insert_alike id hid entry).imp_right ?_
  rintro ⟨s, s', hs, hs', hsame⟩
  have h := hsame name hid
  rw [Except.map_id] at h
  exact ⟨s, s', hs, hs', h⟩

theorem get_adjust (r : Registry α) (name other : String) (change : α → α) :
    (r.adjust name change).get other =
      if other = name then (r.get other).map change else r.get other := by
  obtain ⟨entries?⟩ := r
  cases entries? with
  | none => simp [adjust, get, Except.map]
  | some entries =>
      simp only [get, adjust, Option.map_some, Entries.lookup_adjust, beq_iff_eq]
      by_cases ho : other = name
      · simp only [ho, if_true]
        cases entries.lookup name <;> rfl
      · simp only [ho, if_false]

end PolyCache.Registry
