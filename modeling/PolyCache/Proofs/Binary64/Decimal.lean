import Mathlib.Tactic.Ring
import PolyCache.Binary64.Decimal
import PolyCache.Proofs.Binary64.Rounding

-- How large the shortest decimal of a double can be.
namespace PolyCache.Binary64

theorem digitCount_le_iff {n k : Nat} (hk : 0 < k) : digitCount n ≤ k ↔ n < 10 ^ k :=
  Nat.length_toDigits_le_iff (by decide) hk

theorem digitCount_pos (n : Nat) : 0 < digitCount n := Nat.length_toDigits_pos

theorem lt_pow_digitCount (n : Nat) : n < 10 ^ digitCount n :=
  (digitCount_le_iff (digitCount_pos n)).mp (Nat.le_refl _)

theorem pow_le_of_digitCount {n k : Nat} (hn : 0 < n) (hk : digitCount n = k + 1) : 10 ^ k ≤ n := by
  cases k with
  | zero => exact hn
  | succ k =>
      by_contra hlt
      have hle := (digitCount_le_iff k.succ_pos).mpr (Nat.lt_of_not_le hlt)
      omega

theorem gridStep_natCast (k : Nat) : gridStep k = (10 ^ k, 1) := if_pos (Int.natCast_nonneg k)

theorem gridStep_neg (k : Nat) : gridStep (-k) = (1, 10 ^ k) := by
  rcases Nat.eq_zero_or_pos k with rfl | hk
  · rfl
  · rw [gridStep, if_neg (by omega), Int.neg_neg, Int.toNat_natCast]
    rfl

-- On a grid `count` places below its leading digit a number has at most `count + 1` digits.
theorem below_grid {num den : Nat} (hnum : 0 < num) (hden : 0 < den) (count : Nat) :
    num * (gridStep (leadingExponent num den - count)).2 /
      (den * (gridStep (leadingExponent num den - count)).1) < 10 ^ (count + 1) := by
  unfold leadingExponent
  by_cases hle : den ≤ num
  · obtain ⟨leading, hleading⟩ : ∃ leading, digitCount (num / den) = leading + 1 :=
      ⟨_, (Nat.succ_pred_eq_of_pos (digitCount_pos _)).symm⟩
    have hlt := lt_pow_digitCount (num / den)
    rw [hleading, Nat.div_lt_iff_lt_mul hden] at hlt
    rw [if_pos hle, hleading]
    rcases Nat.le_total count leading with h | h
    · obtain ⟨k, rfl⟩ := Nat.exists_eq_add_of_le h
      have hk : ((count + k + 1 : Nat) : Int) - 1 - count = (k : Nat) := by omega
      rw [hk, gridStep_natCast, Nat.mul_one,
        Nat.div_lt_iff_lt_mul (Nat.mul_pos hden (Nat.pow_pos (by decide)))]
      calc num < 10 ^ (count + k + 1) * den := hlt
        _ = 10 ^ (count + 1) * (den * 10 ^ k) := by ring
    · obtain ⟨k, rfl⟩ := Nat.exists_eq_add_of_le h
      have hk : ((leading + 1 : Nat) : Int) - 1 - (leading + k : Nat) = -(k : Nat) := by omega
      rw [hk, gridStep_neg, Nat.mul_one, Nat.div_lt_iff_lt_mul hden]
      calc num * 10 ^ k < 10 ^ (leading + 1) * den * 10 ^ k :=
            Nat.mul_lt_mul_of_pos_right hlt (Nat.pow_pos (by decide))
        _ = 10 ^ (leading + k + 1) * den := by ring
  · -- the reciprocal, rounded up and made less by one, is still at least one
    have hquotient : 0 < (den + num - 1) / num - 1 := by
      have : 2 ≤ (den + num - 1) / num := (Nat.le_div_iff_mul_le hnum).mpr (by omega)
      omega
    obtain ⟨m, hm⟩ : ∃ m, digitCount ((den + num - 1) / num - 1) = m + 1 :=
      ⟨_, (Nat.succ_pred_eq_of_pos (digitCount_pos _)).symm⟩
    have hpow := pow_le_of_digitCount hquotient hm
    have hlt : 10 ^ m * num < den := by
      have hsucc : 10 ^ m + 1 ≤ (den + num - 1) / num := by omega
      rw [Nat.le_div_iff_mul_le hnum, Nat.add_mul] at hsucc
      omega
    have hk : -((m + 1 : Nat) : Int) - count = -(m + count + 1 : Nat) := by omega
    rw [if_neg hle, hm, hk, gridStep_neg, Nat.mul_one, Nat.div_lt_iff_lt_mul hden]
    calc num * 10 ^ (m + count + 1) = 10 ^ (count + 1) * (10 ^ m * num) := by ring
      _ < 10 ^ (count + 1) * den := Nat.mul_lt_mul_of_pos_left hlt (Nat.pow_pos (by decide))

theorem leadingExponent_le {num den a b k : Nat} (hden : den ≤ a) (hnum : num < b) (hk : 0 < k)
    (h : a + b ≤ 10 ^ k) : (leadingExponent num den).natAbs ≤ k := by
  have hcount {n : Nat} (hn : n < a + b) : digitCount n ≤ k :=
    (digitCount_le_iff hk).mpr (Nat.lt_of_lt_of_le hn h)
  have habove : digitCount (num / den) ≤ k :=
    hcount (Nat.lt_of_le_of_lt (Nat.div_le_self num den) (by omega))
  have hbelow : digitCount ((den + num - 1) / num - 1) ≤ k := by
    have hle := Nat.div_le_self (den + num - 1) num
    exact hcount (by omega)
  have hpos := digitCount_pos (num / den)
  unfold leadingExponent
  split <;> omega

variable {x : Binary64} {tie : Tie} {k : Int} {c : Nat}

-- What is found on a grid reads back as the number, and is next to it.
theorem onGrid?_some (h : onGrid? tie x k = some c) :
    (roundingInterval x).contains (c * (gridStep k).1) (gridStep k).2 = true ∧
      c ≤ x.units * (gridStep k).2 / (Nat.pow 2 1074 * (gridStep k).1) + 1 := by
  unfold onGrid? at h
  dsimp only at h
  split at h
  · cases h
  · rename_i hit _
    cases h
    exact ⟨hit, Nat.le_succ _⟩
  · rename_i _ hit
    cases h
    exact ⟨hit, Nat.le_refl _⟩
  · rename_i hbelow habove
    split at h
    · cases h
      exact ⟨hbelow, Nat.le_succ _⟩
    · split at h
      · cases h
        exact ⟨habove, Nat.le_refl _⟩
      · cases tie with
        | up =>
            cases h
            exact ⟨habove, Nat.le_refl _⟩
        | even =>
            cases h
            rcases Nat.mod_two_eq_zero_or_one
              (x.units * (gridStep k).2 / (Nat.pow 2 1074 * (gridStep k).1)) with heven | hodd
            · rw [heven]
              exact ⟨hbelow, Nat.le_succ _⟩
            · rw [hodd]
              exact ⟨habove, Nat.le_refl _⟩

theorem firstHit_cases (tie : Tie) (x : Binary64) (leading : Int) (counts : List Nat) :
    firstHit tie x leading counts = ⟨0, 0⟩ ∨
      ∃ count ∈ counts, ∃ c, onGrid? tie x (leading - count) = some c ∧
        firstHit tie x leading counts = ⟨c, leading - count⟩ := by
  induction counts with
  | nil => exact .inl rfl
  | cons count counts ih =>
      cases hgrid : onGrid? tie x (leading - count) with
      | some c =>
          have heq : firstHit tie x leading (count :: counts) = ⟨c, leading - count⟩ := by
            simp only [firstHit, hgrid]
          exact .inr ⟨count, List.mem_cons_self, c, hgrid, heq⟩
      | none =>
          have heq : firstHit tie x leading (count :: counts) = firstHit tie x leading counts := by
            simp only [firstHit, hgrid]
          rw [heq]
          rcases ih with ih | ⟨count', hmem, c, hc, heq'⟩
          · exact .inl ih
          · exact .inr ⟨count', List.mem_cons_of_mem _ hmem, c, hc, heq'⟩

section Finite

def IsFinite (x : Binary64) : Prop := x.isNaN = false ∧ x.isInfinite = false

instance (x : Binary64) : Decidable x.IsFinite := inferInstanceAs (Decidable (_ ∧ _))

theorem significand_eq (x : Binary64) :
    x.significand = if x.magnitude / 2 ^ 52 = 0 then x.magnitude % 2 ^ 52
      else 2 ^ 52 + x.magnitude % 2 ^ 52 := rfl

theorem scale_eq (x : Binary64) : x.scale = x.magnitude / 2 ^ 52 - 1 := rfl

theorem isFinite_iff : x.IsFinite ↔ x.magnitude < top := by
  have hmagnitude : x.magnitude < 2 ^ 63 := Nat.mod_lt _ (by decide)
  rw [IsFinite, isNaN, isInfinite, exponentField, fraction, Nat.pow_eq, top]
  simp only [Bool.and_eq_false_iff, bne_eq_false_iff_eq, beq_eq_false_iff_ne]
  omega

theorem significand_lt (x : Binary64) : x.significand < 2 ^ 53 := by
  rw [significand_eq]
  split <;> omega

theorem scale_le (h : x.magnitude < top) : x.scale ≤ 2045 := by
  rw [scale_eq]
  unfold top at h
  omega

theorem units_lt {k : Nat} (h : x.scale ≤ k) : x.units < 2 ^ 53 * 2 ^ k :=
  calc x.units < 2 ^ 53 * 2 ^ x.scale :=
        Nat.mul_lt_mul_of_pos_right (significand_lt x) (Nat.two_pow_pos _)
    _ ≤ 2 ^ 53 * 2 ^ k := Nat.mul_le_mul_left _ (Nat.pow_le_pow_right (by decide) h)

theorem significand_pos (h : x.isZero = false) : 0 < x.significand := by
  have hne : x.magnitude ≠ 0 := beq_eq_false_iff_ne.mp h
  rw [significand_eq]
  split <;> omega

-- Below the greatest number there is another one, so what rounds to it stays away from the end.
theorem high_le (h : x.magnitude < top - 1) :
    (roundingInterval x).high ≤ (2 ^ 55 - 6) * 2 ^ 2045 := by
  show (4 * x.significand + 2) * 2 ^ x.scale ≤ _
  have hlt := significand_lt x
  unfold top at h
  rcases Nat.lt_or_ge x.scale 2045 with hscale | hscale
  · calc (4 * x.significand + 2) * 2 ^ x.scale ≤ (2 ^ 55 - 2) * 2 ^ 2044 :=
          Nat.mul_le_mul (by omega) (Nat.pow_le_pow_right (by decide) (by omega))
      _ ≤ (2 ^ 55 - 6) * 2 ^ 2045 := by decide +kernel
  · have hle : x.scale ≤ 2045 ∧ 4 * x.significand + 2 ≤ 2 ^ 55 - 6 := by
      rw [scale_eq] at hscale ⊢
      rw [significand_eq]
      split <;> omega
    exact Nat.mul_le_mul hle.2 (pow_le_pow_right₀ (by decide) hle.1)

-- The greatest finite number, as its shortest decimal has it.
def greatest : Nat := 17976931348623157 * 10 ^ 292

theorem shortest_of_greatest (h : x.magnitude = top - 1) :
    shortest .even x = ⟨17976931348623157, 292⟩ := by
  obtain ⟨bits⟩ := x
  have hbits : bits.toNat % 2 ^ 63 = top - 1 := h
  have hlt : bits.toNat < 2 ^ 64 := bits.toNat_lt
  have hcases : bits = 0x7FEFFFFFFFFFFFFF ∨ bits = 0xFFEFFFFFFFFFFFFF := by
    rw [← UInt64.toNat_inj, ← UInt64.toNat_inj]
    show bits.toNat = 0x7FEFFFFFFFFFFFFF ∨ bits.toNat = 0xFFEFFFFFFFFFFFFF
    unfold top at hbits
    omega
  rcases hcases with rfl | rfl <;> decide +kernel

-- What is printed of a finite number: no more than seventeen digits and no number above all finite
-- ones.
structure Decimal.IsPrintable (d : Decimal) : Prop where
  coefficient : d.coefficient ≤ 10 ^ 17
  exponent : d.exponent.natAbs ≤ 1016
  zero : d.coefficient = 0 → d.exponent = 0
  value : ∀ k : Nat, d.exponent = k → d.coefficient * 10 ^ k ≤ greatest

theorem Interval.bounds_of_contains {i : Interval} {num den : Nat}
    (h : i.contains num den = true) :
    i.low * den ≤ num * (4 * Nat.pow 2 1074) ∧ num * (4 * Nat.pow 2 1074) ≤ i.high * den := by
  unfold contains at h
  dsimp only at h
  generalize num * (4 * Nat.pow 2 1074) = v at h ⊢
  split at h
  · simpa using h
  · simp only [Bool.and_eq_true, decide_eq_true_eq] at h
    exact ⟨Nat.le_of_lt h.1, Nat.le_of_lt h.2⟩

theorem Interval.pos_of_contains {i : Interval} {num den : Nat} (h : i.contains num den = true)
    (hlow : 0 < i.low) (hden : 0 < den) : 0 < num := by
  have hle := (bounds_of_contains h).1
  generalize 4 * Nat.pow 2 1074 = unit at hle
  exact Nat.pos_of_mul_pos_right (Nat.lt_of_lt_of_le (Nat.mul_pos hlow hden) hle)

theorem coefficient_pos (h : x.isZero = false) (hgrid : onGrid? tie x k = some c) : 0 < c := by
  have hlow : 0 < (roundingInterval x).low := by
    have := significand_pos h
    apply Nat.mul_pos _ (Nat.two_pow_pos _)
    split <;> omega
  have hden : 0 < (gridStep k).2 := by
    unfold gridStep
    split
    · exact Nat.one_pos
    · exact Nat.pow_pos (by decide)
  exact Nat.pos_of_mul_pos_right (Interval.pos_of_contains (onGrid?_some hgrid).1 hlow hden)

theorem value_le (h : x.magnitude < top - 1) {k : Nat} (hgrid : onGrid? tie x k = some c) :
    c * 10 ^ k ≤ greatest := by
  have hle := (Interval.bounds_of_contains (onGrid?_some hgrid).1).2
  rw [gridStep_natCast, Nat.mul_one] at hle
  have hgreatest : (2 ^ 55 - 6) * 2 ^ 2045 ≤ greatest * (4 * Nat.pow 2 1074) := by decide +kernel
  have hpos : 0 < 4 * Nat.pow 2 1074 := by decide +kernel
  exact Nat.le_of_mul_le_mul_right (Nat.le_trans hle (Nat.le_trans (high_le h) hgreatest)) hpos

theorem leadingExponent_units (h : x.magnitude < top) :
    (leadingExponent x.units (Nat.pow 2 1074)).natAbs ≤ 1000 :=
  leadingExponent_le (Nat.le_refl _) (units_lt (scale_le h)) (by decide) (by decide +kernel)

theorem isPrintable_of_onGrid (h : x.magnitude < top - 1) (hzero : x.isZero = false) {count : Nat}
    (hcount : count < 17)
    (hgrid : onGrid? tie x (leadingExponent x.units (Nat.pow 2 1074) - count) = some c) :
    Decimal.IsPrintable ⟨c, leadingExponent x.units (Nat.pow 2 1074) - count⟩ where
  coefficient := by
    have hpos : 0 < x.units := Nat.mul_pos (significand_pos hzero) (Nat.two_pow_pos _)
    have hden : 0 < Nat.pow 2 1074 := by decide +kernel
    have hbelow := below_grid hpos hden count
    have hnear : c ≤ _ + 1 := (onGrid?_some hgrid).2
    have hpow : 10 ^ (count + 1) ≤ 10 ^ 17 := Nat.pow_le_pow_right (by decide) hcount
    exact Nat.le_trans hnear (Nat.le_trans hbelow hpow)
  exponent := by
    have hleading := leadingExponent_units (x := x) (by omega)
    show (_ - (count : Int)).natAbs ≤ 1016
    omega
  zero hc := absurd hc (Nat.ne_of_gt (coefficient_pos hzero hgrid))
  value k hk := by
    have hk : leadingExponent x.units (Nat.pow 2 1074) - count = k := hk
    rw [hk] at hgrid
    exact value_le h hgrid

theorem shortest_isPrintable (h : x.magnitude < top) (hzero : x.isZero = false) :
    (shortest .even x).IsPrintable := by
  by_cases hgreatest : x.magnitude = top - 1
  · rw [shortest_of_greatest hgreatest]
    refine ⟨by decide, by decide, nofun, ?_⟩
    intro k hk
    have hk : k = 292 := (Int.ofNat.inj hk).symm
    rw [hk]
    decide +kernel
  · unfold shortest
    rcases firstHit_cases .even x (leadingExponent x.units (Nat.pow 2 1074)) (List.range 17) with
      heq | ⟨count, hcount, c, hgrid, heq⟩
    · rw [heq]
      exact ⟨by decide, by decide, fun _ => rfl, fun k _ => by simp⟩
    · rw [heq]
      exact isPrintable_of_onGrid (by omega) hzero (List.mem_range.mp hcount) hgrid

end Finite

end PolyCache.Binary64
