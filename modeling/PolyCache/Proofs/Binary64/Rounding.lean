import Mathlib.Algebra.Group.Nat.Defs
import PolyCache.Binary64.Basic

-- Rounding keeps the order of what is rounded, and a double is its own rounding. All numbers here
-- are positive or zero, so a double is told by its magnitude alone.
namespace PolyCache.Binary64

-- The place of a positive infinity.
def top : Nat := 2047 * 2 ^ 52

-- How many binary digits are lost when a whole number of units is cut to a significand.
def excess (q : Nat) : Nat := if q < 2 ^ 53 then 0 else Nat.log2 q - 52

-- The magnitude of the double nearest to `num / den` units, if exponents had no end.
def rounded (num den : Nat) : Nat :=
  excess (num / den) * 2 ^ 52 + roundQuotient num (den * 2 ^ excess (num / den))

-- The units that a magnitude stands for.
def unitsAt (m : Nat) : Nat :=
  (if m / 2 ^ 52 = 0 then m % 2 ^ 52 else 2 ^ 52 + m % 2 ^ 52) * 2 ^ (m / 2 ^ 52 - 1)

theorem nearestUnits_eq (num den : Nat) :
    nearestUnits false num den = withSign false (min (rounded num den) top) := by
  show (if rounded num den < top then withSign false (rounded num den) else withSign false top) = _
  by_cases h : rounded num den < top
  · rw [if_pos h, Nat.min_eq_left (Nat.le_of_lt h)]
  · rw [if_neg h, Nat.min_eq_right (Nat.le_of_not_lt h)]

theorem log2_excess {q : Nat} (h : 2 ^ 53 ≤ q) : Nat.log2 q = excess q + 52 := by
  have hlog : 53 ≤ Nat.log2 q := (Nat.le_log2 (by omega)).mpr h
  rw [excess, if_neg (by omega)]
  omega

-- The significand that is left fits its 53 digits,
theorem div_excess_lt (q : Nat) : q / 2 ^ excess q < 2 ^ 53 := by
  by_cases h : q < 2 ^ 53
  · rw [excess, if_pos h, Nat.pow_zero, Nat.div_one]
    exact h
  · have hlog := log2_excess (Nat.le_of_not_lt h)
    rw [Nat.div_lt_iff_lt_mul (Nat.two_pow_pos _), ← Nat.pow_add]
    exact (Nat.log2_lt (by omega)).mp (by omega)

-- and fills them if any digit is lost.
theorem le_div_excess {q : Nat} (h : 0 < excess q) : 2 ^ 52 ≤ q / 2 ^ excess q := by
  have hq : 2 ^ 53 ≤ q := by
    rcases Nat.lt_or_ge q (2 ^ 53) with hlt | hge
    · rw [excess, if_pos hlt] at h
      omega
    · exact hge
  rw [Nat.le_div_iff_mul_le (Nat.two_pow_pos _), ← Nat.pow_add, Nat.add_comm, ← log2_excess hq]
  exact (Nat.le_log2 (by omega)).mp (Nat.le_refl _)

theorem excess_eq {q k : Nat} (hlt : q / 2 ^ k < 2 ^ 53) (hle : k = 0 ∨ 2 ^ 52 ≤ q / 2 ^ k) :
    excess q = k := by
  rcases Nat.eq_zero_or_pos k with rfl | hk
  · rw [Nat.pow_zero, Nat.div_one] at hlt
    rw [excess, if_pos hlt]
  · have hle := hle.resolve_left (by omega)
    rw [Nat.div_lt_iff_lt_mul (Nat.two_pow_pos _), ← Nat.pow_add] at hlt
    rw [Nat.le_div_iff_mul_le (Nat.two_pow_pos _), ← Nat.pow_add] at hle
    have hq : 2 ^ 53 ≤ q := Nat.le_trans (Nat.pow_le_pow_right (by decide) (by omega)) hle
    have hlog := log2_excess hq
    have hge := (Nat.le_log2 (show q ≠ 0 by omega)).mpr hle
    have hless := (Nat.log2_lt (show q ≠ 0 by omega)).mpr hlt
    omega

theorem excess_mono {q q' : Nat} (h : q ≤ q') : excess q ≤ excess q' := by
  by_cases hq : q < 2 ^ 53
  · rw [excess, if_pos hq]
    exact Nat.zero_le _
  · have hlog := log2_excess (Nat.le_of_not_lt hq)
    have hlog' := log2_excess (Nat.le_trans (Nat.le_of_not_lt hq) h)
    have hle : Nat.log2 q ≤ Nat.log2 q' :=
      (Nat.le_log2 (by omega)).mpr
        (Nat.le_trans ((Nat.le_log2 (by omega)).mp (Nat.le_refl _)) h)
    omega

-- A number of at most 53 digits with zeros behind them loses zeros only.
theorem excess_mul_le {s : Nat} (h : s < 2 ^ 53) (k : Nat) : excess (s * 2 ^ k) ≤ k := by
  rcases Nat.lt_or_ge k (excess (s * 2 ^ k)) with hlt | hge
  · have hfills := le_div_excess (q := s * 2 ^ k) (by omega)
    rw [Nat.le_div_iff_mul_le (Nat.two_pow_pos _), ← Nat.pow_add] at hfills
    have hbig : 2 ^ (53 + k) ≤ s * 2 ^ k :=
      Nat.le_trans (Nat.pow_le_pow_right (by decide) (by omega)) hfills
    rw [Nat.pow_add] at hbig
    have hs : 2 ^ 53 ≤ s := Nat.le_of_mul_le_mul_right hbig (Nat.two_pow_pos _)
    omega
  · exact hge

theorem two_mul_lt_two_pow {u k j : Nat} (hu : u < 2 ^ k) (hk : k < j) : 2 * u < 2 ^ j :=
  calc 2 * u < 2 * 2 ^ k := by omega
    _ = 2 ^ (k + 1) := Nat.pow_succ'.symm
    _ ≤ 2 ^ j := Nat.pow_le_pow_right (by decide) hk

theorem roundQuotient_bounds (num den : Nat) :
    num / den ≤ roundQuotient num den ∧ roundQuotient num den ≤ num / den + 1 := by
  unfold roundQuotient
  dsimp only
  split
  · omega
  · split <;> omega

theorem roundQuotient_mono {num num' : Nat} (den : Nat) (h : num ≤ num') :
    roundQuotient num den ≤ roundQuotient num' den := by
  have hq : num / den ≤ num' / den := Nat.div_le_div_right h
  rcases Nat.lt_or_eq_of_le hq with hlt | heq
  · have hle := (roundQuotient_bounds num den).2
    have hge := (roundQuotient_bounds num' den).1
    omega
  · have hr : num % den ≤ num' % den := by
      have hn := Nat.div_add_mod num den
      have hn' := Nat.div_add_mod num' den
      rw [heq] at hn
      omega
    unfold roundQuotient
    dsimp only
    rw [heq]
    split
    · split
      · omega
      · split <;> omega
    · split <;> split <;> (try split) <;> omega

-- A longer number either keeps the exponent, or its significand starts anew above all others.
theorem rounded_mono {num num' den : Nat} (h : num ≤ num') :
    rounded num den ≤ rounded num' den := by
  have he : excess (num / den) ≤ excess (num' / den) := excess_mono (Nat.div_le_div_right h)
  unfold rounded
  rcases Nat.lt_or_eq_of_le he with hlt | heq
  · have hm := (roundQuotient_bounds num (den * 2 ^ excess (num / den))).2
    have hm' := (roundQuotient_bounds num' (den * 2 ^ excess (num' / den))).1
    rw [← Nat.div_div_eq_div_mul] at hm hm'
    have hfits := div_excess_lt (num / den)
    have hfills := le_div_excess (q := num' / den) (by omega)
    omega
  · rw [heq]
    exact Nat.add_le_add_left (roundQuotient_mono _ h) _

theorem unitsAt_mono {m m' : Nat} (h : m ≤ m') : unitsAt m ≤ unitsAt m' := by
  have he : m / 2 ^ 52 ≤ m' / 2 ^ 52 := Nat.div_le_div_right h
  have hf : m % 2 ^ 52 < 2 ^ 52 := Nat.mod_lt _ (by decide)
  unfold unitsAt
  rcases Nat.lt_or_eq_of_le he with hlt | heq
  · rw [if_neg (show ¬ m' / 2 ^ 52 = 0 by omega)]
    by_cases hz : m / 2 ^ 52 = 0
    · rw [if_pos hz, hz, Nat.zero_sub, Nat.pow_zero, Nat.mul_one]
      have hpos := Nat.two_pow_pos (m' / 2 ^ 52 - 1)
      calc m % 2 ^ 52 ≤ 2 ^ 52 + m' % 2 ^ 52 := by omega
        _ ≤ _ := Nat.le_mul_of_pos_right _ hpos
    · rw [if_neg hz]
      obtain ⟨e, he⟩ : ∃ e, m / 2 ^ 52 = e + 1 := ⟨m / 2 ^ 52 - 1, by omega⟩
      rw [he, Nat.add_sub_cancel]
      have hpow : 2 ^ (e + 1) ≤ 2 ^ (m' / 2 ^ 52 - 1) :=
        Nat.pow_le_pow_right (by decide) (by omega)
      calc (2 ^ 52 + m % 2 ^ 52) * 2 ^ e ≤ (2 ^ 52 + 2 ^ 52) * 2 ^ e :=
            Nat.mul_le_mul_right _ (by omega)
        _ = 2 ^ 52 * 2 ^ (e + 1) := by rw [Nat.pow_succ]; omega
        _ ≤ (2 ^ 52 + m' % 2 ^ 52) * 2 ^ (m' / 2 ^ 52 - 1) :=
            Nat.mul_le_mul (by omega) hpow
  · have hr : m % 2 ^ 52 ≤ m' % 2 ^ 52 := by omega
    rw [heq]
    apply Nat.mul_le_mul_right
    split <;> omega

-- A double is its own rounding, and so is what lies above it by less than half of its last digit.
theorem rounded_unitsAt {m u : Nat} (h : 2 * u < 2 ^ (m / 2 ^ 52 - 1)) :
    rounded (unitsAt m + u) 1 = m := by
  have hdecompose := Nat.div_add_mod m (2 ^ 52)
  have hf : m % 2 ^ 52 < 2 ^ 52 := Nat.mod_lt _ (by decide)
  unfold unitsAt
  generalize hS : (if m / 2 ^ 52 = 0 then m % 2 ^ 52 else 2 ^ 52 + m % 2 ^ 52) = S
  generalize hk : m / 2 ^ 52 - 1 = k at h ⊢
  have hpos := Nat.two_pow_pos k
  have hdiv : (S * 2 ^ k + u) / 2 ^ k = S := by
    rw [Nat.mul_comm, Nat.mul_add_div hpos, Nat.div_eq_of_lt (by omega), Nat.add_zero]
  have hmod : (S * 2 ^ k + u) % 2 ^ k = u := by
    rw [Nat.mul_comm, Nat.mul_add_mod, Nat.mod_eq_of_lt (by omega)]
  have hexcess : excess ((S * 2 ^ k + u) / 1) = k := by
    rw [Nat.div_one]
    apply excess_eq
    · rw [hdiv]
      split at hS <;> omega
    · rw [hdiv]
      split at hS <;> omega
  have hround : roundQuotient (S * 2 ^ k + u) (2 ^ k) = S := by
    unfold roundQuotient
    dsimp only
    rw [hdiv, hmod, if_pos h]
  rw [rounded, hexcess, Nat.one_mul, hround]
  split at hS <;> omega

-- Nothing is lost of a number whose cut digits are all zero.
theorem unitsAt_rounded {q : Nat} (h : 2 ^ excess q ∣ q) : unitsAt (rounded q 1) = q := by
  have hmod : q % 2 ^ excess q = 0 := Nat.mod_eq_zero_of_dvd h
  obtain ⟨S, hS⟩ := h
  have hpos := Nat.two_pow_pos (excess q)
  have hdiv : q / 2 ^ excess q = S := Nat.div_eq_of_eq_mul_right hpos hS
  have hfits := div_excess_lt q
  have hfills := le_div_excess (q := q)
  have hround : rounded q 1 = excess q * 2 ^ 52 + S := by
    rw [rounded, Nat.div_one, Nat.one_mul]
    unfold roundQuotient
    dsimp only
    rw [hdiv, hmod, Nat.mul_zero, if_pos hpos]
  rw [hdiv] at hfits hfills
  rw [hround, unitsAt]
  generalize excess q = k at hS hfills ⊢
  rcases Nat.lt_or_ge S (2 ^ 52) with hlt | hge
  · have hk : k = 0 := by omega
    subst hk
    rw [if_pos (by omega), hS]
    have he : (0 * 2 ^ 52 + S) / 2 ^ 52 - 1 = 0 := by omega
    rw [he]
    omega
  · have he : (k * 2 ^ 52 + S) / 2 ^ 52 = k + 1 := by omega
    have hf : 2 ^ 52 + (k * 2 ^ 52 + S) % 2 ^ 52 = S := by omega
    rw [he, if_neg (by omega), hf, Nat.add_sub_cancel, hS, Nat.mul_comm]

theorem unitsAt_rounded_mul {s : Nat} (h : s < 2 ^ 53) (k : Nat) :
    unitsAt (rounded (s * 2 ^ k) 1) = s * 2 ^ k :=
  unitsAt_rounded (Nat.dvd_trans (Nat.pow_dvd_pow 2 (excess_mul_le h k)) (Nat.dvd_mul_left _ _))

section Fields

variable {m : Nat}

theorem toNat_withSign (h : m ≤ top) : (withSign false m).bits.toNat = m := by
  have hm : m < 2 ^ 64 := Nat.lt_of_le_of_lt h (by decide)
  show m.toUInt64.toNat = m
  rw [Nat.toUInt64, UInt64.toNat_ofNat']
  exact Nat.mod_eq_of_lt hm

theorem magnitude_withSign (h : m ≤ top) : (withSign false m).magnitude = m := by
  rw [magnitude, toNat_withSign h]
  exact Nat.mod_eq_of_lt (Nat.lt_of_le_of_lt h (by decide))

theorem isNegative_withSign (h : m ≤ top) : (withSign false m).isNegative = false := by
  rw [isNegative, toNat_withSign h, Nat.pow_eq]
  have htop : top < 2 ^ 63 := by decide
  exact decide_eq_false (by omega)

theorem isInfinite_withSign (h : m ≤ top) : (withSign false m).isInfinite = decide (m = top) := by
  rw [isInfinite, exponentField, fraction, magnitude_withSign h, Nat.pow_eq]
  unfold top at h ⊢
  rw [Bool.eq_iff_iff]
  simp only [Bool.and_eq_true, beq_iff_eq, decide_eq_true_eq]
  omega

theorem isNaN_withSign (h : m ≤ top) : (withSign false m).isNaN = false := by
  rw [isNaN, exponentField, fraction, magnitude_withSign h, Nat.pow_eq]
  unfold top at h
  rw [Bool.eq_false_iff]
  simp only [ne_eq, Bool.and_eq_true, beq_iff_eq, bne_iff_ne]
  omega

theorem units_withSign (h : m ≤ top) : (withSign false m).units = unitsAt m := by
  rw [units, significand, scale, exponentField, fraction, magnitude_withSign h]
  rfl

theorem orderKey_withSign (h : m ≤ top) : (withSign false m).orderKey = m := by
  rw [orderKey, isNegative_withSign h, magnitude_withSign h]
  rfl

end Fields

def sumAt (a b : Nat) : Nat :=
  if a = top ∨ b = top then top else min (rounded (unitsAt a + unitsAt b) 1) top

theorem sumAt_le (a b : Nat) : sumAt a b ≤ top := by
  unfold sumAt
  split
  · exact Nat.le_refl _
  · exact Nat.min_le_right _ _

theorem add_withSign {a b : Nat} (ha : a ≤ top) (hb : b ≤ top) :
    add (withSign false a) (withSign false b) = withSign false (sumAt a b) := by
  unfold add sumAt
  rw [isNaN_withSign ha, isNaN_withSign hb, isInfinite_withSign ha, isInfinite_withSign hb,
    isNegative_withSign ha, isNegative_withSign hb]
  by_cases hat : a = top
  · subst hat
    simp
  by_cases hbt : b = top
  · subst hbt
    simp [hat]
  have hsum : (withSign false a).signedUnits + (withSign false b).signedUnits =
      ((unitsAt a + unitsAt b : Nat) : Int) := by
    rw [signedUnits, signedUnits, isNegative_withSign ha, isNegative_withSign hb,
      units_withSign ha, units_withSign hb]
    rfl
  simp only [hat, hbt, decide_false, Bool.or_self, Bool.false_eq_true, if_false, hsum, or_self]
  generalize unitsAt a + unitsAt b = n
  by_cases hn : n = 0
  · subst hn
    rfl
  · have hpos : decide ((n : Int) < 0) = false := decide_eq_false (by omega)
    rw [if_neg (by omega), hpos, Int.natAbs_natCast, nearestUnits_eq]

theorem sumAt_mono {a b b' : Nat} (h : b ≤ b') (hb : b' ≤ top) : sumAt a b ≤ sumAt a b' := by
  unfold sumAt
  have hr : rounded (unitsAt a + unitsAt b) 1 ≤ rounded (unitsAt a + unitsAt b') 1 :=
    rounded_mono (Nat.add_le_add_left (unitsAt_mono h) _)
  split
  · exact Nat.le_of_eq (if_pos (by omega)).symm
  · split
    · exact Nat.min_le_right _ _
    · omega

theorem sumAt_zero {a : Nat} (ha : a ≤ top) : sumAt a 0 = a := by
  unfold sumAt
  by_cases hat : a = top
  · rw [if_pos (Or.inl hat), hat]
  · have hz : unitsAt 0 = 0 := by decide
    have hr : rounded (unitsAt a + 0) 1 = a := rounded_unitsAt (Nat.two_pow_pos _)
    have htop : (0 : Nat) ≠ top := by decide
    rw [if_neg (by omega), hz, hr, Nat.min_eq_left ha]

end PolyCache.Binary64
