import PolyCache.Duration
import PolyCache.Proofs.Binary64.Rounding

-- Longer spans are not fewer seconds. The seconds and the rest are rounded one after the other, so
-- this has to be seen where a span passes into the next second.
namespace PolyCache.Duration

open Binary64

def second : Nat := 2 ^ 1074

theorem second_eq : Nat.pow 2 1074 = second := by
  unfold second
  generalize 1074 = k
  rfl

def wholeAt (seconds : Nat) : Nat := min (rounded (seconds * second) 1) top

def restAt (nanoseconds : Nat) : Nat :=
  min (rounded (nanoseconds * second) 1000000000) top

theorem wholeAt_mono {s s' : Nat} (h : s ≤ s') : wholeAt s ≤ wholeAt s' := by
  have hr : rounded (s * second) 1 ≤ rounded (s' * second) 1 :=
    rounded_mono (Nat.mul_le_mul_right _ h)
  unfold wholeAt
  omega

theorem restAt_mono {n n' : Nat} (h : n ≤ n') : restAt n ≤ restAt n' := by
  have hr : rounded (n * second) 1000000000 ≤ rounded (n' * second) 1000000000 :=
    rounded_mono (Nat.mul_le_mul_right _ h)
  unfold restAt
  omega

theorem wholeAt_le (s : Nat) : wholeAt s ≤ top := Nat.min_le_right _ _

theorem le_wholeAt {s m : Nat} (hr : m ≤ rounded (s * second) 1) (ht : m ≤ top) :
    m ≤ wholeAt s :=
  Nat.le_min.mpr ⟨hr, ht⟩

theorem restAt_le (n : Nat) : restAt n ≤ top := Nat.min_le_right _ _

theorem ofSeconds_eq (s n : Nat) :
    ofSeconds s n = withSign false (sumAt (wholeAt s) (restAt n)) := by
  unfold ofSeconds Binary64.ofNat nearest
  rw [second_eq, nearestUnits_eq, nearestUnits_eq]
  exact add_withSign (wholeAt_le s) (restAt_le n)

-- Whole seconds are exact as long as they have no more than 53 digits.
theorem unitsAt_wholeAt_le {s : Nat} (h : s < 2 ^ 53) : unitsAt (wholeAt s) ≤ s * second := by
  have hexact : unitsAt (rounded (s * second) 1) = s * second := unitsAt_rounded_mul h 1074
  calc unitsAt (wholeAt s) ≤ unitsAt (rounded (s * second) 1) :=
        unitsAt_mono (Nat.min_le_left _ _)
    _ = s * second := hexact

-- Less than a second stays below one when it is rounded.
theorem restAt_lt {n : Nat} (h : n < 1000000000) : restAt n < 1023 * 2 ^ 52 := by
  have hlast : restAt 999999999 < 1023 * 2 ^ 52 := by decide +kernel
  exact Nat.lt_of_le_of_lt (restAt_mono (by omega)) hlast

theorem unitsAt_restAt_lt {n : Nat} (h : n < 1000000000) : unitsAt (restAt n) < second := by
  have hlast : unitsAt (1023 * 2 ^ 52 - 1) < second := by decide +kernel
  have hlt := restAt_lt h
  exact Nat.lt_of_le_of_lt (unitsAt_mono (by omega)) hlast

-- Seconds of more than 53 digits lie at least two apart, so the rest is lost on them.
theorem sumAt_wholeAt {s n : Nat} (hs : 2 ^ 53 ≤ s) (hn : n < 1000000000) :
    sumAt (wholeAt s) (restAt n) = wholeAt s := by
  have hrest := unitsAt_restAt_lt hn
  have hlt := restAt_lt hn
  have hbig : 1076 * 2 ^ 52 ≤ wholeAt s := by
    have hfirst : 1076 * 2 ^ 52 ≤ wholeAt (2 ^ 53) := by decide +kernel
    exact Nat.le_trans hfirst (wholeAt_mono hs)
  have htop : top = 2047 * 2 ^ 52 := rfl
  unfold sumAt
  by_cases hw : wholeAt s = top
  · rw [if_pos (Or.inl hw), hw]
  · have hhalf : 2 * unitsAt (restAt n) < 2 ^ (wholeAt s / 2 ^ 52 - 1) :=
      two_mul_lt_two_pow hrest (by omega)
    rw [if_neg (by omega), rounded_unitsAt hhalf, Nat.min_eq_left (wholeAt_le s)]

-- What is left of a second never reaches beyond the next one.
theorem sumAt_le_next {s n : Nat} (hn : n < 1000000000) :
    sumAt (wholeAt s) (restAt n) ≤ wholeAt (s + 1) := by
  rcases Nat.lt_or_ge s (2 ^ 53) with hs | hs
  · have hlt := restAt_lt hn
    have htop : top = 2047 * 2 ^ 52 := rfl
    unfold sumAt
    by_cases hw : wholeAt s = top
    · rw [if_pos (Or.inl hw), ← hw]
      exact wholeAt_mono (Nat.le_succ s)
    · rw [if_neg (by omega)]
      have hround : rounded (unitsAt (wholeAt s) + unitsAt (restAt n)) 1 ≤
          rounded ((s + 1) * second) 1 := by
        apply rounded_mono
        rw [Nat.succ_mul]
        exact Nat.add_le_add (unitsAt_wholeAt_le hs) (Nat.le_of_lt (unitsAt_restAt_lt hn))
      exact le_wholeAt (Nat.le_trans (Nat.min_le_left _ _) hround) (Nat.min_le_right _ _)
  · rw [sumAt_wholeAt hs hn]
    exact wholeAt_mono (Nat.le_succ s)

theorem sumAt_parts_mono {s s' n n' : Nat} (hn : n < 1000000000)
    (h : s < s' ∨ s = s' ∧ n ≤ n') :
    sumAt (wholeAt s) (restAt n) ≤ sumAt (wholeAt s') (restAt n') := by
  rcases h with hlt | ⟨rfl, hle⟩
  · calc sumAt (wholeAt s) (restAt n) ≤ wholeAt (s + 1) := sumAt_le_next hn
      _ ≤ wholeAt s' := wholeAt_mono hlt
      _ = sumAt (wholeAt s') 0 := (sumAt_zero (wholeAt_le s')).symm
      _ ≤ sumAt (wholeAt s') (restAt n') := sumAt_mono (Nat.zero_le _) (restAt_le n')
  · exact sumAt_mono (restAt_mono hle) (restAt_le n')

def place (d : Duration) : Nat := sumAt (wholeAt d.wholeSeconds) (restAt d.subsecondNanoseconds)

theorem place_le (d : Duration) : d.place ≤ top := sumAt_le _ _

theorem place_mono {d d' : Duration} (h : d.nanoseconds ≤ d'.nanoseconds) : d.place ≤ d'.place := by
  unfold place wholeSeconds subsecondNanoseconds
  apply sumAt_parts_mono <;> omega

theorem lt_iff_place (d d' : Duration) :
    d.toBinary64.lt d'.toBinary64 = decide (d.place < d'.place) := by
  have heq (d : Duration) : d.toBinary64 = withSign false d.place := ofSeconds_eq _ _
  rw [heq, heq, Binary64.lt, isNaN_withSign (place_le d), isNaN_withSign (place_le d'),
    orderKey_withSign (place_le d), orderKey_withSign (place_le d')]
  simp

end PolyCache.Duration
