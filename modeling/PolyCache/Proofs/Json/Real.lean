import PolyCache.Proofs.Binary64.Decimal
import PolyCache.Proofs.Json.Number

-- Numbers with a point or an exponent. All digits that 64 bits hold are read, and the number is out
-- of range only if the double of these digits, multiplied by the power of ten, is infinite.
namespace PolyCache.Json

open Grammar Skip

variable {negative : Bool} {rest : Bytes}

-- Exponents as they are printed, always with a sign, and the power of ten that they stand for.
inductive Shift : Bytes → Int → Prop where
  | none : Shift [] 0
  | raised {ds : Bytes} (digits : Digits ds) (fits : spelled 0 ds ≤ maxExponent) :
      Shift (0x65 :: 0x2B :: ds) (spelled 0 ds)
  | lowered {ds : Bytes} (digits : Digits ds) (fits : spelled 0 ds ≤ maxExponent) :
      Shift (0x65 :: 0x2D :: ds) (-spelled 0 ds)

theorem Shift.exponent {text : Bytes} {shift : Int} (h : Shift text shift) : Exponent text := by
  cases h with
  | none => exact .none
  | raised digits fits => exact .marked (.inl rfl) .plus digits
  | lowered digits fits => exact .marked (.inl rfl) .minus digits

theorem Shift.endsDigits {text : Bytes} {shift : Int} (h : Shift text shift)
    (hrest : EndsNumber rest) : EndsDigits (text ++ rest) := by
  cases h with
  | none => exact endsDigits_of_endsNumber hrest
  | raised digits fits => exact endsDigits_cons (by decide)
  | lowered digits fits => exact endsDigits_cons (by decide)

theorem readExponentDigits_spelled {significand : Nat} {start : Int} {lowered : Bool} {e : Nat}
    {digits : Bytes} (hdigits : ∀ b ∈ digits, IsDigit b) (hfits : spelled e digits ≤ maxExponent)
    (hrest : EndsNumber rest) :
    readExponentDigits negative significand start lowered e (digits ++ rest) =
      realOfParts negative significand
        (if lowered then start - spelled e digits else start + spelled e digits) rest := by
  induction digits generalizing e with
  | nil =>
      cases rest with
      | nil => rfl
      | cons b rest =>
          have hb := (endsDigits_of_endsNumber hrest).not_isDigit
          simp [readExponentDigits, hb, spelled, readExponentDigits.total]
  | cons b digits ih =>
      obtain ⟨hb, hmore⟩ := List.forall_mem_cons.mp hdigits
      have hle := le_spelled (e * 10 + digitValue b) digits
      have hnext : ¬maxExponent < e * 10 + digitValue b := Nat.not_lt.mpr (Nat.le_trans hle hfits)
      rw [List.cons_append, readExponentDigits, if_pos (isDigit_iff.mpr hb)]
      dsimp only
      rw [if_neg hnext]
      exact ih hmore hfits

theorem readExponent_signed {significand : Nat} {start : Int} {sign : UInt8} {digits : Bytes}
    (hsign : sign = 0x2B ∨ sign = 0x2D) (hdigits : Digits digits)
    (hfits : spelled 0 digits ≤ maxExponent) (hrest : EndsNumber rest) :
    readExponent negative significand start (sign :: (digits ++ rest)) =
      realOfParts negative significand
        (if sign = 0x2D then start - spelled 0 digits else start + spelled 0 digits) rest := by
  obtain ⟨hne, hdigits⟩ := hdigits
  cases digits with
  | nil => exact absurd rfl hne
  | cons b digits =>
      obtain ⟨hb, hmore⟩ := List.forall_mem_cons.mp hdigits
      have hvalue : spelled 0 (b :: digits) = spelled (digitValue b) digits := by
        rw [spelled, spelled, List.foldl_cons, Nat.zero_mul, Nat.zero_add]
      rw [hvalue] at hfits ⊢
      rcases hsign with rfl | rfl
      · simp [readExponent, isDigit_iff.mpr hb, readExponentDigits_spelled hmore hfits hrest]
      · simp [readExponent, isDigit_iff.mpr hb, readExponentDigits_spelled hmore hfits hrest]

theorem readExponent_shift {significand : Nat} {start : Int} {mark : UInt8} {text : Bytes}
    {shift : Int} (h : Shift (mark :: text) shift) (hrest : EndsNumber rest) :
    isExponentMark mark = true ∧ readExponent negative significand start (text ++ rest) =
      realOfParts negative significand (start + shift) rest := by
  cases h with
  | raised digits fits =>
      exact ⟨by decide, readExponent_signed (.inl rfl) digits fits hrest⟩
  | lowered digits fits =>
      exact ⟨by decide, readExponent_signed (.inr rfl) digits fits hrest⟩

theorem readScale_shift {significand : Nat} {exponent : Int} {text : Bytes} {shift : Int}
    (h : Shift text shift) (hrest : EndsNumber rest) :
    readScale negative significand exponent (text ++ rest) =
      realOfParts negative significand (exponent + shift) rest := by
  cases text with
  | nil =>
      cases h
      rw [Int.add_zero, List.nil_append]
      unfold readScale
      cases rest with
      | nil => rfl
      | cons b rest =>
          have hmark : isExponentMark b = false := by
            simpa [Bool.eq_false_iff, isExponentMark_iff] using (hrest b rfl).2.2
          simp [hmark]
  | cons mark text =>
      obtain ⟨hmark, hread⟩ := readExponent_shift h hrest
      rw [List.cons_append]
      unfold readScale
      simp only [hmark, if_true]
      exact hread

-- Each decimal lowers the exponent by one.
theorem readDecimals_spelled {significand : Nat} {exponent : Int} {any : Bool} {digits text : Bytes}
    {shift : Int} (hdigits : ∀ b ∈ digits, IsDigit b) (hany : any = true ∨ digits ≠ [])
    (hfits : spelled significand digits ≤ maxUnsigned) (h : Shift text shift)
    (hrest : EndsNumber rest) :
    readDecimals negative significand exponent any (digits ++ (text ++ rest)) =
      realOfParts negative (spelled significand digits) (exponent - digits.length + shift)
        rest := by
  induction digits generalizing significand exponent any with
  | nil =>
      have hany := hany.resolve_right (by simp)
      have hscale : readScale negative significand exponent (text ++ rest) = _ :=
        readScale_shift h hrest
      have hends := h.endsDigits hrest
      rw [List.nil_append, List.length_nil]
      show _ = realOfParts negative significand (exponent - 0 + shift) rest
      rw [Int.sub_zero, ← hscale]
      generalize text ++ rest = bytes at hends
      cases bytes with
      | nil => simp [readDecimals, hany]
      | cons b bytes => simp [readDecimals, hany, hends.not_isDigit]
  | cons b digits ih =>
      obtain ⟨hb, hmore⟩ := List.forall_mem_cons.mp hdigits
      have hle := le_spelled (significand * 10 + digitValue b) digits
      have hnext : ¬maxUnsigned < significand * 10 + digitValue b :=
        Nat.not_lt.mpr (Nat.le_trans hle hfits)
      rw [List.cons_append, readDecimals, if_pos (isDigit_iff.mpr hb)]
      dsimp only
      rw [if_neg hnext, ih hmore (.inl rfl) hfits, List.length_cons]
      congr 1
      omega

-- Texts of a significand and a power of ten with at least a point or an exponent.
inductive Written : Bytes → (significand : Nat) → (exponent : Int) → Prop where
  | decimals {ws ds text : Bytes} {shift : Int} (whole : Whole ws) (digits : Digits ds)
      (shifted : Shift text shift) :
      Written (ws ++ (0x2E :: ds ++ text)) (spelled 0 (ws ++ ds)) (shift - ds.length)
  | marked {ws text : Bytes} {mark : UInt8} {shift : Int} (whole : Whole ws)
      (shifted : Shift (mark :: text) shift) :
      Written (ws ++ mark :: text) (spelled 0 ws) shift

theorem Written.unsigned {text : Bytes} {n : Nat} {e : Int} (h : Written text n e) :
    Unsigned text := by
  cases h with
  | decimals whole digits shifted => exact .parts whole (.decimals digits) shifted.exponent
  | marked whole shifted => exact .parts whole .none shifted.exponent

theorem spelled_append (n : Nat) (ds es : Bytes) :
    spelled n (ds ++ es) = spelled (spelled n ds) es :=
  List.foldl_append

theorem Written.reads {text : Bytes} {n : Nat} {e : Int} (h : Written text n e)
    (hfits : n ≤ maxUnsigned) (hrest : EndsNumber rest) :
    readUnsigned negative (text ++ rest) = asReal (realOfParts negative n e rest) := by
  cases h with
  | @decimals ws ds text shift whole digits shifted =>
      rw [spelled_append] at hfits ⊢
      have hread : readDecimals negative (spelled 0 ws) 0 false (ds ++ (text ++ rest)) = _ :=
        readDecimals_spelled digits.2 (.inr digits.1) hfits shifted hrest
      have hwhole : spelled 0 ws ≤ maxUnsigned := Nat.le_trans (le_spelled _ ds) hfits
      rw [List.append_assoc, List.cons_append, List.cons_append, List.append_assoc,
        readUnsigned_whole whole hwhole (endsDigits_cons (by decide)), endWhole, if_pos rfl, hread]
      congr 2
      omega
  | @marked ws text mark shift whole shifted =>
      have hread : isExponentMark mark = true ∧
          readExponent negative (spelled 0 ws) 0 (text ++ rest) = _ :=
        readExponent_shift shifted hrest
      obtain ⟨hmark, hread⟩ := hread
      have hpoint : mark ≠ 0x2E := by
        rintro rfl
        exact absurd hmark (by decide)
      have hends := shifted.endsDigits hrest
      rw [List.cons_append] at hends
      rw [List.append_assoc, List.cons_append, readUnsigned_whole whole hfits hends, endWhole,
        if_neg hpoint, if_pos hmark, hread, Int.zero_add]

section Range

open Binary64

-- The magnitude of the double of a whole number.
def place (n : Nat) : Nat := min (rounded (n * Nat.pow 2 1074) 1) top

-- The magnitude of the product of two doubles that are not negative.
def productAt (a b : Nat) : Nat := rounded (unitsAt a * unitsAt b) (Nat.pow 2 1074)

theorem ofNat_eq (n : Nat) : Binary64.ofNat n = withSign false (place n) := nearestUnits_eq _ _

theorem place_le (n : Nat) : place n ≤ top := Nat.min_le_right _ _

theorem place_mono {m n : Nat} (h : m ≤ n) : place m ≤ place n :=
  Nat.le_min.mpr ⟨Nat.le_trans (Nat.min_le_left _ _) (rounded_mono (Nat.mul_le_mul_right _ h)),
    place_le m⟩

theorem productAt_mono {a a' b b' : Nat} (ha : a ≤ a') (hb : b ≤ b') :
    productAt a b ≤ productAt a' b' :=
  rounded_mono (Nat.mul_le_mul (unitsAt_mono ha) (unitsAt_mono hb))

-- Two whole numbers whose doubles have a finite product.
def InRange (m n : Nat) : Prop :=
  place m < top ∧ place n < top ∧ productAt (place m) (place n) < top

instance (m n : Nat) : Decidable (InRange m n) := inferInstanceAs (Decidable (_ ∧ _))

theorem InRange.mono {m m' n n' : Nat} (h : InRange m' n') (hm : m ≤ m') (hn : n ≤ n') :
    InRange m n :=
  ⟨Nat.lt_of_le_of_lt (place_mono hm) h.1, Nat.lt_of_le_of_lt (place_mono hn) h.2.1,
    Nat.lt_of_le_of_lt (productAt_mono (place_mono hm) (place_mono hn)) h.2.2⟩

theorem InRange.isInfinite {m n : Nat} (h : InRange m n) :
    ((Binary64.ofNat m).mul (Binary64.ofNat n)).isInfinite = false := by
  obtain ⟨hm, hn, hproduct⟩ := h
  rw [ofNat_eq, ofNat_eq, mul, isNaN_withSign (place_le m), isNaN_withSign (place_le n),
    isInfinite_withSign (place_le m), isInfinite_withSign (place_le n),
    isNegative_withSign (place_le m), isNegative_withSign (place_le n),
    units_withSign (place_le m), units_withSign (place_le n)]
  simp only [Nat.ne_of_lt hm, Nat.ne_of_lt hn, decide_false, Bool.or_self, Bool.false_eq_true,
    if_false, bne_self_eq_false]
  rw [nearestUnits_eq, isInfinite_withSign (Nat.min_le_right _ _)]
  have hlt : productAt (place m) (place n) < top := hproduct
  rw [productAt] at hlt
  exact decide_eq_false (by omega)

-- Close to the greatest number, each power of ten is looked at on its own.
theorem inRange_near_greatest : ∀ i < 17, InRange (greatest / 10 ^ (292 + i)) (10 ^ (292 + i)) := by
  decide +kernel

theorem inRange_of_le {n e : Nat} (hn : n ≤ 10 ^ 17) (hvalue : n * 10 ^ e ≤ greatest)
    (he : e ≤ greatestPower) : InRange n (10 ^ e) := by
  rcases Nat.lt_or_ge e 292 with hlt | hge
  · have hfar : InRange (10 ^ 17) (10 ^ 291) := by decide +kernel
    exact hfar.mono hn (pow_le_pow_right₀ (by decide) (by omega))
  · obtain ⟨i, rfl⟩ := Nat.exists_eq_add_of_le hge
    have hi : i < 17 := by
      unfold greatestPower at he
      omega
    have hle : n ≤ greatest / 10 ^ (292 + i) :=
      (Nat.le_div_iff_mul_le (Nat.pow_pos (by decide))).mpr hvalue
    exact (inRange_near_greatest i hi).mono hle (Nat.le_refl _)

theorem ofParts?_isSome {n : Nat} {exponent : Int} (hn : n ≤ 10 ^ 17)
    (hvalue : ∀ e : Nat, exponent = e → n * 10 ^ e ≤ greatest) :
    ∃ x, ofParts? negative n exponent = some x := by
  unfold ofParts?
  dsimp only
  split
  · exact ⟨_, rfl⟩
  · obtain ⟨e, rfl⟩ := Int.eq_ofNat_of_zero_le (Int.not_lt.mp ‹_›)
    rw [Int.natAbs_natCast]
    split
    · rename_i he
      have hfinite := (inRange_of_le hn (hvalue e rfl) he).isInfinite
      rw [powerOfTen, Nat.pow_eq, hfinite, if_neg Bool.false_ne_true]
      exact ⟨_, rfl⟩
    · rename_i he
      have hzero : n = 0 := by
        by_contra hpos
        have he : 309 ≤ e := Nat.lt_of_not_le he
        have hpow : 10 ^ 309 ≤ 10 ^ e := pow_le_pow_right₀ (by decide) he
        have hle : 10 ^ e ≤ n * 10 ^ e := Nat.le_mul_of_pos_left _ (Nat.pos_of_ne_zero hpos)
        have hgreatest : greatest < 10 ^ 309 := by decide +kernel
        exact Nat.not_lt.mpr (Nat.le_trans hpow (Nat.le_trans hle (hvalue e rfl))) hgreatest
      have hisZero : (Binary64.ofNat 0).isZero = true := by decide +kernel
      rw [hzero, if_pos hisZero]
      exact ⟨_, rfl⟩

end Range

end PolyCache.Json
