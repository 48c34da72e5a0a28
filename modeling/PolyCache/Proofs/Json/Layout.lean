import PolyCache.Proofs.Json.Real

-- The texts that finite doubles are printed as, in place or with an exponent. All of them are read.
namespace PolyCache.Json

open Grammar Skip Binary64
open Utf8 (encode_append encode_cons)

variable {negative : Bool} {rest : Bytes}

section Digits

theorem spelled_cons (n : Nat) (b : UInt8) (ds : Bytes) :
    spelled n (b :: ds) = spelled (n * 10 + digitValue b) ds := by
  rw [spelled, spelled, List.foldl_cons]

theorem spelled_zeros (n z : Nat) : spelled n (List.replicate z 0x30) = n * 10 ^ z := by
  induction z generalizing n with
  | zero => rw [Nat.pow_zero, Nat.mul_one]; rfl
  | succ z ih =>
      have hzero : digitValue 0x30 = 0 := rfl
      rw [List.replicate_succ, spelled_cons, ih, hzero, Nat.add_zero, Nat.mul_assoc, Nat.pow_succ']

theorem digitValue_le {b : UInt8} (h : IsDigit b) : digitValue b ≤ 9 := by
  have hle : b.toNat ≤ 0x39 := UInt8.le_iff_toNat_le.mp h.2
  unfold digitValue
  omega

theorem spelled_lt {ds : Bytes} (h : ∀ b ∈ ds, IsDigit b) (n : Nat) :
    spelled n ds < (n + 1) * 10 ^ ds.length := by
  induction ds generalizing n with
  | nil => rw [List.length_nil, Nat.pow_zero, Nat.mul_one]; exact Nat.lt_succ_self n
  | cons b ds ih =>
      obtain ⟨hb, hmore⟩ := List.forall_mem_cons.mp h
      have hvalue := digitValue_le hb
      rw [spelled_cons, List.length_cons, Nat.pow_succ', ← Nat.mul_assoc]
      exact Nat.lt_of_lt_of_le (ih hmore _) (Nat.mul_le_mul_right _ (by omega))

theorem encodeChar_digit {c : Char} (h : c.isDigit = true) :
    ∃ b, Utf8.encodeChar c = [b] ∧ IsDigit b ∧ (b = 0x30 → c = '0') := by
  have hbounds : 48 ≤ c.toNat ∧ c.toNat ≤ 57 := by
    simpa [Char.isDigit, UInt32.le_iff_toNat_le] using h
  have hvalue : c.toNat.toUInt8.toNat = c.toNat := Utf8.toNat_toUInt8 (by omega)
  refine ⟨c.toNat.toUInt8, if_pos (by omega), ?_, ?_⟩
  · rw [IsDigit, UInt8.le_iff_toNat_le, UInt8.le_iff_toNat_le, hvalue]
    exact hbounds
  · intro hzero
    rw [hzero] at hvalue
    exact Char.toNat_inj.mp hvalue.symm

theorem encode_zeros (z : Nat) : Utf8.encode (zeros z) = List.replicate z 0x30 := by
  induction z with
  | zero => rfl
  | succ z ih =>
      rw [zeros, List.replicate_succ, encode_cons, ← zeros, ih, List.replicate_succ]
      rfl

-- Digits take a byte each.
theorem encode_digits {cs : List Char} (h : ∀ c ∈ cs, c.isDigit = true) :
    (∀ b ∈ Utf8.encode cs, IsDigit b) ∧ (Utf8.encode cs).length = cs.length := by
  induction cs with
  | nil => exact ⟨nofun, rfl⟩
  | cons c cs ih =>
      obtain ⟨hc, hmore⟩ := List.forall_mem_cons.mp h
      obtain ⟨b, heq, hb, -⟩ := encodeChar_digit hc
      obtain ⟨hbytes, hlength⟩ := ih hmore
      rw [encode_cons, heq]
      exact ⟨List.forall_mem_cons.mpr ⟨hb, hbytes⟩, congrArg Nat.succ hlength⟩

theorem digits_encode {cs : List Char} (h : ∀ c ∈ cs, c.isDigit = true) (hne : cs ≠ []) :
    Digits (Utf8.encode cs) := by
  obtain ⟨hbytes, hlength⟩ := encode_digits h
  refine ⟨?_, hbytes⟩
  intro hnil
  rw [hnil] at hlength
  exact hne (List.eq_nil_of_length_eq_zero hlength.symm)

theorem whole_encode {c : Char} {cs : List Char} (h : ∀ d ∈ c :: cs, d.isDigit = true)
    (hc : c ≠ '0') : Whole (Utf8.encode (c :: cs)) := by
  have hbytes := (encode_digits h).1
  obtain ⟨b, heq, hb, hzero⟩ := encodeChar_digit (h c List.mem_cons_self)
  rw [encode_cons, heq] at hbytes ⊢
  exact .digits hb (hzero.mt hc) (List.forall_mem_cons.mp hbytes).2

end Digits

section Significant

-- The digits of a positive number without the zeros at its end.
structure Significant (c : Nat) (ds : List Char) (z : Nat) : Prop where
  digits : ∀ d ∈ ds, d.isDigit = true
  split : Nat.toDigits 10 c = ds ++ zeros z
  first : ∃ d more, ds = d :: more ∧ d ≠ '0'

theorem split_zeros (cs : List Char) : ∃ z, cs = dropTrailingZeros cs ++ zeros z := by
  have hsplit := List.takeWhile_append_dropWhile (p := (· == '0')) (l := cs.reverse)
  have hzeros :
      cs.reverse.takeWhile (· == '0') = zeros (cs.reverse.takeWhile (· == '0')).length := by
    refine List.eq_replicate_of_mem fun d hd => ?_
    simpa using List.mem_takeWhile_imp hd
  refine ⟨(cs.reverse.takeWhile (· == '0')).length, ?_⟩
  rw [hzeros] at hsplit
  have hback := congrArg List.reverse hsplit
  rw [List.reverse_append, List.reverse_reverse, zeros, List.reverse_replicate] at hback
  exact hback.symm

theorem exists_significant {c : Nat} (hc : 0 < c) :
    ∃ z, Significant c (dropTrailingZeros (Nat.toDigits 10 c)) z := by
  obtain ⟨z, hsplit⟩ := split_zeros (Nat.toDigits 10 c)
  generalize dropTrailingZeros (Nat.toDigits 10 c) = ds at hsplit ⊢
  have hdigits : ∀ d ∈ ds, d.isDigit = true := fun d hd =>
    Nat.isDigit_of_mem_toDigits (by decide) (by decide)
      (hsplit ▸ List.mem_append_left _ hd)
  obtain ⟨b, bytes, hfirst, hb⟩ := decimal_first (Nat.ne_of_gt hc)
  have hbytes : Utf8.encode (Nat.toDigits 10 c) = b :: bytes := by
    rw [← hfirst, decimal, Utf8.ofString, Nat.toList_repr]
  refine ⟨z, hdigits, hsplit, ?_⟩
  cases ds with
  | nil =>
      rw [hsplit, List.nil_append, encode_zeros] at hbytes
      have hmem : b ∈ List.replicate z 0x30 := hbytes ▸ List.mem_cons_self
      exact absurd (List.eq_of_mem_replicate hmem) hb
  | cons d more =>
      refine ⟨d, more, rfl, ?_⟩
      rintro rfl
      rw [hsplit, List.cons_append, encode_cons] at hbytes
      exact hb (List.cons.inj hbytes).1.symm

variable {c z : Nat} {ds : List Char}

theorem Significant.spelled (h : Significant c ds z) : spelled 0 (Utf8.encode ds) * 10 ^ z = c := by
  have hdecimal : decimal c = Utf8.encode ds ++ List.replicate z 0x30 := by
    rw [← encode_zeros, ← encode_append, ← h.split, decimal, Utf8.ofString, Nat.toList_repr]
  rw [← spelled_zeros, ← spelled_append, ← hdecimal, spelled_decimal]

theorem Significant.length (h : Significant c ds z) :
    (Nat.toDigits 10 c).length = ds.length + z := by
  rw [h.split, List.length_append, zeros, List.length_replicate]

end Significant

section Layouts

-- A text that is read as a double, with either sign before it.
def IsRead (text : Bytes) : Prop :=
  ∃ n e, Written text n e ∧ n ≤ maxUnsigned ∧
    ∀ negative, ∃ x, ofParts? negative n e = some x

theorem ofParts?_of_neg {n : Nat} {e : Int} (he : e < 0) : ∃ x, ofParts? negative n e = some x :=
  ⟨_, if_pos he⟩

theorem spelled_le {ds : Bytes} (h : ∀ b ∈ ds, IsDigit b) (hlength : ds.length ≤ 18) :
    spelled 0 ds ≤ maxUnsigned := by
  have hlt := spelled_lt h 0
  have hpow : 10 ^ ds.length ≤ 10 ^ 18 := Nat.pow_le_pow_right (by decide) hlength
  have hmax : 10 ^ 18 ≤ maxUnsigned := by decide
  omega

-- With a point and no exponent, nothing is out of range.
theorem isRead_decimals {ws ds : Bytes} (whole : Whole ws) (digits : Digits ds)
    (hfits : spelled 0 (ws ++ ds) ≤ maxUnsigned) : IsRead (ws ++ 0x2E :: ds) := by
  have hwritten := Written.decimals whole digits .none
  have hpos : 0 < ds.length := List.length_pos_iff.mpr digits.1
  rw [List.append_nil] at hwritten
  exact ⟨_, _, hwritten, hfits, fun negative => ofParts?_of_neg (by omega)⟩

theorem isDigit_zeros {n : Nat} : ∀ d ∈ zeros n, d.isDigit = true := by
  intro d hd
  rw [List.eq_of_mem_replicate hd]
  rfl

-- The digits stand behind the point, after zeros.
theorem isRead_fraction (h : Significant c ds z) (hlength : ds.length ≤ 18) {leading : Int}
    (hleading : leading < 0) : IsRead (Utf8.encode (positional ds leading)) := by
  obtain ⟨d, more, rfl, -⟩ := h.first
  obtain ⟨hdigits, hbytes⟩ := encode_digits h.digits
  have hpos : Utf8.encode (d :: more) ≠ [] := (digits_encode h.digits (List.cons_ne_nil d more)).1
  rw [positional, if_pos hleading, encode_append, encode_append, encode_zeros]
  generalize (-leading).toNat - 1 = j
  show IsRead ([0x30] ++ 0x2E :: (List.replicate j 0x30 ++ Utf8.encode (d :: more)))
  refine isRead_decimals .zero ⟨List.append_ne_nil_of_right_ne_nil _ hpos, ?_⟩ ?_
  · intro b hb
    rcases List.mem_append.mp hb with hb | hb
    · rw [List.eq_of_mem_replicate hb]
      decide
    · exact hdigits b hb
  · have hzeros : spelled 0 ([0x30] ++ List.replicate j 0x30) = 0 := by
      rw [spelled_append, spelled_zeros]
      exact Nat.zero_mul _
    rw [← List.append_assoc, spelled_append, hzeros]
    exact spelled_le hdigits (by omega)

-- The point stands among the digits or behind them.
theorem isRead_positional (h : Significant c ds z) (hlength : ds.length ≤ 18) {leading : Int}
    (hleading : 0 ≤ leading) (hmost : leading ≤ 15) :
    IsRead (Utf8.encode (positional ds leading)) := by
  obtain ⟨d, more, rfl, hd⟩ := h.first
  obtain ⟨w, rfl⟩ := Int.eq_ofNat_of_zero_le hleading
  obtain ⟨hfirst, hmore⟩ := List.forall_mem_cons.mp h.digits
  rw [positional, if_neg (Int.not_lt.mpr hleading), Int.toNat_natCast]
  dsimp only
  generalize hdecimals : (if ((d :: more).drop (w + 1)).isEmpty then ['0']
    else (d :: more).drop (w + 1)) = decimals
  have hdecimals : (∀ e ∈ decimals, e.isDigit = true) ∧ decimals ≠ [] ∧
      decimals.length ≤ max 1 (more.length - w) := by
    subst hdecimals
    split
    · exact ⟨by simp, by simp, by simp⟩
    · rename_i hne
      exact ⟨fun e he => h.digits e (List.mem_of_mem_drop he), by simpa using hne, by simp⟩
  obtain ⟨hdigits, hpos, hshort⟩ := hdecimals
  have hwhole : ∀ e ∈ d :: (more.take w ++ zeros (w + 1 - (d :: more).length)),
      e.isDigit = true := by
    refine List.forall_mem_cons.mpr ⟨hfirst, fun e he => ?_⟩
    rcases List.mem_append.mp he with he | he
    · exact hmore e (List.mem_of_mem_take he)
    · exact isDigit_zeros e he
  have htext : Utf8.encode ((d :: more).take (w + 1) ++ zeros (w + 1 - (d :: more).length) ++
      '.' :: decimals) = Utf8.encode (d :: (more.take w ++ zeros (w + 1 - (d :: more).length))) ++
        0x2E :: Utf8.encode decimals := encode_append _ _
  rw [htext]
  refine isRead_decimals (whole_encode hwhole hd) (digits_encode hdigits hpos) ?_
  rw [← encode_append]
  have hall := List.forall_mem_append.mpr ⟨hwhole, hdigits⟩
  refine spelled_le (encode_digits hall).1 ?_
  rw [(encode_digits hall).2]
  simp only [List.length_append, List.length_cons, List.length_take, zeros, List.length_replicate]
    at hlength ⊢
  omega

def exponentText (leading : Int) : List Char :=
  'e' :: (if leading < 0 then ['-'] else ['+']) ++ Nat.toDigits 10 leading.natAbs

theorem scientific_cons (d : Char) (more : List Char) (leading : Int) :
    scientific .json (d :: more) leading =
      d :: ((if more.isEmpty then [] else '.' :: more) ++ exponentText leading) := by
  rw [scientific, exponentText, List.append_assoc, List.append_assoc]
  rfl

theorem shift_printed {leading : Int} (h : leading.natAbs ≤ maxExponent) :
    ∃ text, Utf8.encode (exponentText leading) = 0x65 :: text ∧ Shift (0x65 :: text) leading := by
  have hdecimal : Utf8.encode (Nat.toDigits 10 leading.natAbs) = decimal leading.natAbs := by
    rw [decimal, Utf8.ofString, Nat.toList_repr]
  have hdigits : Digits (decimal leading.natAbs) :=
    hdecimal ▸ digits_encode (fun d hd => Nat.isDigit_of_mem_toDigits (by decide) (by decide) hd)
      Nat.toDigits_ne_nil
  have hspelled := spelled_decimal leading.natAbs
  have hfits : spelled 0 (decimal leading.natAbs) ≤ maxExponent := hspelled.symm ▸ h
  rw [exponentText, encode_append, hdecimal]
  by_cases hneg : leading < 0
  · have hshift := Shift.lowered hdigits hfits
    have habs : -(leading.natAbs : Int) = leading := by omega
    rw [hspelled, habs] at hshift
    rw [if_pos hneg]
    exact ⟨0x2D :: decimal leading.natAbs, rfl, hshift⟩
  · have hshift := Shift.raised hdigits hfits
    have habs : (leading.natAbs : Int) = leading := by omega
    rw [hspelled, habs] at hshift
    rw [if_neg hneg]
    exact ⟨0x2B :: decimal leading.natAbs, rfl, hshift⟩

-- The power of ten is the one of the coefficient and of the zeros that have been left out of it.
theorem ofParts?_significant {k : Int} (h : Significant c ds z) (hd : Decimal.IsPrintable ⟨c, k⟩) :
    ∃ x, ofParts? negative (spelled 0 (Utf8.encode ds)) (k + z) = some x := by
  have hspelled := h.spelled
  have hc : c ≤ 10 ^ 17 := hd.coefficient
  have hle : spelled 0 (Utf8.encode ds) ≤ c :=
    hspelled ▸ Nat.le_mul_of_pos_right _ (Nat.pow_pos (by decide))
  refine ofParts?_isSome (Nat.le_trans hle hc) fun e he => ?_
  rcases Int.le_total 0 k with hk | hk
  · obtain ⟨j, rfl⟩ := Int.eq_ofNat_of_zero_le hk
    have he : e = z + j := by omega
    have hvalue : c * 10 ^ j ≤ greatest := hd.value j rfl
    rw [he, Nat.pow_add, ← Nat.mul_assoc, hspelled]
    exact hvalue
  · have he : e ≤ z := by omega
    have hgreatest : 10 ^ 17 ≤ greatest := by decide +kernel
    calc spelled 0 (Utf8.encode ds) * 10 ^ e
        ≤ spelled 0 (Utf8.encode ds) * 10 ^ z :=
          Nat.mul_le_mul_left _ (Nat.pow_le_pow_right (by decide) he)
      _ = c := hspelled
      _ ≤ greatest := Nat.le_trans hc hgreatest

-- One digit stands before the point, and the exponent is that of this digit.
theorem isRead_scientific (h : Significant c ds z) {k : Int} (hd : Decimal.IsPrintable ⟨c, k⟩)
    (hlength : ds.length ≤ 18) (hz : z ≤ 18) :
    IsRead (Utf8.encode (scientific .json ds (k + (ds.length + z : Nat) - 1))) := by
  obtain ⟨d, more, rfl, hnonzero⟩ := h.first
  have hparts : ∀ negative, ∃ x, ofParts? negative _ (k + z) = some x :=
    fun negative => ofParts?_significant h hd
  have hfits := spelled_le (encode_digits h.digits).1 (by rwa [(encode_digits h.digits).2])
  obtain ⟨hfirst, hmore⟩ := List.forall_mem_cons.mp h.digits
  have hwhole : Whole (Utf8.encode [d]) := whole_encode (by simpa using hfirst) hnonzero
  have hleading : (k + ((d :: more).length + z : Nat) - 1).natAbs ≤ maxExponent := by
    have hexponent : k.natAbs ≤ 1016 := hd.exponent
    have hmax : 2000 ≤ maxExponent := by decide
    omega
  obtain ⟨text, htext, hshift⟩ := shift_printed hleading
  rw [scientific_cons]
  cases more with
  | nil =>
      have hk : k + ([d].length + z : Nat) - 1 = k + z := by
        rw [List.length_singleton]
        omega
      rw [hk] at htext hshift ⊢
      show IsRead (Utf8.encode ([d] ++ exponentText (k + z)))
      rw [encode_append, htext]
      exact ⟨_, _, .marked hwhole hshift, hfits, hparts⟩
  | cons m more =>
      have hdigits := digits_encode hmore (List.cons_ne_nil m more)
      have hk : k + ((d :: m :: more).length + z : Nat) - 1 -
          (Utf8.encode (m :: more)).length = k + z := by
        rw [(encode_digits hmore).2]
        simp only [List.length_cons]
        omega
      have hwritten := Written.decimals hwhole hdigits hshift
      rw [hk, ← encode_append, ← htext] at hwritten
      show IsRead (Utf8.encode ([d] ++ ('.' :: (m :: more) ++ exponentText _)))
      rw [encode_append, encode_append]
      exact ⟨_, _, hwritten, hfits, hparts⟩

theorem isRead_zero : IsRead (Utf8.encode "0.0".toList) :=
  isRead_decimals .zero ⟨List.cons_ne_nil 0x30 [], List.forall_mem_singleton.mpr (by decide)⟩
    (by decide)

theorem isRead_magnitude {x : Binary64} (h : x.magnitude < top) :
    IsRead (Utf8.encode (magnitudeText .json x)) := by
  by_cases hzero : x.isZero = true
  · rw [magnitudeText, if_pos hzero]
    exact isRead_zero
  have hd := shortest_isPrintable h (Bool.eq_false_iff.mpr hzero)
  have htie : Style.json.tie = .even := rfl
  have hleast : Style.json.leastPositional = -5 := rfl
  have hgreatest : Style.json.greatestPositional = 15 := rfl
  rw [magnitudeText, if_neg hzero, htie, hleast, hgreatest]
  generalize shortest .even x = d at hd ⊢
  obtain ⟨c, k⟩ := d
  rcases Nat.eq_zero_or_pos c with rfl | hc
  · obtain rfl : k = 0 := hd.zero rfl
    exact isRead_zero
  obtain ⟨z, hs⟩ := exists_significant hc
  have hlength : (Nat.toDigits 10 c).length ≤ 18 :=
    (digitCount_le_iff (by decide)).mpr (Nat.lt_of_le_of_lt hd.coefficient (by decide))
  rw [hs.length] at hlength
  dsimp only
  rw [hs.length]
  split
  · rename_i hplace
    simp only [Bool.and_eq_true, decide_eq_true_eq] at hplace
    rcases lt_or_ge (k + ((dropTrailingZeros (Nat.toDigits 10 c)).length + z : Nat) - 1) 0 with
      hneg | hpos
    · exact isRead_fraction hs (by omega) hneg
    · exact isRead_positional hs (by omega) hpos hplace.2
  · exact isRead_scientific hs hd (by omega) (by omega)

end Layouts

-- A text that is read as a double, wherever it stands.
theorem IsRead.signed {text : Bytes} (h : IsRead text) (negative : Bool) :
    Grammar.Number (if negative then 0x2D :: text else text) ∧ ∃ y, ∀ rest, EndsNumber rest →
      readNumber ((if negative then 0x2D :: text else text) ++ rest) = .ok (.real y, rest) := by
  obtain ⟨n, e, hwritten, hfits, hparts⟩ := h
  obtain ⟨y, hy⟩ := hparts negative
  have hreads (rest : Bytes) (hrest : EndsNumber rest) :
      readUnsigned negative (text ++ rest) = .ok (.real y, rest) := by
    rw [hwritten.reads hfits hrest, realOfParts, hy]
    rfl
  cases negative with
  | true =>
      refine ⟨.negative hwritten.unsigned, y, fun rest hrest => ?_⟩
      rw [if_pos rfl, List.cons_append, readNumber, if_pos rfl]
      exact hreads rest hrest
  | false =>
      refine ⟨.positive hwritten.unsigned, y, fun rest hrest => ?_⟩
      obtain ⟨b, bytes, rfl, hb⟩ := hwritten.unsigned.first
      rw [if_neg Bool.false_ne_true, List.cons_append, readNumber, if_neg (hb.ne (by decide))]
      exact hreads rest hrest

theorem readNumber_printBinary64 {x : Binary64} (h : x.IsFinite) :
    Grammar.Number (printBinary64 x) ∧ ∃ y, ∀ rest, EndsNumber rest →
      readNumber (printBinary64 x ++ rest) = .ok (.real y, rest) := by
  have htext : printBinary64 x = if x.isNegative then 0x2D :: Utf8.encode (magnitudeText .json x)
      else Utf8.encode (magnitudeText .json x) := by
    rw [printBinary64, text, h.1, h.2, Utf8.ofString, if_neg Bool.false_ne_true,
      if_neg Bool.false_ne_true, String.toList_append, String.toList_ofList]
    cases x.isNegative <;> rfl
  rw [htext]
  exact (isRead_magnitude (isFinite_iff.mp h)).signed x.isNegative

theorem printBinary64_of_not_finite {x : Binary64} (h : ¬x.IsFinite) :
    printBinary64 x = nullText := by
  have hcases : x.isNaN = true ∨ x.isInfinite = true := by
    rw [IsFinite, Classical.not_and_iff_not_or_not] at h
    simpa using h
  have hnull : Utf8.ofString "null" = nullText := by decide
  unfold printBinary64 text
  rcases hcases with hnan | hinfinite
  · rw [if_pos hnan]
    exact hnull
  · rw [if_pos hinfinite]
    split
    · exact hnull
    · exact hnull

end PolyCache.Json
