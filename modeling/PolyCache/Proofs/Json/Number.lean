import Mathlib.Algebra.Group.Int.Defs
import Mathlib.Algebra.Group.Nat.Defs
import PolyCache.Json.Tree
import PolyCache.Proofs.Json.Skip
import PolyCache.Proofs.Text.Utf8

-- A whole number that 64 bits hold, with or without a sign, is printed as one of the grammar and
-- read back as it was.
namespace PolyCache.Json

open Grammar Skip

def decimal (n : Nat) : Bytes := Utf8.ofString n.repr

theorem printInt_negSucc (n : Nat) : printInt (Int.negSucc n) = 0x2D :: decimal (n + 1) := by
  show Utf8.encode ("-" ++ (n + 1).repr).toList = _
  rw [String.toList_append]
  rfl

theorem decimal_digit {d : Nat} (h : d < 10) : decimal d = [(0x30 + d).toUInt8] := by
  decide +revert

theorem decimal_step {n : Nat} (h : ¬n < 10) :
    decimal n = decimal (n / 10) ++ decimal (n % 10) := by
  have hlast : n % 10 < 10 := Nat.mod_lt _ (by decide)
  simp only [decimal, Utf8.ofString, Nat.toList_repr]
  rw [Nat.toDigits_eq_if (by decide), if_neg h, Nat.toDigits_of_lt_base hlast]
  exact List.flatMap_append

theorem isDigit_toUInt8 {d : Nat} (h : d < 10) : IsDigit (0x30 + d).toUInt8 := by
  decide +revert

theorem isDigit_decimal (n : Nat) : ∀ b ∈ decimal n, IsDigit b := by
  induction n using Nat.strongRecOn with
  | ind n ih =>
      by_cases h : n < 10
      · rw [decimal_digit h, List.forall_mem_singleton]
        exact isDigit_toUInt8 h
      · rw [decimal_step h]
        intro b hb
        rcases List.mem_append.mp hb with hb | hb
        · exact ih _ (by omega) b hb
        · exact ih _ (by omega) b hb

theorem decimal_first {n : Nat} (h : n ≠ 0) : ∃ b ds, decimal n = b :: ds ∧ b ≠ 0x30 := by
  induction n using Nat.strongRecOn with
  | ind n ih =>
      by_cases hn : n < 10
      · refine ⟨_, [], decimal_digit hn, ?_⟩
        clear ih
        revert h
        decide +revert
      · obtain ⟨b, ds, heq, hb⟩ := ih (n / 10) (by omega) (by omega)
        exact ⟨b, ds ++ decimal (n % 10), by rw [decimal_step hn, heq]; rfl, hb⟩

theorem whole_decimal (n : Nat) : Whole (decimal n) := by
  by_cases h : n = 0
  · subst h
    exact .zero
  · obtain ⟨b, ds, heq, hb⟩ := decimal_first h
    have hdigits := isDigit_decimal n
    rw [heq, List.forall_mem_cons] at hdigits
    rw [heq]
    exact .digits hdigits.1 hb hdigits.2

theorem unsigned_decimal (n : Nat) : Unsigned (decimal n) := by
  have h := Unsigned.parts (whole_decimal n) .none .none
  rwa [List.append_nil, List.append_nil] at h

theorem number_printInt (n : Int) : Grammar.Number (printInt n) := by
  cases n with
  | ofNat n => exact .positive (unsigned_decimal n)
  | negSucc n =>
      rw [printInt_negSucc]
      exact .negative (unsigned_decimal (n + 1))

-- The number that digits spell behind other digits.
def spelled (n : Nat) (digits : Bytes) : Nat := digits.foldl (fun n b => n * 10 + digitValue b) n

theorem spelled_decimal (n : Nat) : spelled 0 (decimal n) = n := by
  induction n using Nat.strongRecOn with
  | ind n ih =>
      by_cases h : n < 10
      · clear ih
        decide +revert
      · have hlast : spelled (n / 10) (decimal (n % 10)) = n := by
          have hd : n % 10 < 10 := Nat.mod_lt _ (by decide)
          have hv : digitValue (0x30 + n % 10).toUInt8 = n % 10 := by
            rw [digitValue, Utf8.toNat_toUInt8 (by omega)]
            omega
          rw [decimal_digit hd]
          show n / 10 * 10 + digitValue _ = n
          rw [hv]
          omega
        rw [decimal_step h, spelled, List.foldl_append]
        show spelled (spelled 0 (decimal (n / 10))) _ = n
        rw [ih _ (by omega), hlast]

theorem le_spelled (n : Nat) (digits : Bytes) : n ≤ spelled n digits := by
  induction digits generalizing n with
  | nil => exact Nat.le_refl n
  | cons b digits ih =>
      have h := ih (n * 10 + digitValue b)
      show n ≤ spelled (n * 10 + digitValue b) digits
      omega

variable {negative : Bool} {rest : Bytes}

theorem endWhole_of_endsNumber (n : Nat) (hrest : EndsNumber rest) :
    endWhole negative n rest = .ok (wholeNumber negative n, rest) := by
  unfold endWhole
  cases rest with
  | nil => rfl
  | cons b rest =>
      obtain ⟨-, hpoint, hmark⟩ := hrest b rfl
      have hmark : isExponentMark b = false := by
        simpa [Bool.eq_false_iff, isExponentMark_iff] using hmark
      simp [hpoint, hmark]

-- What follows the digits that have been read is not another one.
def EndsDigits (rest : Bytes) : Prop := ∀ b ∈ rest.head?, ¬IsDigit b

theorem EndsDigits.not_isDigit {b : UInt8} (h : EndsDigits (b :: rest)) : isDigit b = false := by
  simpa [Bool.eq_false_iff, isDigit_iff] using h b rfl

theorem endsDigits_of_endsNumber (h : EndsNumber rest) : EndsDigits rest := fun b hb => (h b hb).1

theorem endsDigits_cons {b : UInt8} (hb : ¬IsDigit b) : EndsDigits (b :: rest) := by
  rintro _ ⟨⟩
  exact hb

-- As long as the number fits, the digits are read one by one.
theorem readDigits_spelled {digits : Bytes} {n : Nat} (hdigits : ∀ b ∈ digits, IsDigit b)
    (hfits : spelled n digits ≤ maxUnsigned) (hrest : EndsDigits rest) :
    readDigits negative n (digits ++ rest) = endWhole negative (spelled n digits) rest := by
  induction digits generalizing n with
  | nil =>
      cases rest with
      | nil => rfl
      | cons b rest => simp [readDigits, hrest.not_isDigit, spelled]
  | cons b digits ih =>
      obtain ⟨hb, hmore⟩ := List.forall_mem_cons.mp hdigits
      have hle := le_spelled (n * 10 + digitValue b) digits
      have hnext : ¬maxUnsigned < n * 10 + digitValue b := Nat.not_lt.mpr (Nat.le_trans hle hfits)
      rw [List.cons_append, readDigits, if_pos (isDigit_iff.mpr hb)]
      dsimp only
      rw [if_neg hnext]
      exact ih hmore hfits

theorem readUnsigned_whole {digits : Bytes} (hdigits : Whole digits)
    (hfits : spelled 0 digits ≤ maxUnsigned) (hrest : EndsDigits rest) :
    readUnsigned negative (digits ++ rest) = endWhole negative (spelled 0 digits) rest := by
  cases hdigits with
  | zero =>
      show readUnsigned negative (0x30 :: rest) = endWhole negative 0 rest
      unfold readUnsigned
      cases rest with
      | nil => rfl
      | cons b rest => simp [hrest.not_isDigit]
  | @digits b ds first nonzero more =>
      have hvalue : spelled 0 (b :: ds) = spelled (digitValue b) ds := by
        rw [spelled, spelled, List.foldl_cons, Nat.zero_mul, Nat.zero_add]
      rw [hvalue] at hfits ⊢
      rw [List.cons_append]
      unfold readUnsigned
      dsimp only
      rw [if_neg nonzero, if_pos (isDigit_iff.mpr first), readDigits_spelled more hfits hrest]

theorem readUnsigned_decimal {n : Nat} (hn : n ≤ maxUnsigned) (hrest : EndsNumber rest) :
    readUnsigned negative (decimal n ++ rest) = .ok (wholeNumber negative n, rest) := by
  rw [readUnsigned_whole (whole_decimal n) (by rwa [spelled_decimal])
    (endsDigits_of_endsNumber hrest), spelled_decimal, endWhole_of_endsNumber n hrest]

theorem wholeNumber_negSucc {n : Nat} (h : n < 2 ^ 63) :
    wholeNumber true (n + 1) = .integer (Int.negSucc n) := by
  have hfits : ¬maxSigned + 1 < n + 1 := by
    show ¬2 ^ 63 - 1 + 1 < n + 1
    omega
  simp [wholeNumber, hfits, Int.negSucc_eq]

-- Integers of 64 bits, signed or not.
def IsWord (n : Int) : Prop := -2 ^ 63 ≤ n ∧ n < 2 ^ 64

instance (n : Int) : Decidable (IsWord n) := inferInstanceAs (Decidable (_ ∧ _))

theorem readNumber_printInt {n : Int} (hn : IsWord n) (hrest : EndsNumber rest) :
    readNumber (printInt n ++ rest) = .ok (.integer n, rest) := by
  cases n with
  | ofNat n =>
      have hle : n ≤ maxUnsigned := by
        have hlt : (n : Int) < 2 ^ 64 := hn.2
        show n ≤ 2 ^ 64 - 1
        omega
      have hread : readUnsigned false _ = _ := readUnsigned_decimal hle hrest
      obtain ⟨b, ds, heq, hb⟩ := (unsigned_decimal n).first
      have hminus : b ≠ 0x2D := hb.ne (by decide)
      show readNumber (decimal n ++ rest) = _
      rw [heq] at hread ⊢
      rw [List.cons_append, readNumber, if_neg hminus]
      exact hread
  | negSucc n =>
      have hlt : n < 2 ^ 63 := by
        have := hn.1
        omega
      have hle : n + 1 ≤ maxUnsigned := by
        show n + 1 ≤ 2 ^ 64 - 1
        omega
      rw [printInt_negSucc, List.cons_append, readNumber, if_pos rfl,
        readUnsigned_decimal hle hrest, wholeNumber_negSucc hlt]

end PolyCache.Json
