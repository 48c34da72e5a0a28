import PolyCache.Json.Text
import PolyCache.Proofs.Json.Grammar
import PolyCache.Proofs.Text.Utf8

-- A printed string is one of the grammar. What stands between the quotes is read piece by piece.
namespace PolyCache.Json

open Grammar

-- Bytes that stand for themselves inside a string.
def IsPlain (b : UInt8) : Prop := 0x20 ≤ b ∧ b ≠ 0x22 ∧ b ≠ 0x5C

theorem isPlain_of_le {b : UInt8} (h : 0x80 ≤ b.toNat) : IsPlain b := by
  refine ⟨?_, ?_, ?_⟩
  · rw [UInt8.le_iff_toNat_le]
    exact Nat.le_trans (by decide) h
  · rintro rfl
    exact absurd h (by decide)
  · rintro rfl
    exact absurd h (by decide)

theorem isPlain_of_isDigit {b : UInt8} (h : IsDigit b) : IsPlain b :=
  ⟨UInt8.le_trans (by decide) h.1, h.ne (by decide), h.ne (by decide)⟩

section Numbers

variable {text : Bytes}

theorem isPlain_of_digits (h : ∀ d ∈ text, IsDigit d) : ∀ d ∈ text, IsPlain d :=
  fun d hd => isPlain_of_isDigit (h d hd)

theorem isPlain_of_whole (h : Whole text) : ∀ b ∈ text, IsPlain b := by
  cases h with
  | zero => exact isPlain_of_digits (List.forall_mem_singleton.mpr (by decide))
  | digits first nonzero more => exact isPlain_of_digits (List.forall_mem_cons.mpr ⟨first, more⟩)

theorem isPlain_of_fraction (h : Fraction text) : ∀ b ∈ text, IsPlain b := by
  cases h with
  | none => exact nofun
  | decimals digits =>
      exact List.forall_mem_cons.mpr ⟨⟨by decide, by decide, by decide⟩, isPlain_of_digits digits.2⟩

theorem isPlain_of_sign (h : Sign text) : ∀ b ∈ text, IsPlain b := by
  cases h with
  | none => exact nofun
  | plus | minus => exact List.forall_mem_singleton.mpr ⟨by decide, by decide, by decide⟩

theorem isPlain_of_exponent (h : Exponent text) : ∀ b ∈ text, IsPlain b := by
  cases h with
  | none => exact nofun
  | marked mark sign digits =>
      refine List.forall_mem_cons.mpr ⟨?_, List.forall_mem_append.mpr
        ⟨isPlain_of_sign sign, isPlain_of_digits digits.2⟩⟩
      obtain rfl | rfl := mark <;> exact ⟨by decide, by decide, by decide⟩

theorem isPlain_of_unsigned (h : Unsigned text) : ∀ b ∈ text, IsPlain b := by
  obtain ⟨whole, fraction, exponent⟩ := h
  exact List.forall_mem_append.mpr ⟨isPlain_of_whole whole, List.forall_mem_append.mpr
    ⟨isPlain_of_fraction fraction, isPlain_of_exponent exponent⟩⟩

-- A number between quotes needs no escapes.
theorem isPlain_of_number (h : Grammar.Number text) : ∀ b ∈ text, IsPlain b := by
  cases h with
  | positive unsigned => exact isPlain_of_unsigned unsigned
  | negative unsigned =>
      exact List.forall_mem_cons.mpr
        ⟨⟨by decide, by decide, by decide⟩, isPlain_of_unsigned unsigned⟩

end Numbers

theorem shortLetter?_spec {c : Char} {letter : UInt8} (h : shortLetter? c = some letter) :
    shortEscape? letter = some c ∧ IsEscaped letter := by
  unfold shortLetter? at h
  repeat' split at h
  all_goals cases h
  all_goals subst_vars; decide

-- A character is printed as itself if it is no control character and has no letter of its own.
theorem encodeChar_isPlain {c : Char} (hletter : shortLetter? c = none) (hc : ¬c.toNat < 0x20) :
    ∀ b ∈ Utf8.encodeChar c, IsPlain b := by
  have hbyte {n : Nat} (hlow : 0x80 ≤ n) (hhigh : n < 0x100) : IsPlain n.toUInt8 :=
    isPlain_of_le (by rwa [Utf8.toNat_toUInt8 hhigh])
  have hvalid := Utf8.toNat_bounds c
  unfold Utf8.encodeChar
  dsimp only
  split
  · have hquote : c ≠ '"' := by
      rintro rfl
      exact absurd hletter (by decide)
    have hbackslash : c ≠ '\\' := by
      rintro rfl
      exact absurd hletter (by decide)
    have hn : c.toNat.toUInt8.toNat = c.toNat := Utf8.toNat_toUInt8 (by omega)
    have hne {b : UInt8} (hb : c ≠ Char.ofNat b.toNat) : c.toNat.toUInt8 ≠ b := by
      rintro rfl
      rw [hn, Char.ofNat_toNat] at hb
      exact hb rfl
    simp only [List.mem_singleton, forall_eq]
    refine ⟨?_, hne hquote, hne hbackslash⟩
    rw [UInt8.le_iff_toNat_le, hn]
    exact Nat.not_lt.mp hc
  split
  · simp only [List.mem_cons, List.not_mem_nil, or_false, forall_eq_or_imp, forall_eq]
    exact ⟨hbyte (by omega) (by omega), hbyte (by omega) (by omega)⟩
  split
  · simp only [List.mem_cons, List.not_mem_nil, or_false, forall_eq_or_imp, forall_eq]
    exact ⟨hbyte (by omega) (by omega), hbyte (by omega) (by omega), hbyte (by omega) (by omega)⟩
  · simp only [List.mem_cons, List.not_mem_nil, or_false, forall_eq_or_imp, forall_eq]
    exact ⟨hbyte (by omega) (by omega), hbyte (by omega) (by omega), hbyte (by omega) (by omega),
      hbyte (by omega) (by omega)⟩

theorem hexValue?_hexDigitByte {n : Nat} (h : n < 16) : hexValue? (hexDigitByte n) = some n := by
  decide +revert

theorem isHexDigit_hexDigitByte {n : Nat} (h : n < 16) : IsHexDigit (hexDigitByte n) := by
  decide +revert

theorem contents_append {s t : Bytes} (hs : Contents s) (ht : Contents t) : Contents (s ++ t) := by
  induction hs with
  | nil => exact ht
  | plain visible noQuote noBackslash more ih => exact .plain visible noQuote noBackslash ih
  | escape escaped more ih => exact .escape escaped ih
  | number first second third fourth more ih => exact .number first second third fourth ih

theorem contents_of_isPlain {bytes : Bytes} (h : ∀ b ∈ bytes, IsPlain b) : Contents bytes := by
  induction bytes with
  | nil => exact .nil
  | cons b bytes ih =>
      obtain ⟨⟨hvisible, hquote, hbackslash⟩, hmore⟩ := List.forall_mem_cons.mp h
      exact .plain hvisible hquote hbackslash (ih hmore)

theorem contents_printChar (c : Char) : Contents (printChar c) := by
  unfold printChar
  split
  · exact .escape (shortLetter?_spec ‹_›).2 .nil
  split
  · exact .number (by decide) (by decide) (isHexDigit_hexDigitByte (by omega))
      (isHexDigit_hexDigitByte (by omega)) .nil
  · exact contents_of_isPlain (encodeChar_isPlain ‹_› ‹_›)

theorem contents_printed (chars : List Char) : Contents (chars.flatMap printChar) := by
  induction chars with
  | nil => exact .nil
  | cons c chars ih =>
      rw [List.flatMap_cons]
      exact contents_append (contents_printChar c) ih

theorem stringText_print (s : String) : StringText (printString s) :=
  .quoted (contents_printed s.toList)

variable {fuel : Nat} {rest contents left : Bytes}

-- Bytes that stand for themselves are passed on, whatever comes behind them.
theorem readContents_append {plain : Bytes} (hplain : ∀ b ∈ plain, IsPlain b) :
    readContents (plain.length + fuel) (plain ++ rest) =
      (readContents fuel rest).map fun (contents, left) => (plain ++ contents, left) := by
  induction plain with
  | nil =>
      rw [List.length_nil, Nat.zero_add, List.nil_append]
      cases readContents fuel rest <;> rfl
  | cons b plain ih =>
      obtain ⟨⟨hvisible, hquote, hbackslash⟩, hmore⟩ := List.forall_mem_cons.mp hplain
      have hvisible : ¬b < 0x20 := by simpa using hvisible
      rw [List.length_cons, Nat.add_right_comm, List.cons_append, readContents, if_neg hquote,
        if_neg hbackslash, if_neg hvisible, ih hmore]
      cases readContents fuel rest <;> rfl

-- An escape is passed on as the bytes of its character.
theorem readContents_escape {escape : Bytes} {c : Char}
    (hescape : readEscape (escape ++ rest) = .ok (c, rest)) :
    readContents (fuel + 1) (0x5C :: (escape ++ rest)) =
      (readContents fuel rest).map fun (contents, left) =>
        (Utf8.encodeChar c ++ contents, left) := by
  rw [readContents, if_neg (by decide), if_pos rfl, hescape]
  dsimp only
  cases readContents fuel rest <;> rfl

theorem readEscape_letter {letter : UInt8} {c : Char} (h : shortEscape? letter = some c) :
    readEscape ([letter] ++ rest) = .ok (c, rest) := by
  simp [readEscape, h]

end PolyCache.Json
