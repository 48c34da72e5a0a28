import PolyCache.Json.Number
import PolyCache.Json.Text
import PolyCache.Proofs.Json.Skip
import PolyCache.Proofs.Json.Text

-- What the readers of numbers and strings take is a number or a string of the grammar. They refuse
-- more than the grammar does: numbers out of range, and strings that are no characters.
namespace PolyCache.Json

open Grammar

-- The bytes before `rest` have been taken, and `p` says what they are.
def Takes (p : Bytes → Prop) (bytes rest : Bytes) : Prop := ∃ text, bytes = text ++ rest ∧ p text

theorem Takes.imp {p q : Bytes → Prop} {bytes rest : Bytes} (h : Takes p bytes rest)
    (himp : ∀ text, p text → q text) : Takes q bytes rest := by
  obtain ⟨text, heq, hp⟩ := h
  exact ⟨text, heq, himp text hp⟩

theorem Takes.cons {p q : Bytes → Prop} {b : UInt8} {bytes rest : Bytes} (h : Takes p bytes rest)
    (himp : ∀ text, p text → q (b :: text)) : Takes q (b :: bytes) rest := by
  obtain ⟨text, rfl, hp⟩ := h
  exact ⟨b :: text, rfl, himp text hp⟩

theorem Takes.append {p q r : Bytes → Prop} {bytes middle rest : Bytes} (h : Takes p bytes middle)
    (hmore : Takes q middle rest) (himp : ∀ s t, p s → q t → r (s ++ t)) : Takes r bytes rest := by
  obtain ⟨s, rfl, hs⟩ := h
  obtain ⟨t, rfl, ht⟩ := hmore
  exact ⟨s ++ t, (List.append_assoc s t rest).symm, himp s t hs ht⟩

section Numbers

variable {negative : Bool} {significand : Nat} {start : Int} {bytes rest : Bytes} {x : Binary64}

theorem takes_digits (bytes : Bytes) :
    Takes (fun ds => ∀ d ∈ ds, IsDigit d) bytes (bytes.dropWhile isDigit) :=
  ⟨bytes.takeWhile isDigit, (List.takeWhile_append_dropWhile).symm,
    fun _ hd => isDigit_iff.mp (List.mem_takeWhile_imp hd)⟩

theorem realOfParts_rest (h : realOfParts negative significand start bytes = .ok (x, rest)) :
    rest = bytes := by
  unfold realOfParts at h
  split at h <;> cases h
  rfl

theorem readExponentDigits_taken {down : Bool} {exponent : Nat}
    (h : readExponentDigits negative significand start down exponent bytes = .ok (x, rest)) :
    Takes (fun ds => ∀ d ∈ ds, IsDigit d) bytes rest := by
  induction bytes generalizing exponent with
  | nil =>
      obtain rfl := realOfParts_rest h
      exact ⟨[], rfl, nofun⟩
  | cons b bytes ih =>
      rw [readExponentDigits] at h
      split at h
      · rename_i hb
        have hdigit := isDigit_iff.mp hb
        dsimp only at h
        split at h
        · split at h <;> cases h
          exact (takes_digits bytes).cons fun _ hds => List.forall_mem_cons.mpr ⟨hdigit, hds⟩
        · exact (ih h).cons fun _ hds => List.forall_mem_cons.mpr ⟨hdigit, hds⟩
      · obtain rfl := realOfParts_rest h
        exact ⟨[], rfl, nofun⟩

theorem takes_exponentDigits {down : Bool} {b : UInt8} (hb : isDigit b = true)
    (h : readExponentDigits negative significand start down (digitValue b) bytes = .ok (x, rest)) :
    Takes Digits (b :: bytes) rest :=
  (readExponentDigits_taken h).cons fun ds hds =>
    ⟨List.cons_ne_nil b ds, List.forall_mem_cons.mpr ⟨isDigit_iff.mp hb, hds⟩⟩

theorem readExponent_taken (h : readExponent negative significand start bytes = .ok (x, rest)) :
    Takes (fun t => ∃ s ds, t = s ++ ds ∧ Sign s ∧ Digits ds) bytes rest := by
  unfold readExponent at h
  cases bytes with
  | nil => cases h
  | cons b bytes =>
      by_cases hminus : b = 0x2D
      · simp only [if_pos hminus] at h
        split at h
        · cases h
        · split at h
          · rename_i hb
            exact (takes_exponentDigits hb h).cons fun ds hds =>
              ⟨[b], ds, rfl, hminus ▸ .minus, hds⟩
          · cases h
      by_cases hplus : b = 0x2B
      · simp only [if_neg hminus, if_pos hplus] at h
        split at h
        · cases h
        · split at h
          · rename_i hb
            exact (takes_exponentDigits hb h).cons fun ds hds =>
              ⟨[b], ds, rfl, hplus ▸ .plus, hds⟩
          · cases h
      · simp only [if_neg hminus, if_neg hplus] at h
        split at h
        · rename_i hb
          exact (takes_exponentDigits hb h).imp fun ds hds => ⟨[], ds, rfl, .none, hds⟩
        · cases h

theorem readScale_taken (h : readScale negative significand start bytes = .ok (x, rest)) :
    Takes Exponent bytes rest := by
  unfold readScale at h
  split at h
  · split at h
    · rename_i hmark
      refine (readExponent_taken h).cons ?_
      rintro text ⟨s, ds, rfl, hs, hds⟩
      exact .marked (Skip.isExponentMark_iff.mp hmark) hs hds
    · obtain rfl := realOfParts_rest h
      exact ⟨[], rfl, .none⟩
  · obtain rfl := realOfParts_rest h
    exact ⟨[], rfl, .none⟩

-- Digits with an exponent behind them, which may be missing. There is a digit at least if there has
-- been none before.
def Scaled (any : Bool) (text : Bytes) : Prop :=
  ∃ ds e, text = ds ++ e ∧ (∀ d ∈ ds, IsDigit d) ∧ (any = false → ds ≠ []) ∧ Exponent e

theorem Scaled.cons {any : Bool} {b : UInt8} {text : Bytes} (h : Scaled true text)
    (hb : IsDigit b) : Scaled any (b :: text) := by
  obtain ⟨ds, e, rfl, hds, -, he⟩ := h
  exact ⟨b :: ds, e, rfl, List.forall_mem_cons.mpr ⟨hb, hds⟩, by simp, he⟩

theorem readDecimals_taken {any : Bool}
    (h : readDecimals negative significand start any bytes = .ok (x, rest)) :
    Takes (Scaled any) bytes rest := by
  have hend {significand : Nat} {start : Int} {bytes : Bytes}
      (h : readScale negative significand start bytes = .ok (x, rest)) :
      Takes (Scaled true) bytes rest :=
    (readScale_taken h).imp fun e he => ⟨[], e, rfl, nofun, nofun, he⟩
  induction bytes generalizing significand start any with
  | nil =>
      rw [readDecimals] at h
      split at h
      · rename_i hany
        exact hany ▸ hend h
      · cases h
  | cons b bytes ih =>
      rw [readDecimals] at h
      split at h
      · rename_i hb
        have hdigit := isDigit_iff.mp hb
        dsimp only at h
        split at h
        · -- the digits that no longer count
          obtain ⟨ds, heq, hds⟩ := takes_digits bytes
          obtain ⟨e, htail, he⟩ := readScale_taken h
          refine ⟨b :: (ds ++ e), ?_, Scaled.cons ⟨ds, e, rfl, hds, nofun, he⟩ hdigit⟩
          rw [heq, htail, List.cons_append, List.append_assoc]
        · exact (ih h).cons fun _ htext => htext.cons hdigit
      split at h
      · rename_i hany
        exact hany ▸ hend h
      · cases h

-- What may follow the digits of a whole number.
def Ended (text : Bytes) : Prop := ∃ f e, text = f ++ e ∧ Fraction f ∧ Exponent e

theorem ended_nil : Ended [] := ⟨[], [], rfl, .none, .none⟩

theorem ended_point {text : Bytes} (h : Scaled false text) : Ended (0x2E :: text) := by
  obtain ⟨ds, e, rfl, hds, hany, he⟩ := h
  exact ⟨0x2E :: ds, e, rfl, .decimals ⟨hany rfl, hds⟩, he⟩

theorem ended_mark {b : UInt8} {text : Bytes} (hb : Skip.isExponentMark b = true)
    (h : ∃ s ds, text = s ++ ds ∧ Sign s ∧ Digits ds) : Ended (b :: text) := by
  obtain ⟨s, ds, rfl, hs, hds⟩ := h
  exact ⟨[], _, rfl, .none, .marked (Skip.isExponentMark_iff.mp hb) hs hds⟩

-- What may follow the first digits of a number.
def Continued (text : Bytes) : Prop := ∃ ds t, text = ds ++ t ∧ (∀ d ∈ ds, IsDigit d) ∧ Ended t

theorem Ended.continued {text : Bytes} (h : Ended text) : Continued text :=
  ⟨[], text, rfl, nofun, h⟩

theorem Continued.cons {b : UInt8} {text : Bytes} (h : Continued text) (hb : IsDigit b) :
    Continued (b :: text) := by
  obtain ⟨ds, t, rfl, hds, ht⟩ := h
  exact ⟨b :: ds, t, rfl, List.forall_mem_cons.mpr ⟨hb, hds⟩, ht⟩

theorem readLongWhole_taken {exponent : Nat}
    (h : readLongWhole negative significand exponent bytes = .ok (x, rest)) :
    Takes Continued bytes rest := by
  induction bytes generalizing exponent with
  | nil =>
      obtain rfl := realOfParts_rest h
      exact ⟨[], rfl, ended_nil.continued⟩
  | cons b bytes ih =>
      rw [readLongWhole] at h
      split at h
      · rename_i hb
        exact (ih h).cons fun _ htext => htext.cons (isDigit_iff.mp hb)
      split at h
      · rename_i hb
        subst hb
        exact (readDecimals_taken h).cons fun _ htext => (ended_point htext).continued
      split at h
      · rename_i hb
        exact (readExponent_taken h).cons fun _ htext => (ended_mark hb htext).continued
      · obtain rfl := realOfParts_rest h
        exact ⟨[], rfl, ended_nil.continued⟩

variable {n : Number}

theorem asReal_eq_ok {result : Except Fault (Binary64 × Bytes)}
    (h : asReal result = .ok (n, rest)) :
    ∃ x, result = .ok (x, rest) := by
  cases result with
  | ok p =>
      cases h
      exact ⟨p.1, rfl⟩
  | error fault => cases h

theorem endWhole_taken (h : endWhole negative significand bytes = .ok (n, rest)) :
    Takes Ended bytes rest := by
  unfold endWhole at h
  split at h
  · split at h
    · rename_i hb
      subst hb
      obtain ⟨x, h⟩ := asReal_eq_ok h
      exact (readDecimals_taken h).cons fun _ => ended_point
    split at h
    · rename_i hb
      obtain ⟨x, h⟩ := asReal_eq_ok h
      exact (readExponent_taken h).cons fun _ => ended_mark hb
    · cases h
      exact ⟨[], rfl, ended_nil⟩
  · cases h
    exact ⟨[], rfl, ended_nil⟩

theorem readDigits_taken (h : readDigits negative significand bytes = .ok (n, rest)) :
    Takes Continued bytes rest := by
  induction bytes generalizing significand with
  | nil => exact (endWhole_taken h).imp fun _ => Ended.continued
  | cons b bytes ih =>
      rw [readDigits] at h
      split at h
      · rename_i hb
        dsimp only at h
        split at h
        · obtain ⟨x, h⟩ := asReal_eq_ok h
          exact readLongWhole_taken h
        · exact (ih h).cons fun _ htext => htext.cons (isDigit_iff.mp hb)
      · exact (endWhole_taken h).imp fun _ => Ended.continued

theorem readUnsigned_taken (h : readUnsigned negative bytes = .ok (n, rest)) :
    Takes Unsigned bytes rest := by
  have hzero {bytes : Bytes} (h : endWhole negative 0 bytes = .ok (n, rest)) :
      Takes Unsigned (0x30 :: bytes) rest := by
    refine (endWhole_taken h).cons ?_
    rintro text ⟨f, e, rfl, hf, he⟩
    exact .parts .zero hf he
  cases bytes with
  | nil => cases h
  | cons b bytes =>
      rw [readUnsigned.eq_def] at h
      dsimp only at h
      split at h
      · rename_i hb
        subst hb
        split at h
        · split at h
          · cases h
          · exact hzero h
        · exact hzero h
      · rename_i hnonzero
        split at h
        · rename_i hb
          refine (readDigits_taken h).cons ?_
          rintro text ⟨ds, t, rfl, hds, f, e, rfl, hf, he⟩
          exact .parts (.digits (isDigit_iff.mp hb) hnonzero hds) hf he
        · cases h

theorem readNumber_taken (h : readNumber bytes = .ok (n, rest)) :
    Takes Grammar.Number bytes rest := by
  unfold readNumber at h
  split at h
  · cases h
  · split at h
    · rename_i hb
      subst hb
      exact (readUnsigned_taken h).cons fun _ => .negative
    · exact (readUnsigned_taken h).imp fun _ => .positive

end Numbers

section Strings

variable {bytes rest contents : Bytes} {c : Char} {n : Nat}

theorem readHex_taken (h : readHex bytes = .ok (n, rest)) :
    ∃ a b c d, bytes = a :: b :: c :: d :: rest ∧ IsHexDigit a ∧ IsHexDigit b ∧ IsHexDigit c ∧
      IsHexDigit d := by
  unfold readHex at h
  split at h
  · split at h
    · rename_i ha hb hc hd
      cases h
      exact ⟨_, _, _, _, rfl, hexValue?_isSome_iff.mp (by simp [ha]),
        hexValue?_isSome_iff.mp (by simp [hb]), hexValue?_isSome_iff.mp (by simp [hc]),
        hexValue?_isSome_iff.mp (by simp [hd])⟩
    · cases h
  · cases h

-- An escape by number, from its backslash on.
theorem takes_hex (h : readHex bytes = .ok (n, rest)) :
    Takes Contents (0x5C :: 0x75 :: bytes) rest := by
  obtain ⟨a, b, c, d, rfl, ha, hb, hc, hd⟩ := readHex_taken h
  exact ⟨[0x5C, 0x75, a, b, c, d], rfl, .number ha hb hc hd .nil⟩

theorem readTrailing_taken (h : readTrailing bytes = .ok (n, rest)) :
    Takes Contents bytes rest := by
  unfold readTrailing at h
  split at h
  · cases h
  split at h
  · cases h
  split at h
  · cases h
  split at h
  · cases h
  split at h
  · cases h
  rename_i hbackslash _ _ _ hletter _ _ _ hhex
  split at h
  · cases h
    rw [Decidable.not_not.mp hbackslash, Decidable.not_not.mp hletter]
    exact takes_hex hhex
  · cases h

-- A leading surrogate is an escape of the grammar on its own, and so is the trailing one.
theorem readCodePoint_taken (h : readCodePoint bytes = .ok (c, rest)) :
    Takes Contents (0x5C :: 0x75 :: bytes) rest := by
  unfold readCodePoint at h
  split at h
  · cases h
  rename_i hhex
  split at h
  · cases h
  split at h
  · split at h
    · cases h
    · rename_i htrailing
      obtain ⟨-, rfl⟩ := Prod.mk.inj (Except.ok.inj h)
      exact (takes_hex hhex).append (readTrailing_taken htrailing) fun _ _ => contents_append
  · cases h
    exact takes_hex hhex

theorem isEscaped_of_short {b : UInt8} (h : shortEscape? b = some c) : IsEscaped b := by
  unfold IsEscaped
  by_contra hb
  simp only [not_or] at hb
  simp [shortEscape?, hb] at h

theorem readEscape_taken (h : readEscape bytes = .ok (c, rest)) :
    Takes Contents (0x5C :: bytes) rest := by
  unfold readEscape at h
  split at h
  · cases h
  · rename_i b bytes
    split at h
    · rename_i hshort
      cases h
      exact ⟨[0x5C, b], rfl, .escape (isEscaped_of_short hshort) .nil⟩
    split at h
    · rename_i hletter
      subst hletter
      exact readCodePoint_taken h
    · cases h

-- What is taken are the contents and the closing quote.
theorem readContents_taken {fuel : Nat} (h : readContents fuel bytes = .ok (contents, rest)) :
    Takes Contents bytes (0x22 :: rest) := by
  induction fuel generalizing bytes contents with
  | zero => cases h
  | succ fuel ih =>
      cases bytes with
      | nil => cases h
      | cons b bytes =>
          rw [readContents] at h
          split at h
          · rename_i hquote
            cases h
            exact ⟨[], by rw [hquote, List.nil_append], .nil⟩
          split at h
          · rename_i hbackslash
            subst hbackslash
            split at h
            · cases h
            rename_i hescape
            split at h
            · cases h
            · rename_i hmore
              cases h
              exact (readEscape_taken hescape).append (ih hmore) fun _ _ => contents_append
          split at h
          · cases h
          · rename_i hquote hbackslash hvisible
            split at h
            · cases h
            · rename_i hmore
              cases h
              exact (ih hmore).cons fun _ htext =>
                .plain (UInt8.not_lt.mp hvisible) hquote hbackslash htext

theorem Takes.quoted (h : Takes Contents bytes (0x22 :: rest)) :
    Takes StringText (0x22 :: bytes) rest := by
  obtain ⟨text, rfl, htext⟩ := h
  exact ⟨_, by simp, .quoted htext⟩

theorem readString_taken {s : String} (h : readString bytes = .ok (s, rest)) :
    Takes StringText (0x22 :: bytes) rest := by
  unfold readString readChars at h
  split at h
  · cases h
  rename_i hchars
  cases h
  split at hchars
  · cases hchars
  rename_i hcontents
  split at hchars
  · cases hchars
    exact (readContents_taken hcontents).quoted
  · cases hchars

end Strings

end PolyCache.Json
