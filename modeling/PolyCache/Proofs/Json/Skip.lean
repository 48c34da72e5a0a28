import Mathlib.Data.List.TakeWhile
import PolyCache.Json.Skip
import PolyCache.Proofs.Json.Grammar

-- What passes over a value accepts the grammar of JSON text, and nothing else.
namespace PolyCache.Json

open Grammar

theorem isSpace_iff {b : UInt8} : isSpace b = true ↔ IsBlank b := by
  simp only [isSpace, IsBlank, Bool.or_eq_true, decide_eq_true_eq]
  grind

theorem isDigit_iff {b : UInt8} : isDigit b = true ↔ IsDigit b := by
  simp [isDigit, IsDigit]

theorem isShortEscape_iff {b : UInt8} : isShortEscape b = true ↔ IsEscaped b := by
  simp [isShortEscape, IsEscaped, or_assoc]

theorem hexValue?_isSome_iff {b : UInt8} : (hexValue? b).isSome = true ↔ IsHexDigit b := by
  simp only [hexValue?, IsHexDigit, IsDigit, Bool.and_eq_true, decide_eq_true_eq]
  split
  · simp [*]
  split
  · simp [*]
  split <;> simp [*]

namespace Skip

variable {mode mode' : Mode} {frame : Frame} {frames frames' : List Frame} {b : UInt8}
  {bytes rest left : Bytes} {isKey : Bool}

theorem isExponentMark_iff : isExponentMark b = true ↔ b = 0x65 ∨ b = 0x45 := by
  simp [isExponentMark]

-- Goes on behind a value that stands in the given containers.
def resume : List Frame → Bytes → Except Fault Bytes
  | [], rest => .ok rest
  | frame :: frames, rest => run .after (frame :: frames) rest

-- Goes on behind a string.
def endText (isKey : Bool) (frames : List Frame) (rest : Bytes) : Except Fault Bytes :=
  if isKey then run .colon frames rest else resume frames rest

theorem run_go (mode' : Mode) (frames' : List Frame)
    (h : advance mode frames b = .go mode' frames') :
    run mode frames (b :: rest) = run mode' frames' rest := by
  simp only [run, h]

theorem run_congr (mode' : Mode) (frames' : List Frame)
    (h : advance mode frames b = advance mode' frames' b) :
    run mode frames (b :: rest) = run mode' frames' (b :: rest) := by
  rw [run, run, h]

theorem run_completed (frames' : List Frame) (h : advance mode frames b = completed frames') :
    run mode frames (b :: rest) = resume frames' rest := by
  cases frames' with
  | nil => simp only [run, h, completed, resume]
  | cons frame outer => simp only [run, h, completed, resume]

theorem run_refused (reason : Reason) (h : advance mode frames b = .refuse reason) :
    run mode frames (b :: rest) ≠ .ok left := by
  simp [run, h]

theorem run_refusedBefore (reason : Reason) (h : advance mode frames b = .refuseBefore reason) :
    run mode frames (b :: rest) ≠ .ok left := by
  simp [run, h]

theorem run_end (h : mode.endsNumber = false) : run mode frames [] ≠ .ok left := by
  simp [run, h]

-- Bytes that leave the machine as it is.
theorem run_loop {p : UInt8 → Prop} {text : Bytes}
    (hloop : ∀ b, p b → advance mode frames b = .go mode frames) (h : ∀ b ∈ text, p b) :
    run mode frames (text ++ rest) = run mode frames rest := by
  induction text with
  | nil => rfl
  | cons b text ih =>
      rw [List.cons_append, run_go _ _ (hloop b (h b List.mem_cons_self))]
      exact ih fun x hx => h x (List.mem_cons_of_mem _ hx)

theorem exists_split (p : UInt8 → Prop) [DecidablePred p] (bytes : Bytes) :
    ∃ text rest, bytes = text ++ rest ∧ (∀ b ∈ text, p b) ∧ ∀ b ∈ rest.head?, ¬p b := by
  induction bytes with
  | nil => exact ⟨[], [], rfl, by simp, by simp⟩
  | cons b bytes ih =>
      by_cases hb : p b
      · obtain ⟨text, rest, rfl, htext, hrest⟩ := ih
        exact ⟨b :: text, rest, rfl, by simpa [hb] using htext, hrest⟩
      · exact ⟨[], b :: bytes, rfl, by simp, by simpa using hb⟩

section Literals

theorem run_literal {expected : UInt8} {tail : Bytes} :
    run (.literal (expected :: tail)) frames (expected :: (tail ++ rest)) = resume frames rest := by
  induction tail generalizing expected with
  | nil => exact run_completed _ (by simp [advance])
  | cons next tail ih =>
      rw [run_go (.literal (next :: tail)) frames (by simp [advance])]
      exact ih

theorem literal_inv {expected : UInt8} {tail : Bytes}
    (h : run (.literal (expected :: tail)) frames bytes = .ok left) :
    ∃ after, bytes = expected :: (tail ++ after) ∧ resume frames after = .ok left := by
  induction tail generalizing expected bytes with
  | nil =>
      cases bytes with
      | nil => exact absurd h (run_end rfl)
      | cons b rest =>
          by_cases hb : b = expected
          · rw [run_completed frames (by simp [advance, hb])] at h
            exact ⟨rest, by rw [hb]; rfl, h⟩
          · exact absurd h (run_refused .expectedLiteral (by simp [advance, hb]))
  | cons next tail ih =>
      cases bytes with
      | nil => exact absurd h (run_end rfl)
      | cons b rest =>
          by_cases hb : b = expected
          · rw [run_go (.literal (next :: tail)) frames
              (by simp [advance, hb])] at h
            obtain ⟨after, rfl, hafter⟩ := ih h
            exact ⟨after, by rw [hb]; rfl, hafter⟩
          · exact absurd h (run_refused .expectedLiteral (by simp [advance, hb]))

end Literals

section Strings

theorem run_contents {text : Bytes} (h : Contents text) :
    run (.text isKey) frames (text ++ 0x22 :: rest) = endText isKey frames rest := by
  induction h with
  | nil =>
      cases isKey with
      | true => exact run_go _ _ (by simp [advance])
      | false => exact run_completed _ (by simp [advance])
  | @plain b text visible noQuote noBackslash more ih =>
      have hv : ¬b < 0x20 := by simpa using visible
      rw [List.cons_append, run_go (.text isKey) frames
        (by simp [advance, noQuote, noBackslash, hv])]
      exact ih
  | @escape b text escaped more ih =>
      rw [List.cons_append, List.cons_append,
        run_go (.escape isKey) frames (by simp [advance]),
        run_go (.text isKey) frames
          (by simp [advance, isShortEscape_iff.mpr escaped])]
      exact ih
  | @number a b c d text first second third fourth more ih =>
      simp only [List.cons_append]
      rw [run_go (.escape isKey) frames (by simp [advance]),
        run_go (.hex isKey 4 true) frames (by simp [advance, isShortEscape]),
        run_go (.hex isKey 3 true) frames
          (by simp [advance, hexValue?_isSome_iff.mpr first]),
        run_go (.hex isKey 2 true) frames
          (by simp [advance, hexValue?_isSome_iff.mpr second]),
        run_go (.hex isKey 1 true) frames
          (by simp [advance, hexValue?_isSome_iff.mpr third]),
        run_go (.text isKey) frames
          (by simp [advance, hexValue?_isSome_iff.mpr fourth])]
      exact ih

theorem hex_inv {n : Nat} {wellFormed : Bool}
    (h : run (.hex isKey (n + 1) wellFormed) frames bytes = .ok left) :
    ∃ digits after, bytes = digits ++ after ∧ digits.length = n + 1 ∧
      (∀ d ∈ digits, IsHexDigit d) ∧ wellFormed = true ∧
      run (.text isKey) frames after = .ok left := by
  induction n generalizing bytes wellFormed with
  | zero =>
      cases bytes with
      | nil => exact absurd h (run_end rfl)
      | cons b rest =>
          by_cases hb : (wellFormed && (hexValue? b).isSome) = true
          · rw [run_go (.text isKey) frames (by simp [advance, hb])] at h
            obtain ⟨hw, hx⟩ := Bool.and_eq_true_iff.mp hb
            exact ⟨[b], rest, rfl, rfl, by simpa using hexValue?_isSome_iff.mp hx, hw, h⟩
          · exact absurd h (run_refused .malformedEscape (by simp [advance, hb]))
  | succ n ih =>
      cases bytes with
      | nil => exact absurd h (run_end rfl)
      | cons b rest =>
          rw [run_go (.hex isKey (n + 1) (wellFormed && (hexValue? b).isSome)) frames
            (by simp [advance])] at h
          obtain ⟨digits, after, rfl, hlength, hdigits, hw, hafter⟩ := ih h
          obtain ⟨hw, hx⟩ := Bool.and_eq_true_iff.mp hw
          refine ⟨b :: digits, after, rfl, by simp [hlength], ?_, hw, hafter⟩
          exact List.forall_mem_cons.mpr ⟨hexValue?_isSome_iff.mp hx, hdigits⟩

theorem escape_inv (h : run (.escape isKey) frames bytes = .ok left) :
    ∃ escape after, bytes = escape ++ after ∧ run (.text isKey) frames after = .ok left ∧
      ∀ text, Contents text → Contents (0x5C :: (escape ++ text)) := by
  cases bytes with
  | nil => exact absurd h (run_end rfl)
  | cons b rest =>
      by_cases hb : isShortEscape b = true
      · rw [run_go (.text isKey) frames (by simp [advance, hb])] at h
        exact ⟨[b], rest, rfl, h, fun text ht => .escape (isShortEscape_iff.mp hb) ht⟩
      · by_cases hu : b = 0x75
        · subst hu
          rw [run_go (.hex isKey 4 true) frames (by simp [advance, hb])] at h
          obtain ⟨digits, after, rfl, hlength, hdigits, -, hafter⟩ := hex_inv h
          match digits, hlength with
          | [a, b, c, d], _ =>
              simp only [List.forall_mem_cons] at hdigits
              obtain ⟨ha, hb, hc, hd, -⟩ := hdigits
              exact ⟨[0x75, a, b, c, d], after, rfl, hafter,
                fun text ht => .number ha hb hc hd ht⟩
        · exact absurd h (run_refused .malformedEscape (by simp [advance, hb, hu]))

theorem contents_inv (h : run (.text isKey) frames bytes = .ok left) :
    ∃ text after, bytes = text ++ 0x22 :: after ∧ Contents text ∧
      endText isKey frames after = .ok left := by
  -- an escape takes several bytes at once
  induction hn : bytes.length using Nat.strongRecOn generalizing bytes with
  | ind n ih =>
      subst hn
      cases bytes with
      | nil => exact absurd h (run_end rfl)
      | cons b rest =>
          by_cases hquote : b = 0x22
          · subst hquote
            refine ⟨[], rest, rfl, .nil, ?_⟩
            cases isKey with
            | true => rwa [run_go .colon frames (by simp [advance])] at h
            | false => rwa [run_completed frames (by simp [advance])] at h
          by_cases hbackslash : b = 0x5C
          · subst hbackslash
            rw [run_go (.escape isKey) frames (by simp [advance])] at h
            obtain ⟨escape, after, rfl, hafter, hcontents⟩ := escape_inv h
            have hlt : after.length < (0x5C :: (escape ++ after)).length := by
              simp only [List.length_cons, List.length_append]
              omega
            obtain ⟨text, after, rfl, htext, hend⟩ := ih after.length hlt hafter rfl
            exact ⟨0x5C :: (escape ++ text), after, by simp, hcontents text htext, hend⟩
          by_cases hvisible : b < 0x20
          · exact absurd h (run_refusedBefore .controlCharacter
              (by simp [advance, hquote, hbackslash, hvisible]))
          · rw [run_go (.text isKey) frames
              (by simp [advance, hquote, hbackslash, hvisible])] at h
            obtain ⟨text, after, rfl, htext, hend⟩ := ih rest.length (by simp) h rfl
            exact ⟨b :: text, after, rfl,
              .plain (by simpa using hvisible) hquote hbackslash htext, hend⟩

end Strings

section Numbers

-- What may follow a number: nothing that would belong to it.
def EndsNumber (rest : Bytes) : Prop :=
  ∀ b ∈ rest.head?, ¬IsDigit b ∧ b ≠ 0x2E ∧ b ≠ 0x65 ∧ b ≠ 0x45

theorem run_afterNumber (h : advance mode frames b = afterNumber frames b) :
    run mode frames (b :: rest) = resume frames (b :: rest) := by
  cases frames with
  | nil => simp only [run, h, afterNumber, resume]
  | cons frame outer => exact run_congr _ _ h

theorem run_numberEnd (hmode : mode.endsNumber = true)
    (h : ∀ b ∈ bytes.head?, advance mode frames b = afterNumber frames b) :
    run mode frames bytes = resume frames bytes := by
  cases bytes with
  | cons b rest => exact run_afterNumber (h b rfl)
  | nil =>
      cases frames with
      | nil => simp [run, hmode, resume]
      | cons frame outer =>
          have hend : mode.endReason (frame :: outer) = Mode.after.endReason (frame :: outer) := by
            cases mode <;> simp_all [Mode.endsNumber, Mode.endReason]
          simp [run, hmode, resume, hend]

theorem advance_digit (hmode : mode = .digits ∨ mode = .decimals ∨ mode = .exponent) (b : UInt8)
    (hb : IsDigit b) : advance mode frames b = .go mode frames := by
  have hb := isDigit_iff.mpr hb
  rcases hmode with rfl | rfl | rfl <;> simp [advance, hb]

theorem run_digits {ds : Bytes} (hmode : mode = .digits ∨ mode = .decimals ∨ mode = .exponent)
    (h : ∀ d ∈ ds, IsDigit d) : run mode frames (ds ++ rest) = run mode frames rest :=
  run_loop (advance_digit hmode) h

theorem EndsNumber.advance (h : EndsNumber rest) (hmode : mode.endsNumber = true) :
    ∀ b ∈ rest.head?, advance mode frames b = afterNumber frames b := by
  intro b hb
  obtain ⟨hdigit, hpoint, hmark⟩ := h b hb
  have hdigit : isDigit b = false := by simpa [Bool.eq_false_iff, isDigit_iff] using hdigit
  have hmark : isExponentMark b = false := by
    simpa [Bool.eq_false_iff, isExponentMark_iff] using hmark
  cases mode with
  | zero | digits | decimals | exponent => simp [Skip.advance, hdigit, hpoint, hmark]
  | _ => cases hmode

theorem run_numberText (h : EndsNumber rest) (hmode : mode.endsNumber = true) :
    run mode frames rest = resume frames rest :=
  run_numberEnd hmode (h.advance hmode)

theorem run_exponentDigits {ds : Bytes} (hds : Digits ds) (hrest : EndsNumber rest)
    (hmode : mode = .exponentMark ∨ mode = .exponentSign) :
    run mode frames (ds ++ rest) = resume frames rest := by
  obtain ⟨hne, hds⟩ := hds
  cases ds with
  | nil => exact absurd rfl hne
  | cons d ds =>
      obtain ⟨hd, hds⟩ := List.forall_mem_cons.mp hds
      have hsign : isSign d = false := by
        have hplus : d ≠ 0x2B := hd.ne (by decide)
        have hminus : d ≠ 0x2D := hd.ne (by decide)
        simp [isSign, hplus, hminus]
      have hgo : advance mode frames d = .go .exponent frames := by
        rcases hmode with rfl | rfl <;> simp [advance, isDigit_iff.mpr hd, hsign]
      rw [List.cons_append, run_go _ _ hgo, run_digits (by simp) hds, run_numberText hrest rfl]

theorem run_exponent {e : Bytes} (he : Exponent e) (hrest : EndsNumber rest)
    (hmode : mode = .zero ∨ mode = .digits ∨ mode = .decimals) :
    run mode frames (e ++ rest) = resume frames rest := by
  cases he with
  | none => exact run_numberText hrest (by rcases hmode with rfl | rfl | rfl <;> rfl)
  | @marked e s ds mark sign digits =>
      have hgo : advance mode frames e = .go .exponentMark frames := by
        have hpoint : e ≠ 0x2E := by rcases mark with rfl | rfl <;> decide
        have hdigit : isDigit e = false := by rcases mark with rfl | rfl <;> decide
        rcases hmode with rfl | rfl | rfl <;>
          simp [advance, hpoint, hdigit, isExponentMark_iff.mpr mark]
      rw [List.cons_append, run_go _ _ hgo, List.append_assoc]
      cases sign with
      | none => exact run_exponentDigits digits hrest (Or.inl rfl)
      | plus | minus =>
          rw [List.cons_append, run_go .exponentSign frames
            (by simp [advance, isSign])]
          exact run_exponentDigits digits hrest (Or.inr rfl)

theorem run_fraction {f e : Bytes} (hf : Fraction f) (he : Exponent e) (hrest : EndsNumber rest)
    (hmode : mode = .zero ∨ mode = .digits) :
    run mode frames (f ++ (e ++ rest)) = resume frames rest := by
  cases hf with
  | none => exact run_exponent he hrest (by rcases hmode with rfl | rfl <;> simp)
  | @decimals ds digits =>
      obtain ⟨hne, hds⟩ := digits
      cases ds with
      | nil => exact absurd rfl hne
      | cons d ds =>
          obtain ⟨hd, hds⟩ := List.forall_mem_cons.mp hds
          have hgo : advance mode frames 0x2E = .go .point frames := by
            rcases hmode with rfl | rfl <;> simp [advance, isDigit]
          rw [List.cons_append, List.cons_append, run_go _ _ hgo,
            run_go .decimals frames (by simp [advance, isDigit_iff.mpr hd]),
            run_digits (by simp) hds]
          exact run_exponent he hrest (by simp)

-- From its first digit on a number is read in the same way at its start and after its sign.
theorem advance_firstDigit (hb : IsDigit b) :
    advance .value frames b = advance .minus frames b := by
  have hspace : isSpace b = false := by
    simpa [Bool.eq_false_iff, isSpace_iff] using hb.not_blank
  have hn : b ≠ 0x6E := hb.ne (by decide)
  have ht : b ≠ 0x74 := hb.ne (by decide)
  have hf : b ≠ 0x66 := hb.ne (by decide)
  have hm : b ≠ 0x2D := hb.ne (by decide)
  simp [advance, startValue, hspace, hn, ht, hf, hm, isDigit_iff.mpr hb]

theorem run_unsigned {n : Bytes} (hn : Unsigned n) (hrest : EndsNumber rest) :
    run .minus frames (n ++ rest) = resume frames rest := by
  obtain ⟨whole, fraction, exponent⟩ := hn
  rw [List.append_assoc, List.append_assoc]
  cases whole with
  | zero =>
      rw [List.cons_append, run_go .zero frames (by simp [advance])]
      exact run_fraction fraction exponent hrest (Or.inl rfl)
  | @digits b ds first nonzero more =>
      rw [List.cons_append, run_go .digits frames
        (by simp [advance, nonzero, isDigit_iff.mpr first]), run_digits (by simp) more]
      exact run_fraction fraction exponent hrest (Or.inr rfl)

theorem run_number {n : Bytes} (hn : Grammar.Number n) (hrest : EndsNumber rest) :
    run .value frames (n ++ rest) = resume frames rest := by
  cases hn with
  | positive unsigned =>
      rw [← run_unsigned unsigned hrest]
      obtain ⟨b, text, rfl, hb⟩ := unsigned.first
      exact run_congr _ _ (advance_firstDigit hb)
  | negative unsigned =>
      rw [List.cons_append, run_go .minus frames
        (by simp [advance, startValue, isSpace])]
      exact run_unsigned unsigned hrest

theorem digits_inv (h : run .exponent frames bytes = .ok left) :
    ∃ ds after, bytes = ds ++ after ∧ (∀ d ∈ ds, IsDigit d) ∧ resume frames after = .ok left := by
  obtain ⟨ds, after, rfl, hds, hafter⟩ := exists_split IsDigit bytes
  rw [run_digits (by simp) hds, run_numberEnd rfl] at h
  · exact ⟨ds, after, rfl, hds, h⟩
  · intro b hb
    simp [advance, isDigit_iff, hafter b hb]

theorem exponentDigits_inv (h : run .exponentSign frames bytes = .ok left) :
    ∃ ds after, bytes = ds ++ after ∧ Digits ds ∧ resume frames after = .ok left := by
  cases bytes with
  | nil => exact absurd h (run_end rfl)
  | cons b rest =>
      by_cases hb : IsDigit b
      · rw [run_go .exponent frames
          (by simp [advance, isDigit_iff.mpr hb])] at h
        obtain ⟨ds, after, rfl, hds, hafter⟩ := digits_inv h
        exact ⟨b :: ds, after, rfl, ⟨by simp, List.forall_mem_cons.mpr ⟨hb, hds⟩⟩, hafter⟩
      · exact absurd h (run_refused .malformedNumber (by simp [advance, isDigit_iff, hb]))

theorem exponentMark_inv (h : run .exponentMark frames bytes = .ok left) :
    ∃ s ds after, bytes = s ++ (ds ++ after) ∧ Sign s ∧ Digits ds ∧
      resume frames after = .ok left := by
  cases bytes with
  | nil => exact absurd h (run_end rfl)
  | cons b rest =>
      by_cases hsign : isSign b = true
      · rw [run_go .exponentSign frames (by simp [advance, hsign])] at h
        obtain ⟨ds, after, rfl, hds, hafter⟩ := exponentDigits_inv h
        simp only [isSign, Bool.or_eq_true, decide_eq_true_eq] at hsign
        rcases hsign with rfl | rfl
        · exact ⟨_, ds, after, rfl, .plus, hds, hafter⟩
        · exact ⟨_, ds, after, rfl, .minus, hds, hafter⟩
      · -- without a sign the first digit is read as after one
        rw [run_congr .exponentSign frames (by simp [advance, hsign])] at h
        obtain ⟨ds, after, heq, hds, hafter⟩ := exponentDigits_inv h
        exact ⟨[], ds, after, heq, .none, hds, hafter⟩

theorem exponent_inv (hmode : mode.endsNumber = true) (hne : mode ≠ .exponent)
    (h : run mode frames bytes = .ok left)
    (hbytes : ∀ b ∈ bytes.head?, ¬IsDigit b ∧ (mode = .decimals ∨ b ≠ 0x2E)) :
    ∃ e after, bytes = e ++ after ∧ Exponent e ∧ resume frames after = .ok left := by
  cases bytes with
  | nil =>
      rw [run_numberEnd hmode (by simp)] at h
      exact ⟨[], [], rfl, .none, h⟩
  | cons b rest =>
      obtain ⟨hdigit, hpoint⟩ := hbytes b rfl
      have hdigit : isDigit b = false := by simpa [Bool.eq_false_iff, isDigit_iff] using hdigit
      by_cases hmark : isExponentMark b = true
      · have hgo : advance mode frames b = .go .exponentMark frames := by
          cases mode <;> simp_all [advance, Mode.endsNumber]
        rw [run_go _ _ hgo] at h
        obtain ⟨s, ds, after, rfl, hs, hds, hafter⟩ := exponentMark_inv h
        exact ⟨b :: (s ++ ds), after, by simp, .marked (isExponentMark_iff.mp hmark) hs hds, hafter⟩
      · have hend : advance mode frames b = afterNumber frames b := by
          cases mode <;> simp_all [advance, Mode.endsNumber]
        rw [run_afterNumber hend] at h
        exact ⟨[], b :: rest, rfl, .none, h⟩

theorem fraction_inv (hmode : mode = .zero ∨ mode = .digits) (h : run mode frames bytes = .ok left)
    (hbytes : ∀ b ∈ bytes.head?, ¬IsDigit b) :
    ∃ f e after, bytes = f ++ (e ++ after) ∧ Fraction f ∧ Exponent e ∧
      resume frames after = .ok left := by
  by_cases hpoint : ∃ rest, bytes = 0x2E :: rest
  · obtain ⟨rest, rfl⟩ := hpoint
    have hgo : advance mode frames 0x2E = .go .point frames := by
      rcases hmode with rfl | rfl <;> simp [advance, isDigit]
    rw [run_go _ _ hgo] at h
    cases rest with
    | nil => exact absurd h (run_end rfl)
    | cons d rest =>
        by_cases hd : IsDigit d
        · rw [run_go .decimals frames
            (by simp [advance, isDigit_iff.mpr hd])] at h
          obtain ⟨ds, rest, rfl, hds, hrest⟩ := exists_split IsDigit rest
          rw [run_digits (by simp) hds] at h
          obtain ⟨e, after, rfl, he, hafter⟩ := exponent_inv rfl (by simp) h
            fun b hb => ⟨hrest b hb, Or.inl rfl⟩
          exact ⟨0x2E :: d :: ds, e, after, rfl,
            .decimals ⟨by simp, List.forall_mem_cons.mpr ⟨hd, hds⟩⟩, he, hafter⟩
        · exact absurd h (run_refused .malformedNumber
            (by simp [advance, isDigit_iff, hd]))
  · have hnopoint : ∀ b ∈ bytes.head?, b ≠ 0x2E := by
      rintro b hb rfl
      obtain ⟨rest, rfl⟩ := List.head?_eq_some_iff.mp hb
      exact hpoint ⟨rest, rfl⟩
    obtain ⟨e, after, rfl, he, hafter⟩ := exponent_inv (by rcases hmode with rfl | rfl <;> rfl)
      (by rcases hmode with rfl | rfl <;> simp) h
      fun b hb => ⟨hbytes b hb, Or.inr (hnopoint b hb)⟩
    exact ⟨[], e, after, rfl, .none, he, hafter⟩

theorem unsigned_inv (h : run .minus frames bytes = .ok left) :
    ∃ n after, bytes = n ++ after ∧ Unsigned n ∧ resume frames after = .ok left := by
  cases bytes with
  | nil => exact absurd h (run_end rfl)
  | cons b rest =>
      by_cases hzero : b = 0x30
      · subst hzero
        rw [run_go .zero frames (by simp [advance])] at h
        have hrest : ∀ d ∈ rest.head?, ¬IsDigit d := by
          intro d hd hdigit
          obtain ⟨rest, rfl⟩ := List.head?_eq_some_iff.mp hd
          exact absurd h (run_refused .malformedNumber
            (by simp [advance, isDigit_iff.mpr hdigit]))
        obtain ⟨f, e, after, rfl, hf, he, hafter⟩ := fraction_inv (Or.inl rfl) h hrest
        exact ⟨_, after, by simp, .parts .zero hf he, hafter⟩
      by_cases hb : IsDigit b
      · rw [run_go .digits frames
          (by simp [advance, hzero, isDigit_iff.mpr hb])] at h
        obtain ⟨ds, rest, rfl, hds, hrest⟩ := exists_split IsDigit rest
        rw [run_digits (by simp) hds] at h
        obtain ⟨f, e, after, rfl, hf, he, hafter⟩ := fraction_inv (Or.inr rfl) h hrest
        exact ⟨_, after, by simp, .parts (.digits hb hzero hds) hf he, hafter⟩
      · exact absurd h (run_refused .malformedNumber
          (by simp [advance, hzero, isDigit_iff, hb]))

end Numbers

section Values

variable {space text : Bytes}

theorem run_space (hspace : Space space)
    (hmode : (mode = .value ∨ mode = .key ∨ mode = .colon) ∨
      (mode = .opened ∨ mode = .after) ∧ frames ≠ []) :
    run mode frames (space ++ rest) = run mode frames rest := by
  apply run_loop (p := IsBlank) _ hspace
  intro b hb
  have hb := isSpace_iff.mpr hb
  rcases hmode with (rfl | rfl | rfl) | ⟨rfl | rfl, hne⟩
  · simp [advance, hb]
  · simp [advance, hb]
  · simp [advance, hb]
  · obtain ⟨frame, outer, rfl⟩ := List.exists_cons_of_ne_nil hne
    simp [advance, hb]
  · obtain ⟨frame, outer, rfl⟩ := List.exists_cons_of_ne_nil hne
    simp [advance, continueFrame, hb]

theorem endsNumber_cons (hb : ¬IsDigit b ∧ b ≠ 0x2E ∧ b ≠ 0x65 ∧ b ≠ 0x45) :
    EndsNumber (b :: rest) := by
  intro x hx
  obtain rfl := Option.some.inj hx
  exact hb

theorem endsNumber_space (hspace : Space space) (hrest : EndsNumber rest) :
    EndsNumber (space ++ rest) := by
  cases space with
  | nil => exact hrest
  | cons b space =>
      have hb : IsBlank b := hspace b List.mem_cons_self
      exact endsNumber_cons ⟨fun hd => hd.not_blank hb,
        by rcases hb with rfl | rfl | rfl | rfl <;> decide⟩

theorem not_isSpace (h : ¬IsBlank b) : isSpace b = false := by
  simpa [Bool.eq_false_iff, isSpace_iff] using h

theorem run_opened_value (hb : ¬IsBlank b) (hclose : b ≠ 0x5D) :
    run .opened (.list :: frames) (b :: rest) = run .value (.list :: frames) (b :: rest) := by
  apply run_congr
  simp [advance, Frame.closer, hclose, not_isSpace hb]

theorem run_opened_key :
    run .opened (.object :: frames) (0x22 :: rest) = run .key (.object :: frames) (0x22 :: rest) :=
  run_congr _ _ (by simp [advance, isSpace, Frame.closer])

theorem run_opened_elements (h : Elements text) :
    run .opened (.list :: frames) (text ++ rest) = run .value (.list :: frames) (text ++ rest) := by
  obtain ⟨space, b, more, rfl, hspace, hb, hclose⟩ := h.first
  rw [List.append_assoc, run_space hspace (by simp), run_space hspace (by simp), List.cons_append,
    run_opened_value hb hclose]

theorem run_opened_members (h : Members text) :
    run .opened (.object :: frames) (text ++ rest) =
      run .key (.object :: frames) (text ++ rest) := by
  obtain ⟨space, more, rfl, hspace⟩ := h.first
  rw [List.append_assoc, run_space hspace (by simp), run_space hspace (by simp), List.cons_append,
    run_opened_key]

theorem run_closer (frame : Frame) :
    run .after (frame :: frames) (frame.closer :: rest) = resume frames rest := by
  apply run_completed
  cases frame <;> simp [advance, continueFrame, Frame.closer, isSpace]

theorem run_opened_closer (frame : Frame) (frames : List Frame) (rest : Bytes)
    (hspace : Space space) :
    run .opened (frame :: frames) (space ++ frame.closer :: rest) = resume frames rest := by
  rw [run_space hspace (by simp)]
  apply run_completed
  cases frame <;> simp [advance, Frame.closer, isSpace]

mutual

theorem run_value {text : Bytes} (h : Value text) {frames : List Frame} {rest : Bytes}
    (hrest : EndsNumber rest) :
    run .value frames (text ++ rest) = resume frames rest := by
  match h with
  | .null =>
      rw [List.cons_append, run_go (.literal nullTail) frames rfl]
      exact run_literal
  | .true =>
      rw [List.cons_append, run_go (.literal trueTail) frames rfl]
      exact run_literal
  | .false =>
      rw [List.cons_append, run_go (.literal falseTail) frames rfl]
      exact run_literal
  | .number number => exact run_number number hrest
  | .string string =>
      obtain ⟨contents⟩ := string
      rw [List.cons_append, run_go (.text .false) frames rfl,
        List.append_assoc]
      exact run_contents contents
  | .emptyList blank =>
      rw [List.cons_append, run_go .opened (.list :: frames) rfl,
        List.append_assoc]
      exact run_opened_closer .list frames rest blank
  | .list elements =>
      rw [List.cons_append, run_go .opened (.list :: frames) rfl,
        List.append_assoc, run_opened_elements elements]
      exact run_elements elements
  | .emptyObject blank =>
      rw [List.cons_append, run_go .opened (.object :: frames) rfl,
        List.append_assoc]
      exact run_opened_closer .object frames rest blank
  | .object members =>
      rw [List.cons_append, run_go .opened (.object :: frames) rfl,
        List.append_assoc, run_opened_members members]
      exact run_members members

theorem run_element {text : Bytes} (h : Element text) {frame : Frame} {frames : List Frame}
    {rest : Bytes} (hrest : EndsNumber rest) :
    run .value (frame :: frames) (text ++ rest) = run .after (frame :: frames) rest := by
  match h with
  | .spaced leading value trailing =>
      rw [List.append_assoc, List.append_assoc, run_space leading (by simp),
        run_value value (endsNumber_space trailing hrest)]
      exact run_space trailing (by simp)

theorem run_elements {text : Bytes} (h : Elements text) {frames : List Frame} {rest : Bytes} :
    run .value (.list :: frames) (text ++ 0x5D :: rest) = resume frames rest := by
  match h with
  | .last element =>
      rw [run_element element (endsNumber_cons (by decide))]
      exact run_closer .list
  | .more element elements =>
      rw [List.append_assoc, List.cons_append,
        run_element element (endsNumber_cons (by decide)),
        run_go .value (.list :: frames) rfl]
      exact run_elements elements

theorem run_member {text : Bytes} (h : Member text) {frame : Frame} {frames : List Frame}
    {rest : Bytes} (hrest : EndsNumber rest) :
    run .key (frame :: frames) (text ++ rest) = run .after (frame :: frames) rest := by
  match h with
  | .named leading string trailing element =>
      obtain ⟨contents⟩ := string
      simp only [List.append_assoc, List.cons_append, List.nil_append]
      rw [run_space leading (by simp),
        run_go (.text .true) (frame :: frames) rfl, run_contents contents]
      show run .colon _ _ = _
      rw [run_space trailing (by simp), run_go .value (frame :: frames) rfl]
      exact run_element element hrest

theorem run_members {text : Bytes} (h : Members text) {frames : List Frame} {rest : Bytes} :
    run .key (.object :: frames) (text ++ 0x7D :: rest) = resume frames rest := by
  match h with
  | .last member =>
      rw [run_member member (endsNumber_cons (by decide))]
      exact run_closer .object
  | .more member members =>
      rw [List.append_assoc, List.cons_append,
        run_member member (endsNumber_cons (by decide)),
        run_go .key (.object :: frames) rfl]
      exact run_members members

end

-- What has to follow a comma inside a container.
def nextMode : Frame → Mode
  | .list => .value
  | .object => .key

-- What may stand behind a value inside a container.
def Continues (frame : Frame) (frames : List Frame) (left : Bytes) (b : UInt8) (rest : Bytes) :
    Prop :=
  b = frame.closer ∧ resume frames rest = .ok left ∨
    b = 0x2C ∧ run (nextMode frame) (frame :: frames) rest = .ok left

theorem after_inv (h : run .after (frame :: frames) bytes = .ok left) :
    ∃ space b rest, bytes = space ++ b :: rest ∧ Space space ∧
      Continues frame frames left b rest := by
  obtain ⟨space, rest, rfl, hspace, hrest⟩ := exists_split IsBlank bytes
  rw [run_space hspace (by simp)] at h
  cases rest with
  | nil => exact absurd h (run_end rfl)
  | cons b rest =>
      have hb := not_isSpace (hrest b rfl)
      refine ⟨space, b, rest, rfl, hspace, ?_⟩
      by_cases hclose : b = frame.closer
      · subst hclose
        rw [run_closer] at h
        exact Or.inl ⟨rfl, h⟩
      by_cases hcomma : b = 0x2C
      · subst hcomma
        rw [run_go (nextMode frame) (frame :: frames)
          (by cases frame <;> rfl)] at h
        exact Or.inr ⟨rfl, h⟩
      · cases frame with
        | list =>
            exact absurd h (run_refused .expectedCommaInList
              (by simp [advance, continueFrame, hb, hclose, hcomma]))
        | object =>
            exact absurd h (run_refused .expectedCommaInObject
              (by simp [advance, continueFrame, hb, hclose, hcomma]))

-- Texts shorter than a bound are read as values of the grammar.
def SoundBelow (n : Nat) : Prop :=
  ∀ {bytes left : Bytes} {frames : List Frame}, bytes.length < n →
    run .value frames bytes = .ok left →
      ∃ before text after, bytes = before ++ (text ++ after) ∧ Space before ∧ Value text ∧
        resume frames after = .ok left

variable {n : Nat}

theorem element_inv (hn : SoundBelow n) (hlength : bytes.length < n)
    (h : run .value (frame :: frames) bytes = .ok left) :
    ∃ text b rest, bytes = text ++ b :: rest ∧ Element text ∧
      Continues frame frames left b rest := by
  obtain ⟨before, text, after, rfl, hbefore, hvalue, hafter⟩ := hn hlength h
  obtain ⟨space, b, rest, rfl, hspace, hcontinues⟩ := after_inv hafter
  exact ⟨before ++ (text ++ space), b, rest, by simp, .spaced hbefore hvalue hspace, hcontinues⟩

theorem elements_inv (hn : SoundBelow n) (hlength : bytes.length < n)
    (h : run .value (.list :: frames) bytes = .ok left) :
    ∃ text after, bytes = text ++ 0x5D :: after ∧ Elements text ∧
      resume frames after = .ok left := by
  induction hm : bytes.length using Nat.strongRecOn generalizing bytes with
  | ind m ih =>
      subst hm
      obtain ⟨text, b, rest, rfl, helement, hcontinues⟩ := element_inv hn hlength h
      rcases hcontinues with ⟨rfl, hafter⟩ | ⟨rfl, hmore⟩
      · exact ⟨text, rest, rfl, .last helement, hafter⟩
      · have hlt : rest.length < (text ++ 0x2C :: rest).length := by
          simp only [List.length_append, List.length_cons]
          omega
        obtain ⟨more, after, rfl, helements, hafter⟩ :=
          ih rest.length hlt (Nat.lt_trans hlt hlength) hmore rfl
        exact ⟨text ++ 0x2C :: more, after, by simp, .more helement helements, hafter⟩

theorem member_inv (hn : SoundBelow n) (hlength : bytes.length < n)
    (h : run .key (frame :: frames) bytes = .ok left) :
    ∃ text b rest, bytes = text ++ b :: rest ∧ Member text ∧
      Continues frame frames left b rest := by
  obtain ⟨before, rest, rfl, hbefore, hrest⟩ := exists_split IsBlank bytes
  rw [run_space hbefore (by simp)] at h
  cases rest with
  | nil => exact absurd h (run_end rfl)
  | cons b rest =>
      have hb := not_isSpace (hrest b rfl)
      by_cases hquote : b = 0x22
      · subst hquote
        rw [run_go (.text true) (frame :: frames) rfl] at h
        obtain ⟨name, colon, rfl, hname, hcolon⟩ := contents_inv h
        replace hcolon : run .colon (frame :: frames) colon = .ok left := hcolon
        obtain ⟨space, colon, rfl, hspace, hhead⟩ := exists_split IsBlank colon
        rw [run_space hspace (by simp)] at hcolon
        cases colon with
        | nil => exact absurd hcolon (run_end rfl)
        | cons c rest =>
            have hc := not_isSpace (hhead c rfl)
            by_cases hc' : c = 0x3A
            · subst hc'
              rw [run_go .value (frame :: frames) rfl] at hcolon
              have hlt : rest.length < n := by
                simp only [List.length_append, List.length_cons] at hlength
                omega
              obtain ⟨text, b, rest, rfl, helement, hcontinues⟩ := element_inv hn hlt hcolon
              exact ⟨_, b, rest, by simp, .named hbefore (.quoted hname) hspace helement,
                hcontinues⟩
            · exact absurd hcolon (run_refused .expectedColon
                (by simp [advance, hc, hc']))
      · exact absurd h (run_refused .expectedStringKey
          (by simp [advance, startKey, hb, hquote]))

theorem members_inv (hn : SoundBelow n) (hlength : bytes.length < n)
    (h : run .key (.object :: frames) bytes = .ok left) :
    ∃ text after, bytes = text ++ 0x7D :: after ∧ Members text ∧
      resume frames after = .ok left := by
  induction hm : bytes.length using Nat.strongRecOn generalizing bytes with
  | ind m ih =>
      subst hm
      obtain ⟨text, b, rest, rfl, hmember, hcontinues⟩ := member_inv hn hlength h
      rcases hcontinues with ⟨rfl, hafter⟩ | ⟨rfl, hmore⟩
      · exact ⟨text, rest, rfl, .last hmember, hafter⟩
      · have hlt : rest.length < (text ++ 0x2C :: rest).length := by
          simp only [List.length_append, List.length_cons]
          omega
        obtain ⟨more, after, rfl, hmembers, hafter⟩ :=
          ih rest.length hlt (Nat.lt_trans hlt hlength) hmore rfl
        exact ⟨text ++ 0x2C :: more, after, by simp, .more hmember hmembers, hafter⟩

theorem list_inv (hn : SoundBelow n) (hlength : bytes.length < n)
    (h : run .opened (.list :: frames) bytes = .ok left) :
    ∃ text after, 0x5B :: bytes = text ++ after ∧ Value text ∧ resume frames after = .ok left := by
  obtain ⟨space, rest, rfl, hspace, hrest⟩ := exists_split IsBlank bytes
  have hopened := h
  rw [run_space hspace (by simp)] at h
  cases rest with
  | nil => exact absurd h (run_end rfl)
  | cons b rest =>
      by_cases hclose : b = 0x5D
      · subst hclose
        have hclosed := run_opened_closer .list frames rest hspace
        exact ⟨_, rest, by simp, .emptyList hspace, hclosed.symm.trans hopened⟩
      · rw [run_opened_value (hrest b rfl) hclose,
          ← run_space hspace (by simp)] at h
        obtain ⟨text, after, heq, helements, hafter⟩ := elements_inv hn hlength h
        exact ⟨_, after, by simp [heq], .list helements, hafter⟩

theorem object_inv (hn : SoundBelow n) (hlength : bytes.length < n)
    (h : run .opened (.object :: frames) bytes = .ok left) :
    ∃ text after, 0x7B :: bytes = text ++ after ∧ Value text ∧ resume frames after = .ok left := by
  obtain ⟨space, rest, rfl, hspace, hrest⟩ := exists_split IsBlank bytes
  have hopened := h
  rw [run_space hspace (by simp)] at h
  cases rest with
  | nil => exact absurd h (run_end rfl)
  | cons b rest =>
      by_cases hclose : b = 0x7D
      · subst hclose
        have hclosed := run_opened_closer .object frames rest hspace
        exact ⟨_, rest, by simp, .emptyObject hspace, hclosed.symm.trans hopened⟩
      · have hkey : advance .opened (.object :: frames) b = advance .key (.object :: frames) b := by
          simp [advance, Frame.closer, not_isSpace (hrest b rfl), hclose]
        rw [run_congr _ _ hkey, ← run_space hspace (by simp)] at h
        obtain ⟨text, after, heq, hmembers, hafter⟩ := members_inv hn hlength h
        exact ⟨_, after, by simp [heq], .object hmembers, hafter⟩

-- A value from its first byte on.
theorem startValue_inv (hn : SoundBelow n) (hlength : rest.length < n) (hb : ¬IsBlank b)
    (h : run .value frames (b :: rest) = .ok left) :
    ∃ text after, b :: rest = text ++ after ∧ Value text ∧ resume frames after = .ok left := by
  by_cases hnull : b = 0x6E
  · subst hnull
    rw [run_go (.literal nullTail) frames rfl] at h
    obtain ⟨after, rfl, hafter⟩ := literal_inv h
    exact ⟨_, after, rfl, .null, hafter⟩
  by_cases htrue : b = 0x74
  · subst htrue
    rw [run_go (.literal trueTail) frames rfl] at h
    obtain ⟨after, rfl, hafter⟩ := literal_inv h
    exact ⟨_, after, rfl, .true, hafter⟩
  by_cases hfalse : b = 0x66
  · subst hfalse
    rw [run_go (.literal falseTail) frames rfl] at h
    obtain ⟨after, rfl, hafter⟩ := literal_inv h
    exact ⟨_, after, rfl, .false, hafter⟩
  by_cases hminus : b = 0x2D
  · subst hminus
    rw [run_go .minus frames rfl] at h
    obtain ⟨text, after, rfl, hunsigned, hafter⟩ := unsigned_inv h
    exact ⟨_, after, rfl, .number (.negative hunsigned), hafter⟩
  by_cases hdigit : IsDigit b
  · rw [run_congr _ _ (advance_firstDigit hdigit)] at h
    obtain ⟨text, after, heq, hunsigned, hafter⟩ := unsigned_inv h
    exact ⟨text, after, heq, .number (.positive hunsigned), hafter⟩
  by_cases hquote : b = 0x22
  · subst hquote
    rw [run_go (.text false) frames rfl] at h
    obtain ⟨text, after, rfl, hcontents, hafter⟩ := contents_inv h
    exact ⟨_, after, by simp, .string (.quoted hcontents), hafter⟩
  by_cases hlist : b = 0x5B
  · subst hlist
    rw [run_go .opened (.list :: frames) rfl] at h
    exact list_inv hn hlength h
  by_cases hobject : b = 0x7B
  · subst hobject
    rw [run_go .opened (.object :: frames) rfl] at h
    exact object_inv hn hlength h
  · have hzero : b ≠ 0x30 := by
      rintro rfl
      exact hdigit (by decide)
    exact absurd h (run_refused .expectedValue (by
      simp [advance, startValue, not_isSpace hb, isDigit_iff, *]))

theorem soundBelow (n : Nat) : SoundBelow n := by
  induction n with
  | zero => exact fun hlength => absurd hlength (Nat.not_lt_zero _)
  | succ n ih =>
      intro bytes left frames hlength h
      obtain ⟨before, rest, rfl, hbefore, hrest⟩ := exists_split IsBlank bytes
      rw [run_space hbefore (by simp)] at h
      cases rest with
      | nil => exact absurd h (run_end rfl)
      | cons b rest =>
          have hlt : rest.length < n := by
            simp only [List.length_append, List.length_cons] at hlength
            omega
          obtain ⟨text, after, heq, hvalue, hafter⟩ := startValue_inv ih hlt (hrest b rfl) h
          exact ⟨before, text, after, by rw [heq], hbefore, hvalue, hafter⟩

end Values

end Skip

theorem finish_eq_ok_iff {rest : Bytes} : finish rest = .ok () ↔ Space rest := by
  unfold finish dropSpace
  constructor
  · intro h
    have hnil : rest.dropWhile isSpace = [] := by
      split at h
      · assumption
      · cases h
    intro b hb
    exact isSpace_iff.mp (List.dropWhile_eq_nil_iff.mp hnil b hb)
  · intro h
    rw [List.dropWhile_eq_nil_iff.mpr fun b hb => isSpace_iff.mpr (h b hb)]

-- What is accepted is the grammar: one value with space around it.
theorem check_eq_ok_iff {bytes : Bytes} : check bytes = .ok () ↔ Text bytes := by
  constructor
  · intro h
    cases hs : skipValue bytes with
    | error fault => simp [check, hs, bind, Except.bind] at h
    | ok rest =>
        replace h : finish rest = .ok () := by simpa [check, hs, bind, Except.bind] using h
        obtain ⟨before, text, after, rfl, hbefore, hvalue, hafter⟩ :=
          Skip.soundBelow _ (Nat.lt_succ_self _) hs
        obtain rfl := Except.ok.inj hafter
        exact .spaced hbefore hvalue (finish_eq_ok_iff.mp h)
  · intro h
    obtain ⟨leading, value, trailing⟩ := h
    rename_i before text after
    have hends : Skip.EndsNumber after := by
      have hnil : Skip.EndsNumber [] := by simp [Skip.EndsNumber]
      simpa using Skip.endsNumber_space trailing hnil
    have hskip : skipValue (before ++ (text ++ after)) = .ok after := by
      unfold skipValue
      rw [Skip.run_space leading (by simp), Skip.run_value value hends]
      rfl
    simp only [check, hskip, bind, Except.bind]
    exact finish_eq_ok_iff.mpr trailing

end PolyCache.Json
