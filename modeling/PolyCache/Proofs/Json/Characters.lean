import PolyCache.Proofs.Json.Skip
import PolyCache.Proofs.Json.Text

-- Strings and their spellings. A string is read if it consists of characters, however they are
-- spelled; half of a surrogate pair is none.
namespace PolyCache.Json

open Grammar

-- A string may hold halves of surrogate pairs whose other half is missing.
inductive Point where
  | char (c : Char)
  | half (n : Nat)
deriving DecidableEq

def points (s : String) : List Point := s.toList.map .char

theorem points_inj {s t : String} : points s = points t ↔ s = t := by
  rw [points, points, List.map_inj_right fun c d hcd => Point.char.inj hcd, String.toList_inj]

-- Four hexadecimal digits.
inductive Hex : Bytes → Nat → Prop where
  | digits {a b c d : UInt8} {w x y z : Nat} (first : hexValue? a = some w)
      (second : hexValue? b = some x) (third : hexValue? c = some y)
      (fourth : hexValue? d = some z) : Hex [a, b, c, d] (((w * 16 + x) * 16 + y) * 16 + z)

-- The character of a surrogate pair.
def paired (m n : Nat) : Char := Char.ofNat (0x10000 + (m - 0xD800) * 1024 + (n - 0xDC00))

-- What stands between the quotes of a string. A character may be escaped, and two surrogates in a
-- row are one character if they belong together.
inductive Characters : List Point → Bytes → Prop where
  | nil : Characters [] []
  | plain {c : Char} {points : List Point} {text : Bytes} (visible : 0x20 ≤ c.toNat)
      (noQuote : c ≠ '"') (noBackslash : c ≠ '\\') (more : Characters points text) :
      Characters (.char c :: points) (Utf8.encodeChar c ++ text)
  | letter {c : Char} {b : UInt8} {points : List Point} {text : Bytes}
      (short : shortEscape? b = some c) (more : Characters points text) :
      Characters (.char c :: points) (0x5C :: b :: text)
  | number {digits : Bytes} {n : Nat} {points : List Point} {text : Bytes} (hex : Hex digits n)
      (notLeading : isLeadingSurrogate n = false) (notTrailing : isTrailingSurrogate n = false)
      (more : Characters points text) :
      Characters (.char (Char.ofNat n) :: points) (0x5C :: 0x75 :: (digits ++ text))
  | pair {first second : Bytes} {m n : Nat} {points : List Point} {text : Bytes} (hex : Hex first m)
      (leading : isLeadingSurrogate m = true) (hex' : Hex second n)
      (trailing : isTrailingSurrogate n = true) (more : Characters points text) :
      Characters (.char (paired m n) :: points)
        (0x5C :: 0x75 :: (first ++ 0x5C :: 0x75 :: (second ++ text)))
  | trailing {digits : Bytes} {n : Nat} {points : List Point} {text : Bytes} (hex : Hex digits n)
      (trailing : isTrailingSurrogate n = true) (more : Characters points text) :
      Characters (.half n :: points) (0x5C :: 0x75 :: (digits ++ text))
  | leading {digits : Bytes} {n : Nat} {points : List Point} {text : Bytes} (hex : Hex digits n)
      (leading : isLeadingSurrogate n = true)
      (alone : ∀ m, points.head? = some (.half m) → isTrailingSurrogate m = false)
      (more : Characters points text) :
      Characters (.half n :: points) (0x5C :: 0x75 :: (digits ++ text))

section Existence

variable {text rest : Bytes}

theorem low_of_isEscaped {b : UInt8} (h : IsEscaped b) : b.toNat < 0x80 := by
  rcases h with rfl | rfl | rfl | rfl | rfl | rfl | rfl | rfl <;> decide

theorem low_of_isHexDigit {b : UInt8} (h : IsHexDigit b) : b.toNat < 0x80 := by
  simp only [IsHexDigit, IsDigit, UInt8.le_iff_toNat_le, UInt8.reduceToNat] at h
  omega

theorem short_of_isEscaped {b : UInt8} (h : IsEscaped b) : ∃ c, shortEscape? b = some c := by
  rcases h with rfl | rfl | rfl | rfl | rfl | rfl | rfl | rfl <;> exact ⟨_, rfl⟩

theorem contents_of_append {plain : Bytes} (hplain : ∀ b ∈ plain, IsPlain b)
    (h : Contents (plain ++ rest)) : Contents rest := by
  induction plain with
  | nil => exact h
  | cons b plain ih =>
      obtain ⟨⟨-, -, hbackslash⟩, hmore⟩ := List.forall_mem_cons.mp hplain
      rw [List.cons_append] at h
      generalize heq : plain ++ rest = text at h
      cases h with
      | plain _ _ _ more => exact ih hmore (heq ▸ more)
      | escape | number => exact absurd rfl hbackslash

-- A character whose first byte stands for itself does so, too.
theorem visible_of_first {c : Char} {b : UInt8} (hb : IsPlain b)
    (h : Utf8.encodeChar c ++ text = b :: rest) :
    0x20 ≤ c.toNat ∧ c ≠ '"' ∧ c ≠ '\\' := by
  obtain ⟨hvisible, hquote, hbackslash⟩ := hb
  refine ⟨?_, ?_, ?_⟩
  · by_contra hc
    have hone : Utf8.encodeChar c = [c.toNat.toUInt8] := if_pos (by omega)
    rw [hone] at h
    obtain ⟨rfl, -⟩ := List.cons.inj h
    rw [UInt8.le_iff_toNat_le, Utf8.toNat_toUInt8 (by omega)] at hvisible
    exact hc hvisible
  · rintro rfl
    exact hquote (List.cons.inj h).1.symm
  · rintro rfl
    exact hbackslash (List.cons.inj h).1.symm

theorem visible_isPlain {c : Char} (hvisible : 0x20 ≤ c.toNat) (hquote : c ≠ '"')
    (hbackslash : c ≠ '\\') : ∀ b ∈ Utf8.encodeChar c, IsPlain b := by
  refine encodeChar_isPlain ?_ (Nat.not_lt.mpr hvisible)
  have hcontrol {n : Nat} (hn : n < 0x20) : c ≠ Char.ofNat n := by
    rintro rfl
    rw [Utf8.toNat_ofNat (by omega)] at hvisible
    omega
  simp [shortLetter?, hquote, hbackslash, hcontrol (n := 0x08), hcontrol (n := 0x0C),
    hcontrol (n := 0x0A), hcontrol (n := 0x0D), hcontrol (n := 0x09)]

theorem length_encodeChar_pos (c : Char) : 0 < (Utf8.encodeChar c).length := by
  unfold Utf8.encodeChar
  dsimp only
  repeat' split
  all_goals exact Nat.succ_pos _

theorem exists_hex {a b c d : UInt8} (ha : IsHexDigit a) (hb : IsHexDigit b) (hc : IsHexDigit c)
    (hd : IsHexDigit d) : ∃ n, Hex [a, b, c, d] n := by
  obtain ⟨w, hw⟩ := Option.isSome_iff_exists.mp (hexValue?_isSome_iff.mpr ha)
  obtain ⟨x, hx⟩ := Option.isSome_iff_exists.mp (hexValue?_isSome_iff.mpr hb)
  obtain ⟨y, hy⟩ := Option.isSome_iff_exists.mp (hexValue?_isSome_iff.mpr hc)
  obtain ⟨z, hz⟩ := Option.isSome_iff_exists.mp (hexValue?_isSome_iff.mpr hd)
  exact ⟨_, .digits hw hx hy hz⟩

theorem isTrailing_of_isLeading {n : Nat} (h : isLeadingSurrogate n = true) :
    isTrailingSurrogate n = false := by
  simp only [isLeadingSurrogate, isTrailingSurrogate, Bool.and_eq_true, Bool.and_eq_false_iff,
    decide_eq_true_eq, decide_eq_false_iff_not] at h ⊢
  omega

-- Where a string begins with a trailing half, its escape can be taken away.
theorem Characters.of_trailing {m : Nat} {points : List Point}
    (h : Characters (.half m :: points) text) (hm : isTrailingSurrogate m = true) :
    ∃ digits rest, text = 0x5C :: 0x75 :: (digits ++ rest) ∧ Hex digits m ∧
      Characters points rest := by
  cases h with
  | trailing hex _ more => exact ⟨_, _, rfl, hex, more⟩
  | leading hex leading => exact absurd hm (by simp [isTrailing_of_isLeading leading])

theorem exists_escaped {digits : Bytes} {n : Nat} (hex : Hex digits n) {points : List Point}
    (h : Characters points text) :
    ∃ points, Characters points (0x5C :: 0x75 :: (digits ++ text)) := by
  by_cases htrailing : isTrailingSurrogate n = true
  · exact ⟨_, .trailing hex htrailing h⟩
  by_cases hleading : isLeadingSurrogate n = true
  · by_cases hpair : ∃ m more, points = .half m :: more ∧ isTrailingSurrogate m = true
    · obtain ⟨m, more, rfl, hm⟩ := hpair
      obtain ⟨digits', rest, rfl, hex', hmore⟩ := h.of_trailing hm
      exact ⟨_, .pair hex hleading hex' hm hmore⟩
    · refine ⟨_, .leading hex hleading (fun m hm => ?_) h⟩
      obtain ⟨more, rfl⟩ := List.head?_eq_some_iff.mp hm
      exact Bool.eq_false_iff.mpr fun htrue => hpair ⟨m, more, rfl, htrue⟩
  · exact ⟨_, .number hex (Bool.eq_false_iff.mpr hleading) (Bool.eq_false_iff.mpr htrailing) h⟩

-- Every string of the grammar consists of something. The induction is on the length, because a
-- character may take several bytes that stand for themselves.
theorem exists_characters (h : Contents text) (htext : Utf8.IsText text) :
    ∃ points, Characters points text := by
  induction hlength : text.length using Nat.strongRecOn generalizing text with
  | ind length ih =>
      subst hlength
      cases h with
      | nil => exact ⟨[], .nil⟩
      | @plain b text visible noQuote noBackslash more =>
          have hb : IsPlain b := ⟨visible, noQuote, noBackslash⟩
          obtain ⟨_ | ⟨c, chars⟩, heq⟩ := htext
          · cases heq
          rw [Utf8.encode_cons] at heq
          obtain ⟨hvisible, hquote, hbackslash⟩ := visible_of_first hb heq.symm
          have hcontents : Contents (b :: text) := .plain visible noQuote noBackslash more
          rw [heq] at hcontents ih ⊢
          obtain ⟨points, hpoints⟩ := ih _
            (by rw [List.length_append]; exact Nat.lt_add_of_pos_left (length_encodeChar_pos c))
            (contents_of_append (visible_isPlain hvisible hquote hbackslash) hcontents)
            ⟨chars, rfl⟩ rfl
          exact ⟨_, .plain hvisible hquote hbackslash hpoints⟩
      | @escape b text escaped more =>
          have htail := (htext.tail (by decide)).tail (low_of_isEscaped escaped)
          obtain ⟨points, hpoints⟩ := ih _ (by simp only [List.length_cons]; omega) more htail rfl
          obtain ⟨c, hc⟩ := short_of_isEscaped escaped
          exact ⟨_, .letter hc hpoints⟩
      | @number a b c d text first second third fourth more =>
          have hdigits := (htext.tail (by decide)).tail (by decide)
          have htail := (((hdigits.tail (low_of_isHexDigit first)).tail
            (low_of_isHexDigit second)).tail (low_of_isHexDigit third)).tail
              (low_of_isHexDigit fourth)
          obtain ⟨points, hpoints⟩ := ih _ (by simp only [List.length_cons]; omega) more htail rfl
          obtain ⟨n, hex⟩ := exists_hex first second third fourth
          exact exists_escaped hex hpoints

end Existence

section Reading

variable {digits text rest left contents : Bytes} {n fuel : Nat} {points : List Point}

-- The characters, if there are no lone halves.
def chars? : List Point → Option (List Char)
  | [] => some []
  | .char c :: points => (chars? points).map (c :: ·)
  | .half _ :: _ => none

theorem chars?_eq_some {chars : List Char} :
    chars? points = some chars ↔ points = chars.map .char := by
  induction points generalizing chars with
  | nil => cases chars <;> simp [chars?]
  | cons p points ih =>
      cases p with
      | half n => cases chars <;> simp [chars?]
      | char c =>
          cases chars with
          | nil => simp [chars?]
          | cons d chars =>
              simp only [chars?, Option.map_eq_some_iff, ih, List.cons.injEq, List.map_cons,
                Point.char.injEq]
              constructor
              · rintro ⟨_, rfl, rfl, rfl⟩
                exact ⟨rfl, rfl⟩
              · rintro ⟨rfl, rfl⟩
                exact ⟨chars, rfl, rfl, rfl⟩

theorem readHex_append (hex : Hex digits n) : readHex (digits ++ rest) = .ok (n, rest) := by
  obtain ⟨first, second, third, fourth⟩ := hex
  simp [readHex, first, second, third, fourth]

theorem readEscape_code : readEscape (0x75 :: text) = readCodePoint text := rfl

theorem readEscape_number (hex : Hex digits n) (hleading : isLeadingSurrogate n = false)
    (htrailing : isTrailingSurrogate n = false) :
    readEscape (0x75 :: digits ++ rest) = .ok (Char.ofNat n, rest) := by
  simp [readEscape_code, readCodePoint, readHex_append hex, hleading, htrailing]

theorem readTrailing_append (hex : Hex digits n) : readTrailing (0x5C :: 0x75 :: (digits ++ rest)) =
    if isTrailingSurrogate n then .ok (n, rest) else .error (.here .loneSurrogate rest) := by
  simp [readTrailing, readHex_append hex]

theorem readEscape_pair {digits' : Bytes} {m : Nat} (hex : Hex digits m)
    (hleading : isLeadingSurrogate m = true) (hex' : Hex digits' n)
    (htrailing : isTrailingSurrogate n = true) :
    readEscape (0x75 :: (digits ++ 0x5C :: 0x75 :: digits') ++ rest) = .ok (paired m n, rest) := by
  have hpair : readTrailing (0x5C :: 0x75 :: (digits' ++ rest)) = .ok (n, rest) := by
    rw [readTrailing_append hex', if_pos htrailing]
  simp [readEscape_code, readCodePoint, readHex_append hex, isTrailing_of_isLeading hleading,
    hleading, hpair, paired]

theorem readEscape_trailing (hex : Hex digits n) (htrailing : isTrailingSurrogate n = true) :
    readEscape (0x75 :: (digits ++ rest)) = .error (.here .loneSurrogate rest) := by
  simp [readEscape_code, readCodePoint, readHex_append hex, htrailing]

theorem readEscape_leading {fault : Fault} (hex : Hex digits n)
    (hleading : isLeadingSurrogate n = true) (hfault : readTrailing rest = .error fault) :
    readEscape (0x75 :: (digits ++ rest)) = .error fault := by
  simp [readEscape_code, readCodePoint, readHex_append hex, isTrailing_of_isLeading hleading,
    hleading, hfault]

-- Behind a lone leading half nothing is taken for the other one.
theorem readTrailing_alone (rest : Bytes) (h : Characters points text)
    (halone : ∀ m, points.head? = some (.half m) → isTrailingSurrogate m = false) :
    ∃ fault, readTrailing (text ++ 0x22 :: rest) = .error fault := by
  have hfirst {b : UInt8} {bytes : Bytes} (hb : b ≠ 0x5C) :
      ∃ fault, readTrailing (b :: bytes) = .error fault := ⟨_, if_pos hb⟩
  have hescape {digits bytes : Bytes} {n : Nat} (hex : Hex digits n)
      (hn : isTrailingSurrogate n = false) :
      ∃ fault, readTrailing (0x5C :: 0x75 :: (digits ++ bytes)) = .error fault :=
    ⟨_, by rw [readTrailing_append hex, hn, if_neg Bool.false_ne_true]⟩
  cases h with
  | nil => exact hfirst (by decide)
  | @plain c _ _ visible noQuote noBackslash more =>
      obtain ⟨b, bytes, heq⟩ := List.exists_cons_of_length_pos (length_encodeChar_pos c)
      obtain ⟨-, -, hb⟩ := visible_isPlain visible noQuote noBackslash b (by simp [heq])
      rw [heq]
      exact hfirst hb
  | @letter c b _ text short more =>
      have hb : b ≠ 0x75 := by
        rintro rfl
        cases short
      refine ⟨.here .unfinishedSurrogate (text ++ 0x22 :: rest), ?_⟩
      rw [List.cons_append, List.cons_append, readTrailing, if_neg (by decide)]
      exact if_pos hb
  | number hex notLeading notTrailing more =>
      rw [List.cons_append, List.cons_append, List.append_assoc]
      exact hescape hex notTrailing
  | pair hex leading hex' trailing more =>
      rw [List.cons_append, List.cons_append, List.append_assoc]
      exact hescape hex (isTrailing_of_isLeading leading)
  | trailing hex trailing more => exact absurd trailing (by simp [halone _ rfl])
  | leading hex leading alone more =>
      rw [List.cons_append, List.cons_append, List.append_assoc]
      exact hescape hex (isTrailing_of_isLeading leading)

theorem readContents_refused {fault : Fault} (h : readEscape text = .error fault) :
    (readContents (fuel + 1) (0x5C :: text)).toOption = none := by
  rw [readContents, if_neg (by decide), if_pos rfl, h]
  rfl

-- What has been read so far goes before the characters that are read next.
theorem toOption_char (c : Char) {result : Except Fault (Bytes × Bytes)}
    (h : result.toOption = (chars? points).map fun chars => (Utf8.encode chars, rest)) :
    (result.map fun (contents, left) => (Utf8.encodeChar c ++ contents, left)).toOption =
      (chars? (.char c :: points)).map fun chars => (Utf8.encode chars, rest) := by
  have hmap : (result.map fun (contents, left) => (Utf8.encodeChar c ++ contents, left)).toOption =
      result.toOption.map fun (contents, left) => (Utf8.encodeChar c ++ contents, left) := by
    cases result <;> rfl
  rw [hmap, h, chars?, Option.map_map, Option.map_map]
  rfl

theorem readContents_escaped {escape : Bytes} {c : Char}
    (hescape : ∀ rest, readEscape (escape ++ rest) = .ok (c, rest))
    (ih : ∀ {fuel}, text.length < fuel → (readContents fuel (text ++ 0x22 :: rest)).toOption =
      (chars? points).map fun chars => (Utf8.encode chars, rest))
    (hfuel : (0x5C :: (escape ++ text)).length < fuel) :
    (readContents fuel (0x5C :: (escape ++ text) ++ 0x22 :: rest)).toOption =
      (chars? (.char c :: points)).map fun chars => (Utf8.encode chars, rest) := by
  obtain ⟨fuel, rfl⟩ := Nat.exists_eq_succ_of_ne_zero (Nat.ne_zero_of_lt hfuel)
  rw [List.length_cons, List.length_append] at hfuel
  rw [List.cons_append, List.append_assoc, readContents_escape (hescape _)]
  exact toOption_char c (ih (by omega))

-- A string is read to its end if it consists of characters. Each of them takes as many steps as it
-- has bytes at most.
theorem readContents_characters (h : Characters points text) (hfuel : text.length < fuel) :
    (readContents fuel (text ++ 0x22 :: rest)).toOption =
      (chars? points).map fun chars => (Utf8.encode chars, rest) := by
  induction h generalizing fuel with
  | nil =>
      obtain ⟨fuel, rfl⟩ := Nat.exists_eq_succ_of_ne_zero (Nat.ne_zero_of_lt hfuel)
      rfl
  | @plain c points text visible noQuote noBackslash more ih =>
      rw [List.length_append] at hfuel
      obtain ⟨fuel, rfl⟩ := Nat.exists_eq_add_of_le (Nat.le_of_lt (Nat.lt_of_le_of_lt
        (Nat.le_add_right _ _) hfuel))
      rw [List.append_assoc, readContents_append (visible_isPlain visible noQuote noBackslash)]
      exact toOption_char c (ih (by omega))
  | letter short more ih => exact readContents_escaped (fun _ => readEscape_letter short) ih hfuel
  | number hex notLeading notTrailing more ih =>
      exact readContents_escaped (fun _ => readEscape_number hex notLeading notTrailing) ih hfuel
  | @pair first second _ _ _ text hex leading hex' trailing more ih =>
      have hlength :
          (0x5C :: (0x75 :: (first ++ 0x5C :: 0x75 :: second) ++ text)).length < fuel := by
        simpa only [List.cons_append, List.append_assoc] using hfuel
      have hread :=
        readContents_escaped (fun _ => readEscape_pair hex leading hex' trailing) ih hlength
      simpa only [List.cons_append, List.append_assoc] using hread
  | trailing hex trailing more =>
      obtain ⟨fuel, rfl⟩ := Nat.exists_eq_succ_of_ne_zero (Nat.ne_zero_of_lt hfuel)
      rw [List.cons_append, List.cons_append, List.append_assoc]
      exact readContents_refused (readEscape_trailing hex trailing)
  | leading hex leading alone more =>
      obtain ⟨fuel, rfl⟩ := Nat.exists_eq_succ_of_ne_zero (Nat.ne_zero_of_lt hfuel)
      obtain ⟨fault, hfault⟩ := readTrailing_alone rest more alone
      rw [List.cons_append, List.cons_append, List.append_assoc]
      exact readContents_refused (readEscape_leading hex leading hfault)

theorem readString_characters (h : Characters points text) :
    (readString (text ++ 0x22 :: rest)).toOption =
      (chars? points).map fun chars => (String.ofList chars, rest) := by
  have hread :
      (readContents ((text ++ 0x22 :: rest).length + 1) (text ++ 0x22 :: rest)).toOption = _ :=
    readContents_characters h (by rw [List.length_append]; omega)
  unfold readString readChars
  cases hcontents : readContents ((text ++ 0x22 :: rest).length + 1) (text ++ 0x22 :: rest) with
  | error fault =>
      rw [hcontents] at hread
      cases hchars : chars? points with
      | none => rfl
      | some chars => simp [hchars, Except.toOption] at hread
  | ok p =>
      rw [hcontents] at hread
      cases hchars : chars? points with
      | none => simp [hchars, Except.toOption] at hread
      | some chars =>
          obtain rfl : p = (Utf8.encode chars, rest) := by
            simpa [hchars, Except.toOption] using hread
          simp [Utf8.decode, Utf8.decodeFrom_encode, Except.toOption]

theorem readString_eq_ok {s : String} (h : Characters points text) :
    readString (text ++ 0x22 :: rest) = .ok (s, left) ↔ points = Json.points s ∧ left = rest := by
  have hiff : readString (text ++ 0x22 :: rest) = .ok (s, left) ↔
      (readString (text ++ 0x22 :: rest)).toOption = some (s, left) := by
    cases readString (text ++ 0x22 :: rest) <;> simp [Except.toOption]
  rw [hiff, readString_characters h, Option.map_eq_some_iff]
  constructor
  · rintro ⟨chars, hchars, heq⟩
    obtain ⟨rfl, rfl⟩ := Prod.mk.inj heq
    exact ⟨by rw [chars?_eq_some.mp hchars, Json.points, String.toList_ofList], rfl⟩
  · rintro ⟨rfl, rfl⟩
    exact ⟨s.toList, chars?_eq_some.mpr rfl, by rw [String.ofList_toList]⟩

end Reading

section Printing

variable {rest : Bytes}

-- A printed string is one spelling of its characters.
theorem characters_printed (chars : List Char) :
    Characters (chars.map .char) (chars.flatMap printChar) := by
  induction chars with
  | nil => exact .nil
  | cons c chars ih =>
      rw [List.map_cons, List.flatMap_cons, printChar]
      split
      · exact .letter (shortLetter?_spec ‹_›).1 ih
      split
      · rename_i hc
        have hex : Hex [0x30, 0x30, hexDigitByte (c.toNat / 16), hexDigitByte (c.toNat % 16)]
            (((0 * 16 + 0) * 16 + c.toNat / 16) * 16 + c.toNat % 16) :=
          .digits rfl rfl (hexValue?_hexDigitByte (by omega)) (hexValue?_hexDigitByte (by omega))
        have hn : ((0 * 16 + 0) * 16 + c.toNat / 16) * 16 + c.toNat % 16 = c.toNat := by omega
        rw [hn] at hex
        have hnumber := Characters.number hex (by simp [isLeadingSurrogate]; omega)
          (by simp [isTrailingSurrogate]; omega) ih
        rwa [Char.ofNat_toNat] at hnumber
      · rename_i hletter hc
        refine .plain (Nat.not_lt.mp hc) ?_ ?_ ih
        · rintro rfl
          cases hletter
        · rintro rfl
          cases hletter

theorem readString_printed (s : String) :
    readString (s.toList.flatMap printChar ++ 0x22 :: rest) = .ok (s, rest) :=
  (readString_eq_ok (characters_printed s.toList)).mpr ⟨rfl, rfl⟩

end Printing

end PolyCache.Json
