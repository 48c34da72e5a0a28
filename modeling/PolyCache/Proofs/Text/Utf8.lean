import PolyCache.Text.Utf8

-- Every text is read back from its bytes, and only from those.
namespace PolyCache.Utf8

theorem encode_append (cs ds : List Char) : encode (cs ++ ds) = encode cs ++ encode ds :=
  List.flatMap_append

theorem encode_cons (c : Char) (cs : List Char) : encode (c :: cs) = encodeChar c ++ encode cs :=
  List.flatMap_cons

theorem toNat_toUInt8 {n : Nat} (h : n < 256) : n.toUInt8.toNat = n := by
  rw [Nat.toUInt8, UInt8.toNat_ofNat']
  exact Nat.mod_eq_of_lt h

-- The numbers of characters leave out the surrogates.
theorem toNat_bounds (c : Char) : c.toNat < 0xD800 ∨ 0xDFFF < c.toNat ∧ c.toNat < 0x110000 :=
  c.valid

theorem isContinuation_toUInt8 (n : Nat) : isContinuation (0x80 + n % 64).toUInt8 = true := by
  have hn : (0x80 + n % 64).toUInt8.toNat = 0x80 + n % 64 := toNat_toUInt8 (by omega)
  simp only [isContinuation, Bool.and_eq_true, decide_eq_true_eq, UInt8.le_iff_toNat_le, hn]
  constructor
  · show 128 ≤ _
    omega
  · show _ ≤ 191
    omega

theorem extend_toUInt8 (bits n : Nat) :
    Lead.extend bits (0x80 + n % 64).toUInt8 = bits * 64 + n % 64 := by
  rw [Lead.extend, toNat_toUInt8 (by omega)]
  omega

-- The first following byte lies in its range.
theorem second_in_range (low high : UInt8) (n : Nat) (hlow : low.toNat ≤ 0x80 + n % 64)
    (hhigh : 0x80 + n % 64 ≤ high.toNat) :
    ((0x80 + n % 64).toUInt8 < low || high < (0x80 + n % 64).toUInt8) = false := by
  have hn : (0x80 + n % 64).toUInt8.toNat = 0x80 + n % 64 := toNat_toUInt8 (by omega)
  simp only [Bool.or_eq_false_iff, decide_eq_false_iff_not, UInt8.lt_iff_toNat_lt, hn]
  omega

theorem lead?_one {n : Nat} (h : n < 0x80) :
    lead? n.toUInt8 = some ⟨0, 0x80, 0xBF, n⟩ := by
  have hn : n.toUInt8.toNat = n := toNat_toUInt8 (by omega)
  simp only [lead?, hn, if_pos h]

theorem lead?_two {n : Nat} (hlow : 2 ≤ n) (hhigh : n < 32) :
    lead? (0xC0 + n).toUInt8 = some ⟨1, 0x80, 0xBF, n⟩ := by
  have hn : (0xC0 + n).toUInt8.toNat = 0xC0 + n := toNat_toUInt8 (by omega)
  simp only [lead?, hn]
  rw [if_neg (by omega), if_neg (by omega), if_pos (by omega), Nat.add_sub_cancel_left]

theorem lead?_three {n : Nat} (h : n < 16) :
    lead? (0xE0 + n).toUInt8 =
      some ⟨2, if n = 0 then 0xA0 else 0x80, if n = 13 then 0x9F else 0xBF, n⟩ := by
  have hn : (0xE0 + n).toUInt8.toNat = 0xE0 + n := toNat_toUInt8 (by omega)
  have h0 : 0xE0 + n = 0xE0 ↔ n = 0 := by omega
  have hD : 0xE0 + n = 0xED ↔ n = 13 := by omega
  simp only [lead?, hn, h0, hD]
  rw [if_neg (by omega), if_neg (by omega), if_neg (by omega), if_pos (by omega),
    Nat.add_sub_cancel_left]

theorem lead?_four {n : Nat} (h : n < 5) :
    lead? (0xF0 + n).toUInt8 =
      some ⟨3, if n = 0 then 0x90 else 0x80, if n = 4 then 0x8F else 0xBF, n⟩ := by
  have hn : (0xF0 + n).toUInt8.toNat = 0xF0 + n := toNat_toUInt8 (by omega)
  have h0 : 0xF0 + n = 0xF0 ↔ n = 0 := by omega
  have h4 : 0xF0 + n = 0xF4 ↔ n = 4 := by omega
  simp only [lead?, hn, h0, h4]
  rw [if_neg (by omega), if_neg (by omega), if_neg (by omega), if_neg (by omega),
    if_pos (by omega), Nat.add_sub_cancel_left]

section Widths

variable {b b₁ b₂ b₃ : UInt8} {l : Lead} {index : Nat} {rest : Bytes}

theorem decodeFrom_one (hl : lead? b = some l) (hf : l.following = 0) :
    decodeFrom index (b :: rest) =
      (decodeFrom (index + 1) rest).map (Char.ofNat l.bits :: ·) := by
  rw [decodeFrom, hl]
  simp [hf]

theorem decodeFrom_two (hl : lead? b = some l) (hf : l.following = 1)
    (h₁ : (b₁ < l.low || l.high < b₁) = false) :
    decodeFrom index (b :: b₁ :: rest) =
      (decodeFrom (index + 2) rest).map (Char.ofNat (Lead.extend l.bits b₁) :: ·) := by
  rw [decodeFrom, hl]
  simp [hf, h₁]

theorem decodeFrom_three (hl : lead? b = some l) (hf : l.following = 2)
    (h₁ : (b₁ < l.low || l.high < b₁) = false) (h₂ : isContinuation b₂ = true) :
    decodeFrom index (b :: b₁ :: b₂ :: rest) =
      (decodeFrom (index + 3) rest).map
        (Char.ofNat (Lead.extend (Lead.extend l.bits b₁) b₂) :: ·) := by
  rw [decodeFrom, hl]
  simp [hf, h₁, h₂]

theorem decodeFrom_four (hl : lead? b = some l) (hf : l.following = 3)
    (h₁ : (b₁ < l.low || l.high < b₁) = false) (h₂ : isContinuation b₂ = true)
    (h₃ : isContinuation b₃ = true) :
    decodeFrom index (b :: b₁ :: b₂ :: b₃ :: rest) =
      (decodeFrom (index + 4) rest).map
        (Char.ofNat (Lead.extend (Lead.extend (Lead.extend l.bits b₁) b₂) b₃) :: ·) := by
  rw [decodeFrom, hl]
  simp [hf, h₁, h₂, h₃]

end Widths

-- In each of the four widths the first byte announces how many follow, and the range of the second
-- one lets it through because a shorter form would not hold the number.
theorem decodeFrom_encodeChar (index : Nat) (c : Char) (rest : Bytes) :
    decodeFrom index (encodeChar c ++ rest) =
      (decodeFrom (index + (encodeChar c).length) rest).map (c :: ·) := by
  have hc := toNat_bounds c
  unfold encodeChar
  by_cases h1 : c.toNat < 0x80
  · simp only [if_pos h1, List.cons_append, List.nil_append, List.length_cons, List.length_nil]
    rw [decodeFrom_one (lead?_one h1) rfl, Char.ofNat_toNat]
  by_cases h2 : c.toNat < 0x800
  · simp only [if_neg h1, if_pos h2, List.cons_append, List.nil_append, List.length_cons,
      List.length_nil]
    have hrange := second_in_range 0x80 0xBF c.toNat
      (by show 128 ≤ _; omega) (by show _ ≤ 191; omega)
    have hbits : c.toNat / 64 * 64 + c.toNat % 64 = c.toNat := by omega
    rw [decodeFrom_two (lead?_two (by omega) (by omega)) rfl hrange, extend_toUInt8, hbits,
      Char.ofNat_toNat]
  by_cases h3 : c.toNat < 0x10000
  · simp only [if_neg h1, if_neg h2, if_pos h3, List.cons_append, List.nil_append,
      List.length_cons, List.length_nil]
    have hrange := second_in_range (if c.toNat / 4096 = 0 then 0xA0 else 0x80)
      (if c.toNat / 4096 = 13 then 0x9F else 0xBF) (c.toNat / 64)
      (by split
          · show 160 ≤ _; omega
          · show 128 ≤ _; omega)
      (by split
          · show _ ≤ 159; omega
          · show _ ≤ 191; omega)
    have hbits : (c.toNat / 4096 * 64 + c.toNat / 64 % 64) * 64 + c.toNat % 64 = c.toNat := by
      omega
    rw [decodeFrom_three (lead?_three (by omega)) rfl hrange (isContinuation_toUInt8 _),
      extend_toUInt8, extend_toUInt8, hbits, Char.ofNat_toNat]
  · simp only [if_neg h1, if_neg h2, if_neg h3, List.cons_append, List.nil_append,
      List.length_cons, List.length_nil]
    have hrange := second_in_range (if c.toNat / 262144 = 0 then 0x90 else 0x80)
      (if c.toNat / 262144 = 4 then 0x8F else 0xBF) (c.toNat / 4096)
      (by split
          · show 144 ≤ _; omega
          · show 128 ≤ _; omega)
      (by split
          · show _ ≤ 143; omega
          · show _ ≤ 191; omega)
    have hbits : ((c.toNat / 262144 * 64 + c.toNat / 4096 % 64) * 64 + c.toNat / 64 % 64) * 64 +
        c.toNat % 64 = c.toNat := by
      omega
    rw [decodeFrom_four (lead?_four (by omega)) rfl hrange (isContinuation_toUInt8 _)
      (isContinuation_toUInt8 _), extend_toUInt8, extend_toUInt8, extend_toUInt8, hbits,
      Char.ofNat_toNat]

theorem decodeFrom_encode (index : Nat) (text : List Char) :
    decodeFrom index (encode text) = .ok text := by
  induction text generalizing index with
  | nil => rfl
  | cons c text ih =>
      rw [encode_cons, decodeFrom_encodeChar, ih]
      rfl

theorem toString?_ofString (s : String) : toString? (ofString s) = .ok s := by
  unfold toString? ofString decode
  rw [decodeFrom_encode]
  simp [Except.map]

theorem toNat_ofNat {n : Nat} (h : n < 0xD800 ∨ 0xDFFF < n ∧ n < 0x110000) :
    (Char.ofNat n).toNat = n := by
  have hv : n.isValidChar := h
  unfold Char.ofNat
  rw [dif_pos hv]
  rfl

theorem toUInt8_eq {b : UInt8} {n : Nat} (h : n = b.toNat) : n.toUInt8 = b := by
  subst h
  exact UInt8.ofNat_toNat

theorem isContinuation_iff {b : UInt8} :
    isContinuation b = true ↔ 0x80 ≤ b.toNat ∧ b.toNat ≤ 0xBF := by
  simp only [isContinuation, Bool.and_eq_true, decide_eq_true_eq, UInt8.le_iff_toNat_le]
  exact Iff.rfl

-- What a leading byte announces, for each of the four widths.
inductive Announces (b : UInt8) : Lead → Prop where
  | one (high : b.toNat < 0x80) : Announces b ⟨0, 0x80, 0xBF, b.toNat⟩
  | two (low : 0xC2 ≤ b.toNat) (high : b.toNat < 0xE0) :
      Announces b ⟨1, 0x80, 0xBF, b.toNat - 0xC0⟩
  | three (low : 0xE0 ≤ b.toNat) (high : b.toNat < 0xF0) :
      Announces b ⟨2, if b.toNat = 0xE0 then 0xA0 else 0x80, if b.toNat = 0xED then 0x9F else 0xBF,
        b.toNat - 0xE0⟩
  | four (low : 0xF0 ≤ b.toNat) (high : b.toNat < 0xF5) :
      Announces b ⟨3, if b.toNat = 0xF0 then 0x90 else 0x80, if b.toNat = 0xF4 then 0x8F else 0xBF,
        b.toNat - 0xF0⟩

theorem announces_of_lead? {b : UInt8} {l : Lead} (h : lead? b = some l) : Announces b l := by
  unfold lead? at h
  dsimp only at h
  split at h
  · obtain rfl := Option.some.inj h
    exact .one ‹_›
  split at h
  · cases h
  split at h
  · obtain rfl := Option.some.inj h
    exact .two (by omega) (by omega)
  split at h
  · obtain rfl := Option.some.inj h
    exact .three (by omega) (by omega)
  split at h
  · obtain rfl := Option.some.inj h
    exact .four (by omega) (by omega)
  · cases h

theorem following_le_three {b : UInt8} {l : Lead} (h : lead? b = some l) : l.following ≤ 3 := by
  cases announces_of_lead? h <;> simp

-- Where the second byte lies, as a bound on numbers.
theorem second_bounds {low high b : UInt8} (h : (b < low || high < b) = false) :
    low.toNat ≤ b.toNat ∧ b.toNat ≤ high.toNat := by
  simpa only [Bool.or_eq_false_iff, decide_eq_false_iff_not, UInt8.lt_iff_toNat_lt,
    Nat.not_lt] using h

-- The same for a range that is narrowed after some leading bytes.
theorem narrowed_bounds {p q : Prop} [Decidable p] [Decidable q] {low low' high high' b : UInt8}
    (h : (b < (if p then low else low') || (if q then high else high') < b) = false) :
    (p → low.toNat ≤ b.toNat) ∧ (¬p → low'.toNat ≤ b.toNat) ∧
      (q → b.toNat ≤ high.toNat) ∧ (¬q → b.toNat ≤ high'.toNat) := by
  obtain ⟨hlow, hhigh⟩ := second_bounds h
  refine ⟨?_, ?_, ?_, ?_⟩ <;> intro hc
  · simpa only [if_pos hc] using hlow
  · simpa only [if_neg hc] using hlow
  · simpa only [if_pos hc] using hhigh
  · simpa only [if_neg hc] using hhigh

section Widths

variable {b b₁ b₂ b₃ : UInt8} {l : Lead}

theorem encodeChar_one (hl : lead? b = some l) (hf : l.following = 0) :
    encodeChar (Char.ofNat l.bits) = [b] := by
  cases announces_of_lead? hl with
  | one high =>
      dsimp only
      unfold encodeChar
      rw [toNat_ofNat (by omega), if_pos high, toUInt8_eq rfl]
  | two | three | four => cases hf

theorem encodeChar_two (hl : lead? b = some l) (hf : l.following = 1)
    (h₁ : (b₁ < l.low || l.high < b₁) = false) :
    encodeChar (Char.ofNat (Lead.extend l.bits b₁)) = [b, b₁] := by
  cases announces_of_lead? hl with
  | two low high =>
      have hr := second_bounds h₁
      simp only [UInt8.reduceToNat] at hr
      unfold encodeChar Lead.extend
      dsimp only
      rw [toNat_ofNat (by omega), if_neg (by omega), if_pos (by omega),
        toUInt8_eq (b := b) (by omega), toUInt8_eq (b := b₁) (by omega)]
  | one | three | four => cases hf

theorem encodeChar_three (hl : lead? b = some l) (hf : l.following = 2)
    (h₁ : (b₁ < l.low || l.high < b₁) = false) (h₂ : isContinuation b₂ = true) :
    encodeChar (Char.ofNat (Lead.extend (Lead.extend l.bits b₁) b₂)) = [b, b₁, b₂] := by
  have h₂ := isContinuation_iff.mp h₂
  cases announces_of_lead? hl with
  | three low high =>
      have hr := narrowed_bounds h₁
      simp only [UInt8.reduceToNat] at hr
      unfold encodeChar Lead.extend
      dsimp only
      rw [toNat_ofNat (by omega), if_neg (by omega), if_neg (by omega), if_pos (by omega),
        toUInt8_eq (b := b) (by omega), toUInt8_eq (b := b₁) (by omega),
        toUInt8_eq (b := b₂) (by omega)]
  | one | two | four => cases hf

theorem encodeChar_four (hl : lead? b = some l) (hf : l.following = 3)
    (h₁ : (b₁ < l.low || l.high < b₁) = false) (h₂ : isContinuation b₂ = true)
    (h₃ : isContinuation b₃ = true) :
    encodeChar (Char.ofNat (Lead.extend (Lead.extend (Lead.extend l.bits b₁) b₂) b₃)) =
      [b, b₁, b₂, b₃] := by
  have h₂ := isContinuation_iff.mp h₂
  have h₃ := isContinuation_iff.mp h₃
  cases announces_of_lead? hl with
  | four low high =>
      have hr := narrowed_bounds h₁
      simp only [UInt8.reduceToNat] at hr
      unfold encodeChar Lead.extend
      dsimp only
      rw [toNat_ofNat (by omega), if_neg (by omega), if_neg (by omega), if_neg (by omega),
        toUInt8_eq (b := b) (by omega), toUInt8_eq (b := b₁) (by omega),
        toUInt8_eq (b := b₂) (by omega), toUInt8_eq (b := b₃) (by omega)]
  | one | two | three => cases hf
end Widths

theorem encode_of_map {rest : Bytes} {found : Except Fault (List Char)} {c : Char}
    {text : List Char}
    (ih : ∀ {text}, found = .ok text → encode text = rest)
    (h : found.map (c :: ·) = .ok text) : encode text = encodeChar c ++ rest := by
  cases found with
  | error fault => cases h
  | ok chars =>
      obtain rfl := Except.ok.inj h
      rw [← ih rfl, encode_cons]

-- What can be read is what would be written: each text has one form.
theorem encode_of_decodeFrom {index : Nat} {bytes : Bytes} {text : List Char}
    (h : decodeFrom index bytes = .ok text) : encode text = bytes := by
  fun_induction decodeFrom index bytes generalizing text with
  | case1 =>
      obtain rfl := Except.ok.inj h
      rfl
  | case3 index b rest l hl hf ih =>
      rw [encode_of_map ih h, encodeChar_one hl hf]
      rfl
  | case6 index b l hl _ b₁ rest h₁ hf ih =>
      rw [encode_of_map ih h, encodeChar_two hl hf (Bool.eq_false_iff.mpr h₁)]
      rfl
  | case9 index b l hl _ b₁ h₁ _ b₂ rest h₂ hf ih =>
      rw [encode_of_map ih h, encodeChar_three hl hf (Bool.eq_false_iff.mpr h₁) (by simpa using h₂)]
      rfl
  | case12 index b l hl h0 b₁ h₁ h1 b₂ h₂ h2 b₃ rest h₃ ih =>
      have hle := following_le_three hl
      rw [encode_of_map ih h, encodeChar_four hl (by omega) (Bool.eq_false_iff.mpr h₁)
        (by simpa using h₂) (by simpa using h₃)]
      rfl
  | _ => cases h

theorem ofString_of_toString? {bytes : Bytes} {s : String} (h : toString? bytes = .ok s) :
    ofString s = bytes := by
  unfold toString? decode at h
  cases hd : decodeFrom 0 bytes with
  | error fault => simp [hd, Except.map] at h
  | ok text =>
      obtain rfl : String.ofList text = s := by simpa [hd, Except.map] using h
      rw [ofString, String.toList_ofList]
      exact encode_of_decodeFrom hd

section Cuts

-- Bytes that are the text of some characters.
def IsText (bytes : Bytes) : Prop := ∃ chars, bytes = encode chars

-- A byte below 0x80 is a character of its own and stands in no other.
theorem encodeChar_of_low {c : Char} {b : UInt8} (hb : b.toNat < 0x80) (hm : b ∈ encodeChar c) :
    encodeChar c = [b] := by
  have hc := toNat_bounds c
  have hne {n : Nat} (hlow : 0x80 ≤ n) (hhigh : n < 0x100) : b ≠ n.toUInt8 := by
    rintro rfl
    rw [toNat_toUInt8 hhigh] at hb
    omega
  unfold encodeChar at hm ⊢
  dsimp only at hm ⊢
  split at hm
  · rw [if_pos ‹_›, List.mem_singleton.mp hm]
  split at hm
  · simp only [List.mem_cons, List.not_mem_nil, or_false] at hm
    rcases hm with hm | hm
    · exact absurd hm (hne (by omega) (by omega))
    · exact absurd hm (hne (by omega) (by omega))
  split at hm
  · simp only [List.mem_cons, List.not_mem_nil, or_false] at hm
    rcases hm with hm | hm | hm
    · exact absurd hm (hne (by omega) (by omega))
    · exact absurd hm (hne (by omega) (by omega))
    · exact absurd hm (hne (by omega) (by omega))
  · simp only [List.mem_cons, List.not_mem_nil, or_false] at hm
    rcases hm with hm | hm | hm | hm
    · exact absurd hm (hne (by omega) (by omega))
    · exact absurd hm (hne (by omega) (by omega))
    · exact absurd hm (hne (by omega) (by omega))
    · exact absurd hm (hne (by omega) (by omega))

-- So text may be cut at such a byte.
theorem IsText.cut {before after : Bytes} {b : UInt8} (hb : b.toNat < 0x80)
    (h : IsText (before ++ b :: after)) : IsText before ∧ IsText after := by
  obtain ⟨chars, heq⟩ := h
  induction chars generalizing before with
  | nil => exact absurd heq (by simp [encode])
  | cons c chars ih =>
      rw [encode_cons] at heq
      rcases List.append_eq_append_iff.mp heq with ⟨more, hc, hafter⟩ | ⟨more, hbefore, hchars⟩
      · cases more with
        | nil =>
            rw [List.append_nil] at hc
            obtain ⟨-, hrest⟩ : IsText [] ∧ IsText after := ih hafter
            exact ⟨⟨[c], by rw [← hc, encode_cons]; exact (List.append_nil _).symm⟩, hrest⟩
        | cons d more =>
            obtain ⟨rfl, rfl⟩ := List.cons.inj hafter
            have hone : encodeChar c = [b] := encodeChar_of_low hb (by rw [hc]; simp)
            rw [hone] at hc
            obtain ⟨rfl, rfl⟩ : before = [] ∧ more = [] := by
              simpa [List.singleton_eq_append_iff] using hc
            exact ⟨⟨[], rfl⟩, chars, rfl⟩
      · obtain ⟨⟨chars', rfl⟩, hafter⟩ := ih hchars.symm
        exact ⟨⟨c :: chars', by rw [hbefore, encode_cons]⟩, hafter⟩

theorem IsText.tail {after : Bytes} {b : UInt8} (hb : b.toNat < 0x80) (h : IsText (b :: after)) :
    IsText after := by
  obtain ⟨-, hafter⟩ : IsText [] ∧ IsText after := IsText.cut hb h
  exact hafter

end Cuts

end PolyCache.Utf8
