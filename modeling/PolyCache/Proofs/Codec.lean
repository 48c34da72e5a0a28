import Mathlib.Algebra.Group.Nat.Defs
import PolyCache.Codec
import PolyCache.Proofs.Json.Skip
import PolyCache.Proofs.Text.Utf8

-- Values and the bytes they are stored as: decoding undoes encoding, and encoding undoes decoding.
namespace PolyCache.ValueType

private theorem foldr_digits (width n : Nat) :
    ((List.range width).map fun i => (n / 256 ^ i).toUInt8).foldr
      (fun (b : UInt8) m => b.toNat + 256 * m) 0 = n % 256 ^ width := by
  induction width generalizing n with
  | zero => simp [Nat.mod_one]
  | succ width ih =>
      have htail : (fun i => (n / 256 ^ (i + 1)).toUInt8) =
          fun i => (n / 256 / 256 ^ i).toUInt8 := by
        funext i
        rw [Nat.pow_succ', Nat.div_div_eq_div_mul]
      rw [List.range_succ_eq_map, List.map_cons, List.map_map, List.foldr_cons]
      simp only [Function.comp_def, htail, ih, Nat.pow_zero, Nat.div_one]
      have hbyte : n.toUInt8.toNat = n % 256 := by rw [Nat.toUInt8, UInt8.toNat_ofNat']
      rw [hbyte, Nat.pow_succ', Nat.mod_mul]

theorem ofLittleEndian_littleEndian (n : UInt64) : ofLittleEndian (littleEndian n) = n := by
  have hsmall : n.toNat % 256 ^ 8 = n.toNat := Nat.mod_eq_of_lt n.toNat_lt
  simp only [ofLittleEndian, littleEndian, Nat.pow_eq]
  rw [foldr_digits, hsmall, Nat.toUInt64, UInt64.ofNat_toNat]

@[simp] theorem length_littleEndian (n : UInt64) : (littleEndian n).length = 8 := by
  simp [littleEndian]

theorem fixedWidth_littleEndian (type : ValueType) (n : UInt64) :
    fixedWidth type (littleEndian n) = .ok n := by
  rw [fixedWidth, if_pos (length_littleEndian n), ofLittleEndian_littleEndian]

theorem decode_of_encode {type : ValueType} {value : Value} {bytes : Bytes}
    (h : type.encode value = .ok bytes) : type.decode bytes = .ok value := by
  cases type with
  | object =>
      cases value with
      | object json =>
          cases hc : checkJson json with
          | error e => simp [encode, hc] at h
          | ok checked =>
              have heq : json = bytes := by simpa [encode, hc] using h
              subst heq
              simp [decode, hc]
      | _ => simp [encode] at h
  | int64 =>
      cases value with
      | int64 n =>
          have heq : littleEndian n.toUInt64 = bytes := by simpa [encode] using h
          simp [decode, ← heq, fixedWidth_littleEndian]
      | _ => simp [encode] at h
  | real =>
      cases value with
      | real x =>
          have heq : littleEndian x.bits = bytes := by simpa [encode] using h
          simp [decode, ← heq, fixedWidth_littleEndian]
      | _ => simp [encode] at h
  | string =>
      cases value with
      | string s =>
          have heq : Utf8.ofString s = bytes := by simpa [encode] using h
          simp [decode, ← heq, Utf8.toString?_ofString]
      | _ => simp [encode] at h

private theorem digits_foldr (bytes : Bytes) :
    ((List.range bytes.length).map fun i =>
      (bytes.foldr (fun (b : UInt8) m => b.toNat + 256 * m) 0 / 256 ^ i).toUInt8) = bytes := by
  induction bytes with
  | nil => rfl
  | cons b bytes ih =>
      rw [List.length_cons, List.range_succ_eq_map, List.map_cons, List.map_map, List.foldr_cons]
      generalize hn : bytes.foldr (fun (b : UInt8) m => b.toNat + 256 * m) 0 = n at ih ⊢
      have hb := b.toNat_lt
      have htail : ((fun i => ((b.toNat + 256 * n) / 256 ^ i).toUInt8) ∘ Nat.succ) =
          fun i => (n / 256 ^ i).toUInt8 := by
        funext i
        have hn : (b.toNat + 256 * n) / 256 = n := by omega
        simp only [Function.comp_apply, Nat.succ_eq_add_one, Nat.pow_succ',
          ← Nat.div_div_eq_div_mul, hn]
      have hhead : (b.toNat + 256 * n).toUInt8 = b := by
        apply UInt8.toNat_inj.mp
        rw [Nat.toUInt8, UInt8.toNat_ofNat']
        omega
      rw [htail, ih, Nat.pow_zero, Nat.div_one, hhead]

private theorem foldr_lt (bytes : Bytes) :
    bytes.foldr (fun (b : UInt8) m => b.toNat + 256 * m) 0 < 256 ^ bytes.length := by
  induction bytes with
  | nil => decide
  | cons b bytes ih =>
      have hb := b.toNat_lt
      rw [List.foldr_cons, List.length_cons, Nat.pow_succ']
      omega

theorem littleEndian_ofLittleEndian {bytes : Bytes} (h : bytes.length = 8) :
    littleEndian (ofLittleEndian bytes) = bytes := by
  have hlt := foldr_lt bytes
  have hdigits := digits_foldr bytes
  rw [h] at hlt hdigits
  unfold littleEndian ofLittleEndian
  rw [Nat.toUInt64, UInt64.toNat_ofNat', Nat.mod_eq_of_lt (b := 2 ^ 64) hlt]
  exact hdigits

theorem littleEndian_of_fixedWidth {type : ValueType} {bytes : Bytes} {n : UInt64}
    (h : fixedWidth type bytes = .ok n) : littleEndian n = bytes := by
  unfold fixedWidth at h
  split at h
  · obtain rfl := Except.ok.inj h
    exact littleEndian_ofLittleEndian ‹_›
  · cases h

theorem type_of_encode {type : ValueType} {value : Value} {bytes : Bytes}
    (h : type.encode value = .ok bytes) : value.type = type := by
  unfold encode at h
  split at h
  · rfl
  · rfl
  · rfl
  · rfl
  · cases h

theorem encode_of_mistyped {type : ValueType} {value : Value} (hother : value.type ≠ type) :
    type.encode value = .error (.usage (.notStorable value.type type)) := by
  cases type <;> cases value <;> first | rfl | exact absurd rfl hother

theorem encode_of_decode {type : ValueType} {bytes : Bytes} {value : Value}
    (h : type.decode bytes = .ok value) : type.encode value = .ok bytes := by
  cases type with
  | object =>
      cases hc : checkJson bytes with
      | error e => simp [decode, hc] at h
      | ok checked =>
          obtain rfl : .object bytes = value := by simpa [decode, hc] using h
          simp [encode, hc]
  | int64 =>
      cases hn : fixedWidth .int64 bytes with
      | error e => simp [decode, hn] at h
      | ok n =>
          obtain rfl : .int64 n.toInt64 = value := by simpa [decode, hn] using h
          simp [encode, littleEndian_of_fixedWidth hn]
  | real =>
      cases hn : fixedWidth .real bytes with
      | error e => simp [decode, hn] at h
      | ok n =>
          obtain rfl : .real ⟨n⟩ = value := by simpa [decode, hn] using h
          simp [encode, littleEndian_of_fixedWidth hn]
  | string =>
      cases hs : Utf8.toString? bytes with
      | error fault => simp [decode, hs] at h
      | ok s =>
          obtain rfl : .string s = value := by simpa [decode, hs] using h
          simp [encode, Utf8.ofString_of_toString? hs]

-- Everything but an object has an encoding. An object has one if it is JSON.
theorem encode_of_type {value : Value} (h : value.type ≠ .object) :
    ∃ bytes, value.type.encode value = .ok bytes := by
  cases value with
  | object json => exact absurd rfl h
  | int64 n => exact ⟨_, rfl⟩
  | real x => exact ⟨_, rfl⟩
  | string s => exact ⟨_, rfl⟩

theorem checkJson_usage {json : Bytes} {e : Error} (h : checkJson json = .error e) :
    e.kind = .usage := by
  cases hc : Json.check json with
  | ok checked => simp [checkJson, hc] at h
  | error fault =>
      obtain rfl := Except.error.inj (by simpa only [checkJson, hc] using h)
      rfl

theorem fixedWidth_usage {type : ValueType} {bytes : Bytes} {e : Error}
    (h : fixedWidth type bytes = .error e) : e.kind = .usage := by
  unfold fixedWidth at h
  split at h
  · cases h
  · obtain rfl := Except.error.inj h
    rfl

theorem encode_usage {type : ValueType} {value : Value} {e : Error}
    (h : type.encode value = .error e) : e.kind = .usage := by
  unfold encode at h
  split at h
  · split at h
    · cases h
    · obtain rfl := Except.error.inj h
      exact checkJson_usage ‹_›
  · cases h
  · cases h
  · cases h
  · obtain rfl := Except.error.inj h
    rfl

theorem decode_usage {type : ValueType} {bytes : Bytes} {e : Error}
    (h : type.decode bytes = .error e) : e.kind = .usage := by
  unfold decode at h
  split at h <;> split at h <;> cases h
  · exact checkJson_usage ‹_›
  · exact fixedWidth_usage ‹_›
  · exact fixedWidth_usage ‹_›
  · rfl

-- What a type encodes is of that type and decodes to itself, what it decodes is of that type and
-- encodes to itself, and whatever it refuses is the caller's mistake. So the bytes that can be read
-- are those that can be written.
theorem encode_and_decode_inverse (type : ValueType) :
    (∀ value bytes, type.encode value = .ok bytes →
      value.type = type ∧ type.decode bytes = .ok value) ∧
    (∀ bytes value, type.decode bytes = .ok value →
      value.type = type ∧ type.encode value = .ok bytes) ∧
    (∀ value e, type.encode value = .error e → e.kind = .usage) ∧
    (∀ bytes e, type.decode bytes = .error e → e.kind = .usage) ∧
    (∀ bytes, (∃ value, type.decode bytes = .ok value) ↔ ∃ value, type.encode value = .ok bytes) ∧
    ∀ value, value.type = type → type ≠ .object → ∃ bytes, type.encode value = .ok bytes := by
  refine ⟨?_, ?_, fun _ _ => encode_usage, fun _ _ => decode_usage, ?_, ?_⟩
  · intro value bytes h
    exact ⟨type_of_encode h, decode_of_encode h⟩
  · intro bytes value h
    have he := encode_of_decode h
    exact ⟨type_of_encode he, he⟩
  · intro bytes
    constructor
    · rintro ⟨value, h⟩
      exact ⟨value, encode_of_decode h⟩
    · rintro ⟨value, h⟩
      exact ⟨value, decode_of_encode h⟩
  · rintro value rfl h
    exact encode_of_type h

-- A NaN keeps its payload, and minus zero its sign.
theorem reals_are_kept_bit_for_bit :
    (∃ bytes, real.encode (.real ⟨0xFFF8000000000001⟩) = .ok bytes ∧
      real.decode bytes = .ok (.real ⟨0xFFF8000000000001⟩)) ∧
    real.encode (.real ⟨0x8000000000000000⟩) = .ok [0, 0, 0, 0, 0, 0, 0, 0x80] ∧
    real.decode [0, 0, 0, 0, 0, 0, 0, 0x80] = .ok (.real ⟨0x8000000000000000⟩) := by
  obtain ⟨hencode, -, -, -, -, htotal⟩ := encode_and_decode_inverse .real
  have hzero : real.encode (.real ⟨0x8000000000000000⟩) = .ok [0, 0, 0, 0, 0, 0, 0, 0x80] := rfl
  obtain ⟨bytes, hnan⟩ := htotal (.real ⟨0xFFF8000000000001⟩) rfl (by decide)
  exact ⟨⟨bytes, hnan, (hencode _ _ hnan).2⟩, hzero, (hencode _ _ hzero).2⟩

theorem checkJson_eq_ok_iff {json : Bytes} : checkJson json = .ok () ↔ Json.Grammar.Text json := by
  rw [← Json.check_eq_ok_iff, checkJson]
  cases Json.check json <;> simp

theorem encode_object_eq_ok_iff {json : Bytes} :
    object.encode (.object json) = .ok json ↔ Json.Grammar.Text json := by
  rw [← checkJson_eq_ok_iff]
  cases hc : checkJson json <;> simp [encode, hc]

-- An object is kept byte for byte if it is one JSON text, with space around it or not. Any other
-- bytes are refused as the caller's mistake, by both sides for the same reason.
theorem object_accepts_json_text (bytes : Bytes) :
    (object.encode (.object bytes) = .ok bytes ↔ Json.Grammar.Text bytes) ∧
    (object.decode bytes = .ok (.object bytes) ↔ Json.Grammar.Text bytes) ∧
    (Json.Grammar.Text bytes ∨ ∃ e, e.kind = .usage ∧
      object.encode (.object bytes) = .error e ∧ object.decode bytes = .error e) := by
  refine ⟨encode_object_eq_ok_iff, ?_, ?_⟩
  · rw [← encode_object_eq_ok_iff]
    exact ⟨encode_of_decode, decode_of_encode⟩
  · cases hc : checkJson bytes with
    | ok checked => exact Or.inl (checkJson_eq_ok_iff.mp hc)
    | error e =>
        exact Or.inr ⟨e, checkJson_usage hc, by simp only [encode, hc], by simp only [decode, hc]⟩

end PolyCache.ValueType
