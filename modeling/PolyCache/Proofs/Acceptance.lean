import PolyCache.Proofs.Json.Strict
import PolyCache.Proofs.Readable

-- Readers of JSON and the check before a JSON text is stored read the same bytes in ways of their
-- own. The check refuses nothing that can be read as a value.
namespace PolyCache

open Json (HasStrictForm)

theorem JsonKind.hasStrictForm (kind : JsonKind) : HasStrictForm kind.Carrier := by
  cases kind with
  | boolean => exact fun _ => Json.isStrict_bool
  | integer => exact fun _ => Json.isStrict_int64
  | byte => exact Json.hasStrictForm_byte
  | real => exact fun _ => Json.isStrict_real
  | text => exact fun _ => Json.isStrict_string _
  | list => exact Json.hasStrictForm_list fun _ => Json.isStrict_int64
  | optional => exact Json.hasStrictForm_option fun _ => Json.isStrict_int64
  | sample => exact Json.hasStrictForm_sample
  | table => exact Json.hasStrictForm_table fun _ => Json.isStrict_int64
  | pairs => exact Json.hasStrictForm_pairs fun _ => Json.isStrict_int64
  | tree => exact Json.isStrict_tree

namespace Storable

theorem text_of_ofValue {α : Type} [Json.JsonForm α] (hform : HasStrictForm α) {bytes : Bytes}
    {x : AsJson α} (h : ofValue (.object bytes) = .ok x) : Json.Grammar.Text bytes := by
  simp only [ofValue] at h
  split at h
  · rename_i hparse
    exact (hform Json.maxDepth).text hparse
  · cases h

-- An object that can be read as a value of some type is stored as it is, and found again.
theorem read_objects_can_be_stored (kind : JsonKind) (bytes : Bytes) (x : AsJson kind.Carrier)
    (h : ofValue (.object bytes) = .ok x) :
    ValueType.object.encode (.object bytes) = .ok bytes ∧
      ValueType.object.decode bytes = .ok (.object bytes) := by
  have hencode := ValueType.encode_object_eq_ok_iff.mpr (text_of_ofValue kind.hasStrictForm h)
  exact ⟨hencode, ValueType.decode_of_encode hencode⟩

theorem ofValue_eq_ok {α : Type} [Json.JsonForm α] {bytes : Bytes} {a : α}
    (h : Json.parse bytes = .ok a) : ofValue (.object bytes) = .ok (AsJson.mk a) := by
  simp only [ofValue, h]

-- A table with a number for a name, and a record with half of a surrogate pair in a field it does
-- not have.
def quotedNumber : Bytes := Utf8.ofString " \x7b \"-3\" :4\x7d"

def passedOver : Bytes :=
  Utf8.ofString "\x7b\"c\":[\"\\ud800\"],\"b\":\"\\u0041\",\"a\":1\x7d"

theorem unusual_objects_can_be_stored :
    ValueType.object.encode (.object quotedNumber) = .ok quotedNumber ∧
      ValueType.object.encode (.object passedOver) = .ok passedOver := by
  have htable : Json.parse quotedNumber = .ok (⟨[(-3, 4)]⟩ : OrderedMap Int64 Int64) := by
    decide +kernel
  have hsample : Json.parse passedOver = .ok (⟨1, "A"⟩ : Sample) := by decide +kernel
  exact ⟨(read_objects_can_be_stored .table _ _ (ofValue_eq_ok htable)).1,
    (read_objects_can_be_stored .sample _ _ (ofValue_eq_ok hsample)).1⟩

end Storable

end PolyCache
