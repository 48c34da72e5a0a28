import PolyCache.Proofs.Codec
import PolyCache.Proofs.Json.Form
import PolyCache.Storable

-- A value that is kept as JSON comes back from its bytes as it was.
namespace PolyCache.Storable

open Json (JsonForm HasForm Spells Tree)

-- The value becomes an object, the object keeps its bytes, and the value is found in it again.
def Kept {α : Type} [JsonForm α] (x : α) : Prop :=
  ∃ value bytes, toValue (AsJson.mk x) = .ok value ∧
    ValueType.object.encode value = .ok bytes ∧
    ValueType.object.decode bytes = .ok value ∧
    ofValue value = .ok (AsJson.mk x)

theorem parse_eq_ok {α : Type} [JsonForm α] {text : Bytes} {x : α}
    (h : Spells (JsonForm.read Json.maxDepth) text x) : Json.parse text = .ok x := by
  have hend : Json.Skip.EndsNumber [] := by simp [Json.Skip.EndsNumber]
  have hread := h.reads [] hend
  rw [List.append_nil] at hread
  rw [Json.parse, Json.readWhole, hread]
  rfl

theorem kept_of_hasForm {α : Type} [JsonForm α] {x : α} (h : HasForm Json.maxDepth x) :
    Kept x := by
  obtain ⟨text, hprint, hspells⟩ := h
  have hencode : ValueType.object.encode (.object text) = .ok text :=
    ValueType.encode_object_eq_ok_iff.mpr hspells.value.element
  refine ⟨.object text, text, ?_, hencode, ValueType.decode_of_encode hencode, ?_⟩
  · simp only [toValue, hprint]
  · simp only [ofValue, parse_eq_ok hspells]

-- Every value of these types is kept as it is. A map has its keys in ascending order, and a
-- tree is kept if its numbers are integers of 64 bits and no more than 127 lists and objects
-- stand inside one another.
theorem json_is_kept :
    (∀ b : Bool, Kept b) ∧ (∀ n : Int64, Kept n) ∧ (∀ n : UInt8, Kept n) ∧
    (∀ s : String, Kept s) ∧ (∀ ns : List Int64, Kept ns) ∧ (∀ n : Option Int64, Kept n) ∧
    (∀ s : Sample, Kept s) ∧
    (∀ m : OrderedMap Int64 Int64, Entries.Sorted Json.int64Less m.entries → Kept m) ∧
    ∀ t : Tree, t.Fits 127 → Kept t := by
  refine ⟨?_, ?_, ?_, ?_, ?_, ?_, ?_, ?_, ?_⟩
  · exact fun b => kept_of_hasForm (Json.hasForm_bool _ b)
  · exact fun n => kept_of_hasForm (Json.hasForm_int64 _ n)
  · exact fun n => kept_of_hasForm (Json.hasForm_uint8 _ n)
  · exact fun s => kept_of_hasForm (Json.hasForm_string _ s)
  · exact fun ns => kept_of_hasForm (Json.hasForm_list fun n _ => Json.hasForm_int64 _ n)
  · exact fun n => kept_of_hasForm (Json.hasForm_option_int64 n)
  · exact fun s => kept_of_hasForm (Json.hasForm_sample s)
  · exact fun m hm =>
      kept_of_hasForm (Json.hasForm_map hm fun entry _ => Json.hasForm_int64 _ entry.2)
  · exact fun t ht => kept_of_hasForm (Json.hasForm_tree ht)

-- The least and the greatest integers, and a name that has to be escaped.
theorem a_map_and_a_tree_are_kept :
    Kept (⟨[(-9223372036854775808, 1), (0, -2), (10, 3)]⟩ : OrderedMap Int64 Int64) ∧
    Kept (.object [("", .list [.null, .number (.integer 18446744073709551615)]),
      ("é\"", .number (.integer (-9223372036854775808)))] : Tree) := by
  obtain ⟨-, -, -, -, -, -, -, hmap, htree⟩ := json_is_kept
  refine ⟨hmap _ ?_, htree _ ?_⟩
  · unfold Entries.Sorted
    decide
  · refine .object ?_ ?_
    · unfold Entries.Sorted
      decide
    · simp only [List.forall_mem_cons, List.not_mem_nil, false_imp_iff, implies_true, and_true]
      refine ⟨.list ?_, .number (by decide)⟩
      simp only [List.forall_mem_cons, List.not_mem_nil, false_imp_iff, implies_true, and_true]
      exact ⟨.null, .number (by decide)⟩

end PolyCache.Storable
