import PolyCache.Proofs.Json.Legible
import PolyCache.Proofs.Storable

-- Which values can be read from their own stored form. What is read need not be the same value: a
-- double in JSON may come back as a neighbour, and a number that is not finite does not come back.
namespace PolyCache.Storable

open Json (JsonForm HasForm Reads Refuses)

def Readable {α : Type} (answer : Except Error α) : Prop := ∃ a, answer = .ok a

def Misused {α : Type} (answer : Except Error α) : Prop := ∃ e, answer = .error e ∧ e.kind = .usage

-- What the stored form of a value, if it has one, is converted to.
def Yields {α : Type} [Storable α] (x : α) (outcome : Except Error α → Prop) : Prop :=
  ∀ value, toValue x = .ok value → outcome (ofValue value)

theorem readable_int64 (n : Int64) : Yields n Readable := by
  rintro value ⟨⟩
  exact ⟨n, rfl⟩

theorem readable_real (x : Binary64) : Yields x Readable := by
  rintro value ⟨⟩
  exact ⟨x, rfl⟩

theorem readable_string (s : String) : Yields s Readable := by
  rintro value ⟨⟩
  exact ⟨s, rfl⟩

section Forms

variable {α : Type} [JsonForm α] {a : α} {text : Bytes}

theorem toValue_json {value : Value} (h : toValue (AsJson.mk a) = .ok value) :
    ∃ text, JsonForm.print a = .ok text ∧ value = .object text := by
  simp only [toValue] at h
  split at h
  · rename_i text hprint
    cases h
    exact ⟨text, hprint, rfl⟩
  · cases h

theorem readable_json (h : ∀ text, JsonForm.print a = .ok text →
    Reads (JsonForm.read Json.maxDepth : Json.Reader α) text) : Yields (AsJson.mk a) Readable := by
  intro value hvalue
  obtain ⟨text, hprint, rfl⟩ := toValue_json hvalue
  obtain ⟨b, hb⟩ := h text hprint
  exact ⟨⟨b⟩, by simp only [ofValue, parse_eq_ok hb]⟩

theorem misused_json (h : ∀ text, JsonForm.print a = .ok text →
    Refuses (JsonForm.read Json.maxDepth : Json.Reader α) text) : Yields (AsJson.mk a) Misused := by
  intro value hvalue
  obtain ⟨text, hprint, rfl⟩ := toValue_json hvalue
  obtain ⟨fault, hfails⟩ := (h text hprint).fails []
  rw [List.append_nil] at hfails
  have hparse : (Json.parse text : Except Json.Fault α) = .error fault := by
    rw [Json.parse, Json.readWhole, hfails]
  refine ⟨.usage (.notJson text fault), ?_, rfl⟩
  simp only [ofValue, hparse]

theorem readable_of_hasForm (h : HasForm Json.maxDepth a) : Yields (AsJson.mk a) Readable := by
  obtain ⟨text, hprint, hspells⟩ := h
  refine readable_json fun text' hprint' => ?_
  rw [hprint] at hprint'
  exact ⟨a, Except.ok.inj hprint' ▸ hspells⟩

end Forms

theorem readable_map (m : OrderedMap Int64 Int64) : Yields (AsJson.mk m) Readable := by
  refine readable_json fun text hprint => Json.reads_map (fun entry _ text hvalue => ?_) hprint
  cases hvalue
  exact ⟨entry.2, Json.spells_int64 entry.2⟩

theorem readable_pairs (m : OrderedMap (Int64 × Int64) Int64) : Yields (AsJson.mk m) Readable :=
  readable_json fun _ hprint => Json.reads_pairMap hprint

theorem readable_finite {x : Binary64} (h : x.IsFinite) : Yields (AsJson.mk x) Readable := by
  refine readable_json fun text hprint => ?_
  cases hprint
  exact Json.reads_real h

theorem misused_not_finite {x : Binary64} (h : ¬x.IsFinite) : Yields (AsJson.mk x) Misused := by
  refine misused_json fun text hprint => ?_
  cases hprint
  exact Json.refuses_real h

theorem readable_tree {t : Json.Tree} (h : t.IsProper) (hdepth : t.depth ≤ 127) :
    Yields (AsJson.mk t) Readable := by
  refine readable_json fun text hprint => ?_
  cases hprint
  exact (h.settled Json.maxDepth).reads hdepth

theorem misused_tree {t : Json.Tree} (h : t.IsProper) (hdepth : 127 < t.depth) :
    Yields (AsJson.mk t) Misused := by
  refine misused_json fun text hprint => ?_
  cases hprint
  exact (h.settled Json.maxDepth).refuses (Nat.not_le.mpr hdepth)

end PolyCache.Storable

namespace PolyCache

open Storable

-- The types of the values that are kept as JSON.
inductive JsonKind where
  | boolean | integer | byte | real | text | list | optional | sample | table | pairs | tree

namespace JsonKind

def Carrier : JsonKind → Type
  | .boolean => Bool
  | .integer => Int64
  | .byte => UInt8
  | .real => Binary64
  | .text => String
  | .list => List Int64
  | .optional => Option Int64
  | .sample => Sample
  | .table => OrderedMap Int64 Int64
  | .pairs => OrderedMap (Int64 × Int64) Int64
  | .tree => Json.Tree

instance (kind : JsonKind) : Json.JsonForm kind.Carrier :=
  match kind with
  | .boolean => inferInstanceAs (Json.JsonForm Bool)
  | .integer => inferInstanceAs (Json.JsonForm Int64)
  | .byte => inferInstanceAs (Json.JsonForm UInt8)
  | .real => inferInstanceAs (Json.JsonForm Binary64)
  | .text => inferInstanceAs (Json.JsonForm String)
  | .list => inferInstanceAs (Json.JsonForm (List Int64))
  | .optional => inferInstanceAs (Json.JsonForm (Option Int64))
  | .sample => inferInstanceAs (Json.JsonForm Sample)
  | .table => inferInstanceAs (Json.JsonForm (OrderedMap Int64 Int64))
  | .pairs => inferInstanceAs (Json.JsonForm (OrderedMap (Int64 × Int64) Int64))
  | .tree => inferInstanceAs (Json.JsonForm Json.Tree)

-- Every value of these types, and every tree that a program can build.
def IsProper : (kind : JsonKind) → kind.Carrier → Prop
  | .tree, t => Json.Tree.IsProper t
  | _, _ => True

-- What is printed so that it can be read.
def IsLegible : (kind : JsonKind) → kind.Carrier → Prop
  | .real, x => Binary64.IsFinite x
  | .tree, t => Json.Tree.depth t ≤ 127
  | _, _ => True

end JsonKind

-- The types of the values that are kept in caches.
inductive Kind where
  | integer | real | text
  | json (kind : JsonKind)

namespace Kind

def Carrier : Kind → Type
  | .integer => Int64
  | .real => Binary64
  | .text => String
  | .json kind => AsJson kind.Carrier

instance (kind : Kind) : Storable kind.Carrier :=
  match kind with
  | .integer => inferInstanceAs (Storable Int64)
  | .real => inferInstanceAs (Storable Binary64)
  | .text => inferInstanceAs (Storable String)
  | .json kind => inferInstanceAs (Storable (AsJson kind.Carrier))

def IsProper : (kind : Kind) → kind.Carrier → Prop
  | .json kind, x => kind.IsProper x.value
  | _, _ => True

def IsLegible : (kind : Kind) → kind.Carrier → Prop
  | .json kind, x => kind.IsLegible x.value
  | _, _ => True

end Kind

-- A value is read if it is legible, and otherwise its stored form is a mistake of whoever reads it.
structure Judged {α : Type} [Storable α] (x : α) (legible : Prop) : Prop where
  readable : legible → Yields x Readable
  misused : ¬legible → Yields x Misused

theorem Judged.of_readable {α : Type} [Storable α] {x : α} (h : Yields x Readable) :
    Judged x True :=
  ⟨fun _ => h, fun hnot => absurd trivial hnot⟩

theorem JsonKind.judged (kind : JsonKind) (x : kind.Carrier) (h : kind.IsProper x) :
    Judged (AsJson.mk x) (kind.IsLegible x) := by
  cases kind with
  | boolean => exact .of_readable (readable_of_hasForm (Json.hasForm_bool _ x))
  | integer => exact .of_readable (readable_of_hasForm (Json.hasForm_int64 _ x))
  | byte => exact .of_readable (readable_of_hasForm (Json.hasForm_uint8 _ x))
  | real => exact ⟨readable_finite, misused_not_finite⟩
  | text => exact .of_readable (readable_of_hasForm (Json.hasForm_string _ x))
  | list =>
      exact .of_readable (readable_of_hasForm
        (Json.hasForm_list fun n _ => Json.hasForm_int64 _ n))
  | optional => exact .of_readable (readable_of_hasForm (Json.hasForm_option_int64 x))
  | sample => exact .of_readable (readable_of_hasForm (Json.hasForm_sample x))
  | table => exact .of_readable (readable_map x)
  | pairs => exact .of_readable (readable_pairs x)
  | tree =>
      exact ⟨readable_tree h, fun hdeep => misused_tree h (Nat.lt_of_not_le hdeep)⟩

theorem Kind.judged (kind : Kind) (x : kind.Carrier) (h : kind.IsProper x) :
    Judged x (kind.IsLegible x) := by
  cases kind with
  | integer => exact .of_readable (readable_int64 x)
  | real => exact .of_readable (readable_real x)
  | text => exact .of_readable (readable_string x)
  | json kind => exact kind.judged x.value h

end PolyCache
