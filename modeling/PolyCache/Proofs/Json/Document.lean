import PolyCache.Proofs.Json.Characters

-- What JSON text says, apart from how it is laid out and how its strings are spelled. The members
-- of an object are kept in their order and as often as they stand there, and numbers as they are
-- written.
namespace PolyCache.Json

open Grammar

inductive Document where
  | null
  | boolean (b : Bool)
  | number (literal : Bytes)
  | string (points : List Point)
  | list (items : List Document)
  | object (members : List (List Point × Document))

abbrev Document.Member := List Point × Document

namespace Document

mutual

inductive Writes : Document → Bytes → Prop where
  | null : Writes .null [0x6E, 0x75, 0x6C, 0x6C]
  | true : Writes (.boolean true) [0x74, 0x72, 0x75, 0x65]
  | false : Writes (.boolean false) [0x66, 0x61, 0x6C, 0x73, 0x65]
  | number {text : Bytes} (number : Grammar.Number text) : Writes (.number text) text
  | string {points : List Point} {text : Bytes} (characters : Characters points text) :
      Writes (.string points) (0x22 :: (text ++ [0x22]))
  | emptyList {space : Bytes} (blank : Space space) : Writes (.list []) (0x5B :: (space ++ [0x5D]))
  | list {items : List Document} {text : Bytes} (elements : WritesItems items text) :
      Writes (.list items) (0x5B :: (text ++ [0x5D]))
  | emptyObject {space : Bytes} (blank : Space space) :
      Writes (.object []) (0x7B :: (space ++ [0x7D]))
  | object {members : List Member} {text : Bytes} (named : WritesMembers members text) :
      Writes (.object members) (0x7B :: (text ++ [0x7D]))

-- A document with space around it.
inductive WritesElement : Document → Bytes → Prop where
  | spaced {d : Document} {before text after : Bytes} (leading : Space before)
      (value : Writes d text) (trailing : Space after) :
      WritesElement d (before ++ (text ++ after))

inductive WritesItems : List Document → Bytes → Prop where
  | last {d : Document} {text : Bytes} (element : WritesElement d text) : WritesItems [d] text
  | more {d : Document} {items : List Document} {text rest : Bytes}
      (element : WritesElement d text) (elements : WritesItems items rest) :
      WritesItems (d :: items) (text ++ 0x2C :: rest)

inductive WritesMember : Member → Bytes → Prop where
  | named {points : List Point} {d : Document} {before name after text : Bytes}
      (leading : Space before) (characters : Characters points name) (trailing : Space after)
      (element : WritesElement d text) :
      WritesMember (points, d) (before ++ 0x22 :: (name ++ 0x22 :: (after ++ 0x3A :: text)))

inductive WritesMembers : List Member → Bytes → Prop where
  | last {m : Member} {text : Bytes} (member : WritesMember m text) : WritesMembers [m] text
  | more {m : Member} {members : List Member} {text rest : Bytes}
      (member : WritesMember m text) (more : WritesMembers members rest) :
      WritesMembers (m :: members) (text ++ 0x2C :: rest)

end

section Texts

variable {text rest space : Bytes}

theorem low_of_isBlank {b : UInt8} (h : IsBlank b) : b.toNat < 0x80 := by
  rcases h with rfl | rfl | rfl | rfl <;> decide

theorem isText_lead (hspace : Space space) (h : Utf8.IsText (space ++ text)) :
    Utf8.IsText text := by
  induction space with
  | nil => exact h
  | cons b space ih =>
      obtain ⟨hb, hmore⟩ := List.forall_mem_cons.mp hspace
      exact ih hmore (h.tail (low_of_isBlank hb))

theorem isText_trail (hspace : Space space) (h : Utf8.IsText (text ++ space)) :
    Utf8.IsText text := by
  cases space with
  | nil => rwa [List.append_nil] at h
  | cons b space => exact (h.cut (low_of_isBlank (hspace b List.mem_cons_self))).1

-- What stands between a byte and another one behind it.
theorem isText_between {b c : UInt8} (hb : b.toNat < 0x80) (hc : c.toNat < 0x80)
    (h : Utf8.IsText (b :: (text ++ c :: rest))) : Utf8.IsText text ∧ Utf8.IsText rest :=
  (h.tail hb).cut hc

theorem isText_inside {b c : UInt8} (hb : b.toNat < 0x80) (hc : c.toNat < 0x80)
    (h : Utf8.IsText (b :: (text ++ [c]))) : Utf8.IsText text :=
  (isText_between hb hc h).1

mutual

-- Every text of the grammar says something.
theorem exists_writes {text : Bytes} (h : Value text) (htext : Utf8.IsText text) :
    ∃ d, Writes d text := by
  match h with
  | .null => exact ⟨_, .null⟩
  | .true => exact ⟨_, .true⟩
  | .false => exact ⟨_, .false⟩
  | .number hnumber => exact ⟨_, .number hnumber⟩
  | .string hstring =>
      obtain ⟨contents⟩ := hstring
      obtain ⟨points, hpoints⟩ :=
        exists_characters contents (isText_inside (by decide) (by decide) htext)
      exact ⟨_, .string hpoints⟩
  | .emptyList blank => exact ⟨_, .emptyList blank⟩
  | .list elements =>
      obtain ⟨items, hitems⟩ := exists_items elements (isText_inside (by decide) (by decide) htext)
      exact ⟨_, .list hitems⟩
  | .emptyObject blank => exact ⟨_, .emptyObject blank⟩
  | .object members =>
      obtain ⟨named, hnamed⟩ := exists_members members (isText_inside (by decide) (by decide) htext)
      exact ⟨_, .object hnamed⟩

theorem exists_element {text : Bytes} (h : Element text) (htext : Utf8.IsText text) :
    ∃ d, WritesElement d text := by
  match h with
  | .spaced leading value trailing =>
      obtain ⟨d, hd⟩ := exists_writes value (isText_trail trailing (isText_lead leading htext))
      exact ⟨d, .spaced leading hd trailing⟩

theorem exists_items {text : Bytes} (h : Elements text) (htext : Utf8.IsText text) :
    ∃ items, WritesItems items text := by
  match h with
  | .last element =>
      obtain ⟨d, hd⟩ := exists_element element htext
      exact ⟨_, .last hd⟩
  | .more element elements =>
      obtain ⟨hfirst, hmore⟩ := htext.cut (by decide)
      obtain ⟨d, hd⟩ := exists_element element hfirst
      obtain ⟨items, hitems⟩ := exists_items elements hmore
      exact ⟨_, .more hd hitems⟩

theorem exists_member {text : Bytes} (h : Grammar.Member text) (htext : Utf8.IsText text) :
    ∃ m, WritesMember m text := by
  match h with
  | .named leading hstring trailing element =>
      obtain ⟨contents⟩ := hstring
      simp only [List.cons_append, List.append_assoc, List.nil_append] at htext ⊢
      obtain ⟨hname, hafter⟩ := isText_between (by decide) (by decide) (isText_lead leading htext)
      obtain ⟨points, hpoints⟩ := exists_characters contents hname
      obtain ⟨-, hvalue⟩ := hafter.cut (by decide)
      obtain ⟨d, hd⟩ := exists_element element hvalue
      exact ⟨_, .named leading hpoints trailing hd⟩

theorem exists_members {text : Bytes} (h : Members text) (htext : Utf8.IsText text) :
    ∃ members, WritesMembers members text := by
  match h with
  | .last member =>
      obtain ⟨m, hm⟩ := exists_member member htext
      exact ⟨_, .last hm⟩
  | .more member members =>
      obtain ⟨hfirst, hmore⟩ := htext.cut (by decide)
      obtain ⟨m, hm⟩ := exists_member member hfirst
      obtain ⟨named, hnamed⟩ := exists_members members hmore
      exact ⟨_, .more hm hnamed⟩

end

-- The first byte tells the kinds of documents apart.
inductive Begins : Document → UInt8 → Prop where
  | null : Begins .null 0x6E
  | true : Begins (.boolean true) 0x74
  | false : Begins (.boolean false) 0x66
  | number {literal : Bytes} {b : UInt8} (first : b = 0x2D ∨ IsDigit b) : Begins (.number literal) b
  | string {points : List Point} : Begins (.string points) 0x22
  | list {items : List Document} : Begins (.list items) 0x5B
  | object {members : List Member} : Begins (.object members) 0x7B

theorem Writes.first {d : Document} (h : Writes d text) :
    ∃ b tail, text = b :: tail ∧ Begins d b := by
  cases h with
  | number number =>
      obtain ⟨b, tail, rfl, hb⟩ := number.first
      exact ⟨b, tail, rfl, .number hb⟩
  | null => exact ⟨_, _, rfl, .null⟩
  | true => exact ⟨_, _, rfl, .true⟩
  | false => exact ⟨_, _, rfl, .false⟩
  | string => exact ⟨_, _, rfl, .string⟩
  | emptyList | list => exact ⟨_, _, rfl, .list⟩
  | emptyObject | object => exact ⟨_, _, rfl, .object⟩

theorem Begins.not_blank {d : Document} {b : UInt8} (h : Begins d b) : ¬IsBlank b := by
  cases h with
  | number first =>
      obtain rfl | hb := first
      · decide
      · exact hb.not_blank
  | null | true | false | string | list | object => decide

end Texts

end Document

end PolyCache.Json
