import PolyCache.Text.Utf8

-- The grammar of JSON text, over bytes. A string may hold any bytes but control characters, a
-- number may have any size, and lists and objects may stand inside one another to any depth.
namespace PolyCache.Json.Grammar

def IsBlank (b : UInt8) : Prop := b = 0x20 ∨ b = 0x09 ∨ b = 0x0A ∨ b = 0x0D

def IsDigit (b : UInt8) : Prop := 0x30 ≤ b ∧ b ≤ 0x39

def IsHexDigit (b : UInt8) : Prop := IsDigit b ∨ 0x41 ≤ b ∧ b ≤ 0x46 ∨ 0x61 ≤ b ∧ b ≤ 0x66

-- The bytes that may follow a backslash on their own: `" \ / b f n r t`.
def IsEscaped (b : UInt8) : Prop :=
  b = 0x22 ∨ b = 0x5C ∨ b = 0x2F ∨ b = 0x62 ∨ b = 0x66 ∨ b = 0x6E ∨ b = 0x72 ∨ b = 0x74

instance (b : UInt8) : Decidable (IsBlank b) := inferInstanceAs (Decidable (_ ∨ _))

instance (b : UInt8) : Decidable (IsDigit b) := inferInstanceAs (Decidable (_ ∧ _))

instance (b : UInt8) : Decidable (IsHexDigit b) := inferInstanceAs (Decidable (_ ∨ _))

instance (b : UInt8) : Decidable (IsEscaped b) := inferInstanceAs (Decidable (_ ∨ _))

def Space (text : Bytes) : Prop := ∀ b ∈ text, IsBlank b

def Digits (text : Bytes) : Prop := text ≠ [] ∧ ∀ b ∈ text, IsDigit b

-- The digits before the point. A zero stands alone.
inductive Whole : Bytes → Prop where
  | zero : Whole [0x30]
  | digits {b : UInt8} {ds : Bytes} (first : IsDigit b) (nonzero : b ≠ 0x30)
      (more : ∀ d ∈ ds, IsDigit d) : Whole (b :: ds)

inductive Fraction : Bytes → Prop where
  | none : Fraction []
  | decimals {ds : Bytes} (digits : Digits ds) : Fraction (0x2E :: ds)

inductive Sign : Bytes → Prop where
  | none : Sign []
  | plus : Sign [0x2B]
  | minus : Sign [0x2D]

inductive Exponent : Bytes → Prop where
  | none : Exponent []
  | marked {e : UInt8} {s ds : Bytes} (mark : e = 0x65 ∨ e = 0x45) (sign : Sign s)
      (digits : Digits ds) : Exponent (e :: (s ++ ds))

inductive Unsigned : Bytes → Prop where
  | parts {n f e : Bytes} (whole : Whole n) (fraction : Fraction f) (exponent : Exponent e) :
      Unsigned (n ++ (f ++ e))

inductive Number : Bytes → Prop where
  | positive {n : Bytes} (unsigned : Unsigned n) : Number n
  | negative {n : Bytes} (unsigned : Unsigned n) : Number (0x2D :: n)

-- What stands between the quotes of a string. Four hexadecimal digits stand for any number of 16
-- bits, and so for half of a surrogate pair, too.
inductive Contents : Bytes → Prop where
  | nil : Contents []
  | plain {b : UInt8} {text : Bytes} (visible : 0x20 ≤ b) (noQuote : b ≠ 0x22)
      (noBackslash : b ≠ 0x5C) (more : Contents text) : Contents (b :: text)
  | escape {b : UInt8} {text : Bytes} (escaped : IsEscaped b) (more : Contents text) :
      Contents (0x5C :: b :: text)
  | number {a b c d : UInt8} {text : Bytes} (first : IsHexDigit a) (second : IsHexDigit b)
      (third : IsHexDigit c) (fourth : IsHexDigit d) (more : Contents text) :
      Contents (0x5C :: 0x75 :: a :: b :: c :: d :: text)

inductive StringText : Bytes → Prop where
  | quoted {text : Bytes} (contents : Contents text) : StringText (0x22 :: (text ++ [0x22]))

mutual

inductive Value : Bytes → Prop where
  | null : Value [0x6E, 0x75, 0x6C, 0x6C]
  | true : Value [0x74, 0x72, 0x75, 0x65]
  | false : Value [0x66, 0x61, 0x6C, 0x73, 0x65]
  | number {text : Bytes} (number : Number text) : Value text
  | string {text : Bytes} (string : StringText text) : Value text
  | emptyList {space : Bytes} (blank : Space space) : Value (0x5B :: (space ++ [0x5D]))
  | list {text : Bytes} (elements : Elements text) : Value (0x5B :: (text ++ [0x5D]))
  | emptyObject {space : Bytes} (blank : Space space) : Value (0x7B :: (space ++ [0x7D]))
  | object {text : Bytes} (members : Members text) : Value (0x7B :: (text ++ [0x7D]))

inductive Element : Bytes → Prop where
  | spaced {before text after : Bytes} (leading : Space before) (value : Value text)
      (trailing : Space after) : Element (before ++ (text ++ after))

inductive Elements : Bytes → Prop where
  | last {text : Bytes} (element : Element text) : Elements text
  | more {text rest : Bytes} (element : Element text) (elements : Elements rest) :
      Elements (text ++ 0x2C :: rest)

inductive Member : Bytes → Prop where
  | named {before name after text : Bytes} (leading : Space before) (string : StringText name)
      (trailing : Space after) (element : Element text) :
      Member (before ++ (name ++ (after ++ 0x3A :: text)))

inductive Members : Bytes → Prop where
  | last {text : Bytes} (member : Member text) : Members text
  | more {text rest : Bytes} (member : Member text) (members : Members rest) :
      Members (text ++ 0x2C :: rest)

end

-- A whole text: one value with space around it.
abbrev Text (text : Bytes) : Prop := Element text

theorem space_nil : Space [] := by simp [Space]

theorem IsDigit.ne {b c : UInt8} (h : IsDigit b) (hc : ¬IsDigit c) : b ≠ c := by
  rintro rfl
  exact hc h

theorem IsDigit.not_blank {b : UInt8} (h : IsDigit b) : ¬IsBlank b := by
  rintro (rfl | rfl | rfl | rfl) <;> exact absurd h (by decide)

theorem Unsigned.first {text : Bytes} (h : Unsigned text) :
    ∃ b rest, text = b :: rest ∧ IsDigit b := by
  obtain ⟨whole, fraction, exponent⟩ := h
  cases whole with
  | zero => exact ⟨_, _, rfl, by decide⟩
  | digits first => exact ⟨_, _, rfl, first⟩

theorem Number.first {text : Bytes} (h : Number text) :
    ∃ b rest, text = b :: rest ∧ (b = 0x2D ∨ IsDigit b) := by
  cases h with
  | negative unsigned => exact ⟨_, _, rfl, Or.inl rfl⟩
  | positive unsigned =>
      obtain ⟨b, rest, rfl, hb⟩ := unsigned.first
      exact ⟨b, rest, rfl, Or.inr hb⟩

-- No value begins with a blank or ends a list.
theorem Value.first {text : Bytes} (h : Value text) :
    ∃ b rest, text = b :: rest ∧ ¬IsBlank b ∧ b ≠ 0x5D := by
  cases h with
  | number number =>
      obtain ⟨b, rest, rfl, rfl | hb⟩ := number.first
      · exact ⟨_, _, rfl, by decide, by decide⟩
      · exact ⟨_, _, rfl, hb.not_blank, hb.ne (by decide)⟩
  | string string =>
      obtain ⟨contents⟩ := string
      exact ⟨_, _, rfl, by decide, by decide⟩
  | null | true | false | emptyList | list | emptyObject | object =>
      exact ⟨_, _, rfl, by decide, by decide⟩

theorem Elements.first {text : Bytes} (h : Elements text) :
    ∃ space b rest, text = space ++ b :: rest ∧ Space space ∧ ¬IsBlank b ∧ b ≠ 0x5D := by
  cases h with
  | last element =>
      obtain ⟨leading, value, trailing⟩ := element
      obtain ⟨b, rest, rfl, hb⟩ := value.first
      exact ⟨_, b, _, rfl, leading, hb⟩
  | more element elements =>
      obtain ⟨leading, value, trailing⟩ := element
      obtain ⟨b, rest, rfl, hb⟩ := value.first
      exact ⟨_, b, _, List.append_assoc _ _ _, leading, hb⟩

theorem Members.first {text : Bytes} (h : Members text) :
    ∃ space rest, text = space ++ 0x22 :: rest ∧ Space space := by
  cases h with
  | last member =>
      obtain ⟨leading, ⟨contents⟩, trailing, element⟩ := member
      exact ⟨_, _, rfl, leading⟩
  | more member members =>
      obtain ⟨leading, ⟨contents⟩, trailing, element⟩ := member
      exact ⟨_, _, List.append_assoc _ _ _, leading⟩

theorem Value.element {text : Bytes} (h : Value text) : Element text := by
  have he := Element.spaced space_nil h space_nil
  rwa [List.nil_append, List.append_nil] at he

end PolyCache.Json.Grammar
