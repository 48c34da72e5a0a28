import Mathlib.Data.List.Forall2
import PolyCache.Proofs.Json.Number
import PolyCache.Proofs.Json.Characters

-- What readers make of printed text: literals, integers and strings, and the lists and objects made
-- of texts that can be read.
namespace PolyCache.Json

open Grammar Skip

variable {rest : Bytes}

-- A text of the grammar that a reader takes for a value, whatever comes behind it, as long as that
-- could not belong to a number.
structure Spells {α : Type} (read : Reader α) (text : Bytes) (a : α) : Prop where
  value : Value text
  reads : ∀ rest, EndsNumber rest → read (text ++ rest) = .ok (a, rest)

theorem dropSpace_cons {b : UInt8} (hb : ¬IsBlank b) : dropSpace (b :: rest) = b :: rest := by
  simp [dropSpace, not_isSpace hb]

theorem atValue_cons {α : Type} {read : UInt8 → Bytes → Except Fault (α × Bytes)} {b : UInt8}
    (hb : ¬IsBlank b) : atValue read (b :: rest) = read b rest := by
  simp [atValue, dropSpace_cons hb]

theorem readLiteral_append (tail rest : Bytes) : readLiteral tail (tail ++ rest) = .ok rest := by
  induction tail with
  | nil => rfl
  | cons b tail ih => simpa [readLiteral] using ih

-- What is done with a value after it has been read does not change where it ends.
theorem Spells.map {α β : Type} {read : Reader α} {text : Bytes} {a : α} (h : Spells read text a)
    (f : α → β) :
    Spells (fun bytes => (read bytes).map fun (a, rest) => (f a, rest)) text (f a) where
  value := h.value
  reads rest hrest := by rw [h.reads rest hrest]; rfl

section Scalars

theorem startsNumber_of_number {text : Bytes} (h : Grammar.Number text) :
    ∃ b tail, text = b :: tail ∧ startsNumber b = true ∧ ¬IsBlank b := by
  obtain ⟨b, tail, heq, rfl | hb⟩ := h.first
  · exact ⟨_, tail, heq, by decide, by decide⟩
  · exact ⟨b, tail, heq, by simp [startsNumber, isDigit_iff.mpr hb], hb.not_blank⟩

theorem startsNumber_printInt (n : Int) :
    ∃ b text, printInt n = b :: text ∧ startsNumber b = true ∧ ¬IsBlank b :=
  startsNumber_of_number (number_printInt n)

theorem integerWithin_eq_ok (expected : String) {low high n : Int} (hlow : low ≤ n)
    (hhigh : n ≤ high) : integerWithin expected low high (.integer n) rest = .ok (n, rest) := by
  simp [integerWithin, hlow, hhigh]

theorem spells_printBool (b : Bool) : Spells readBool (printBool b) b where
  value := by
    cases b with
    | true => exact .true
    | false => exact .false
  reads rest _ := by
    cases b with
    | true =>
        have h := readLiteral_append trueTail rest
        rw [printBool, if_pos rfl, List.cons_append, readBool, atValue_cons (by decide), if_pos rfl,
          h]
        rfl
    | false =>
        have h := readLiteral_append falseTail rest
        rw [printBool, if_neg Bool.false_ne_true, List.cons_append, readBool,
          atValue_cons (by decide), if_neg (by decide), if_pos rfl, h]
        rfl

theorem spells_printInt (expected : String) {n low high : Int} (hn : IsWord n) (hlow : low ≤ n)
    (hhigh : n ≤ high) : Spells (readIntegerWithin expected low high) (printInt n) n where
  value := .number (number_printInt n)
  reads rest hrest := by
    have hread := readNumber_printInt hn hrest
    obtain ⟨b, text, heq, hb, hblank⟩ := startsNumber_printInt n
    rw [heq, List.cons_append] at hread ⊢
    rw [readIntegerWithin, atValue_cons hblank, if_pos hb, hread]
    exact integerWithin_eq_ok expected hlow hhigh

theorem spells_printString (expected s : String) :
    Spells (readStringAs expected) (printString s) s where
  value := .string (stringText_print s)
  reads rest _ := by
    rw [printString, printChars, List.cons_append, List.cons_append, List.append_assoc,
      readStringAs, atValue_cons (by decide), if_pos rfl]
    exact readString_printed s

end Scalars

theorem commaSeparated_cons (text : Bytes) (texts : List Bytes) :
    commaSeparated (text :: texts) = text ++ texts.flatMap (0x2C :: ·) := by
  induction texts generalizing text with
  | nil => simp [commaSeparated]
  | cons next texts ih =>
      rw [commaSeparated, ih, List.flatMap_cons, List.cons_append]
      exact List.cons_ne_nil next texts

theorem length_le_flatMap (texts : List Bytes) :
    texts.length ≤ (texts.flatMap (0x2C :: ·)).length := by
  induction texts with
  | nil => exact Nat.le_refl 0
  | cons text texts ih =>
      rw [List.flatMap_cons, List.length_append, List.length_cons, List.length_cons]
      omega

-- Behind an item stands a comma, or what ends the list or the object.
theorem endsNumber_more {close : UInt8} (texts : List Bytes)
    (hclose : ¬IsDigit close ∧ close ≠ 0x2E ∧ close ≠ 0x65 ∧ close ≠ 0x45) :
    EndsNumber (texts.flatMap (0x2C :: ·) ++ close :: rest) := by
  cases texts with
  | nil => exact endsNumber_cons hclose
  | cons text texts => exact endsNumber_cons (by decide)

section Lists

variable {α : Type} {item : Reader α} {texts : List Bytes} {items : List α}

theorem elements_commaSeparated {text : Bytes} (h : ∀ t ∈ text :: texts, Value t) :
    Elements (commaSeparated (text :: texts)) := by
  induction texts generalizing text with
  | nil =>
      obtain ⟨hvalue, -⟩ := List.forall_mem_cons.mp h
      exact .last hvalue.element
  | cons next texts ih =>
      obtain ⟨hvalue, hmore⟩ := List.forall_mem_cons.mp h
      exact .more hvalue.element (ih hmore)

theorem value_bracketed (h : ∀ t ∈ texts, Value t) : Value (bracketed texts) := by
  cases texts with
  | nil => exact .emptyList space_nil
  | cons text texts => exact .list (elements_commaSeparated h)

theorem nextItem_first {b : UInt8} {text : Bytes} (hb : ¬IsBlank b) (hclose : b ≠ 0x5D) :
    nextItem true (b :: text) = .ok (true, b :: text) := by
  simp [nextItem, dropSpace_cons hb, hclose]

theorem nextItem_more {b : UInt8} {text : Bytes} (hb : ¬IsBlank b) (hclose : b ≠ 0x5D) :
    nextItem false (0x2C :: b :: text) = .ok (true, b :: text) := by
  simp [nextItem, dropSpace_cons (b := 0x2C) (by decide), dropSpace_cons hb, hclose]

theorem nextItem_end (first : Bool) :
    nextItem first (0x5D :: rest) = .ok (false, 0x5D :: rest) := by
  simp [nextItem, dropSpace_cons (b := 0x5D) (by decide)]

theorem readItems_step {text bytes after : Bytes} {a : α} {first : Bool} {fuel : Nat}
    (h : Spells item text a) (hnext : nextItem first bytes = .ok (true, text ++ after))
    (hafter : EndsNumber after) (hmore : readItems item fuel false after = .ok (items, rest)) :
    readItems item (fuel + 1) first bytes = .ok (a :: items, rest) := by
  simp only [readItems, hnext, h.reads after hafter, hmore]

theorem readItems_more (h : List.Forall₂ (Spells item) texts items) {fuel : Nat}
    (hfuel : texts.length < fuel) :
    readItems item fuel false (texts.flatMap (0x2C :: ·) ++ 0x5D :: rest) =
      .ok (items, 0x5D :: rest) := by
  induction h generalizing fuel with
  | nil =>
      obtain ⟨fuel, rfl⟩ := Nat.exists_eq_succ_of_ne_zero (Nat.ne_zero_of_lt hfuel)
      simp only [List.flatMap_nil, List.nil_append, readItems, nextItem_end]
  | @cons text a texts items hhead hmore ih =>
      obtain ⟨fuel, rfl⟩ := Nat.exists_eq_succ_of_ne_zero (Nat.ne_zero_of_lt hfuel)
      obtain ⟨b, tail, rfl, hb, hclose⟩ := hhead.value.first
      rw [List.flatMap_cons, List.append_assoc]
      exact readItems_step hhead (nextItem_more hb hclose) (endsNumber_more texts (by decide))
        (ih (Nat.lt_of_succ_lt_succ hfuel))

theorem readAllItems_printed (h : List.Forall₂ (Spells item) texts items) :
    readAllItems item (commaSeparated texts ++ 0x5D :: rest) = .ok (items, 0x5D :: rest) := by
  cases h with
  | nil => simp only [readAllItems, commaSeparated, List.nil_append, readItems, nextItem_end]
  | @cons text a texts items hhead hmore =>
      have hlength := length_le_flatMap texts
      obtain ⟨b, tail, rfl, hb, hclose⟩ := hhead.value.first
      rw [commaSeparated_cons, List.append_assoc, readAllItems]
      apply readItems_step hhead (nextItem_first hb hclose) (endsNumber_more texts (by decide))
      apply readItems_more hmore
      simp only [List.length_append, List.length_cons]
      omega

theorem inList_eq_ok {body : Reader α} {bytes : Bytes} {a : α}
    (h : body bytes = .ok (a, 0x5D :: rest)) : inList body bytes = .ok (a, rest) := by
  simp [inList, h, closeList, dropSpace_cons (b := 0x5D) (by decide)]

-- A list of texts is read as the list of what they spell, by a reader that may go a level deeper.
theorem readList_printed (h : List.Forall₂ (Spells item) texts items) :
    inList (readAllItems item) (commaSeparated texts ++ 0x5D :: rest) = .ok (items, rest) :=
  inList_eq_ok (readAllItems_printed h)

theorem values_of_spells (h : List.Forall₂ (Spells item) texts items) : ∀ t ∈ texts, Value t := by
  induction h with
  | nil => simp
  | cons hhead hmore ih => exact List.forall_mem_cons.mpr ⟨hhead.value, ih⟩

theorem spells_bracketed {read : Nat → Reader α} {depth : Nat}
    (h : List.Forall₂ (Spells (read depth)) texts items) :
    Spells (readListOf read (depth + 1)) (bracketed texts) items where
  value := value_bracketed (values_of_spells h)
  reads rest _ := by
    rw [bracketed, List.append_assoc, List.cons_append, readListOf, atValue_cons (by decide),
      if_pos rfl]
    exact readList_printed h

end Lists

section Objects

variable {κ σ : Type} {key : Reader κ} {enter : σ → κ → Except Reason (Reader σ)}
  {s s' : σ} {members : List Bytes}

-- Members that lead from one state to another: each name is read as a key, and what is entered
-- under this key changes the state.
inductive Fills (key : Reader κ) (enter : σ → κ → Except Reason (Reader σ)) :
    σ → List Bytes → σ → Prop where
  | done {s : σ} : Fills key enter s [] s
  | member {s s' s'' : σ} {name text : Bytes} {k : κ} {value : Reader σ} {members : List Bytes}
      (string : StringText name) (named : ∀ rest, key (name ++ rest) = .ok (k, rest))
      (entered : enter s k = .ok value) (spelled : Spells value text s')
      (more : Fills key enter s' members s'') :
      Fills key enter s (printMember name text :: members) s''

theorem member_print {name text : Bytes} (hname : StringText name) (htext : Value text) :
    Member (printMember name text) :=
  .named space_nil hname space_nil htext.element

theorem members_of_fills (h : Fills key enter s members s') : ∀ m ∈ members, Member m := by
  induction h with
  | done => simp
  | member string named entered spelled more ih =>
      exact List.forall_mem_cons.mpr ⟨member_print string spelled.value, ih⟩

theorem members_commaSeparated {member : Bytes} (h : ∀ m ∈ member :: members, Member m) :
    Members (commaSeparated (member :: members)) := by
  induction members generalizing member with
  | nil =>
      obtain ⟨hmember, -⟩ := List.forall_mem_cons.mp h
      exact .last hmember
  | cons next members ih =>
      obtain ⟨hmember, hmore⟩ := List.forall_mem_cons.mp h
      exact .more hmember (ih hmore)

theorem value_braced (h : ∀ m ∈ members, Member m) : Value (braced members) := by
  cases members with
  | nil => exact .emptyObject space_nil
  | cons member members => exact .object (members_commaSeparated h)

theorem nextMember_first : nextMember true (0x22 :: rest) = .ok (true, 0x22 :: rest) := by
  simp [nextMember, dropSpace_cons (b := 0x22) (by decide)]

theorem nextMember_more : nextMember false (0x2C :: 0x22 :: rest) = .ok (true, 0x22 :: rest) := by
  simp [nextMember, dropSpace_cons (b := 0x2C) (by decide),
    dropSpace_cons (b := 0x22) (by decide)]

theorem nextMember_end (first : Bool) :
    nextMember first (0x7D :: rest) = .ok (false, 0x7D :: rest) := by
  simp [nextMember, dropSpace_cons (b := 0x7D) (by decide)]

theorem readColon_cons : readColon (0x3A :: rest) = .ok rest := by
  simp [readColon, dropSpace_cons (b := 0x3A) (by decide)]

theorem readMembers_step {name text bytes after : Bytes} {k : κ} {value : Reader σ} {first : Bool}
    {fuel : Nat} {s'' : σ} (hkey : ∀ rest, key (name ++ rest) = .ok (k, rest))
    (henter : enter s k = .ok value) (hvalue : Spells value text s')
    (hnext : nextMember first bytes = .ok (true, printMember name text ++ after))
    (hafter : EndsNumber after)
    (hmore : readMembers key enter fuel false s' after = .ok (s'', rest)) :
    readMembers key enter (fuel + 1) first s bytes = .ok (s'', rest) := by
  rw [printMember, List.append_assoc, List.cons_append] at hnext
  simp only [readMembers, hnext, hkey, henter, readColon_cons, hvalue.reads after hafter, hmore]

theorem readMembers_more (h : Fills key enter s members s') {fuel : Nat}
    (hfuel : members.length < fuel) :
    readMembers key enter fuel false s (members.flatMap (0x2C :: ·) ++ 0x7D :: rest) =
      .ok (s', 0x7D :: rest) := by
  induction h generalizing fuel with
  | done =>
      obtain ⟨fuel, rfl⟩ := Nat.exists_eq_succ_of_ne_zero (Nat.ne_zero_of_lt hfuel)
      simp only [List.flatMap_nil, List.nil_append, readMembers, nextMember_end]
  | @member _ _ _ name text _ _ members string named entered spelled more ih =>
      obtain ⟨fuel, rfl⟩ := Nat.exists_eq_succ_of_ne_zero (Nat.ne_zero_of_lt hfuel)
      obtain ⟨contents⟩ := string
      rw [List.flatMap_cons, List.append_assoc]
      exact readMembers_step named entered spelled nextMember_more
        (endsNumber_more members (by decide)) (ih (Nat.lt_of_succ_lt_succ hfuel))

theorem readAllMembers_printed (h : Fills key enter s members s') :
    readAllMembers key enter s (commaSeparated members ++ 0x7D :: rest) =
      .ok (s', 0x7D :: rest) := by
  cases h with
  | done =>
      simp only [readAllMembers, commaSeparated, List.nil_append, readMembers, nextMember_end]
  | @member _ _ _ name text _ _ members string named entered spelled more =>
      have hlength := length_le_flatMap members
      obtain ⟨contents⟩ := string
      rw [commaSeparated_cons, List.append_assoc, readAllMembers]
      apply readMembers_step named entered spelled nextMember_first
        (endsNumber_more members (by decide))
      apply readMembers_more more
      simp only [List.length_append, List.length_cons]
      omega

theorem inObject_eq_ok {α : Type} {body : Reader α} {bytes : Bytes} {a : α}
    (h : body bytes = .ok (a, 0x7D :: rest)) : inObject body bytes = .ok (a, rest) := by
  simp [inObject, h, closeObject, dropSpace_cons (b := 0x7D) (by decide)]

theorem spells_braced {enter : Nat → σ → κ → Except Reason (Reader σ)} {depth : Nat}
    (h : Fills key (enter depth) s members s') :
    Spells (readObjectInto key enter s (depth + 1)) (braced members) s' where
  value := value_braced (members_of_fills h)
  reads rest _ := by
    rw [braced, List.append_assoc, List.cons_append, readObjectInto, atValue_cons (by decide),
      if_pos rfl]
    exact inObject_eq_ok (readAllMembers_printed h)

end Objects

end PolyCache.Json
