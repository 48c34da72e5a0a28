import PolyCache.Json.Form
import PolyCache.Proofs.Entries
import PolyCache.Proofs.Json.Reader

-- Values of the types with a JSON form that are printed as a text which is read back as the value.
namespace PolyCache.Json

open Grammar Skip

-- A value has a text of its own, for readers that may go `depth` deep.
def HasForm {α : Type} [JsonForm α] (depth : Nat) (a : α) : Prop :=
  ∃ text, JsonForm.print a = .ok text ∧ Spells (JsonForm.read depth) text a

theorem isWord_toInt (n : Int64) : IsWord n.toInt :=
  ⟨n.le_toInt, Int.lt_trans n.toInt_lt (by decide)⟩

theorem int64_bounds (n : Int64) : minInt64 ≤ n.toInt ∧ n.toInt ≤ maxInt64 :=
  ⟨n.le_toInt, Int.le_sub_one_of_lt n.toInt_lt⟩

theorem spells_int64 (n : Int64) : Spells readInt64 (printInt n.toInt) n := by
  have hwithin := spells_printInt "i64" (isWord_toInt n) (int64_bounds n).1 (int64_bounds n).2
  have h : Spells readInt64 (printInt n.toInt) (Int64.ofInt n.toInt) := hwithin.map Int64.ofInt
  rwa [Int64.ofInt_toInt] at h

section Scalars

variable (depth : Nat)

theorem hasForm_bool (b : Bool) : HasForm depth b := ⟨_, rfl, spells_printBool b⟩

theorem hasForm_int64 (n : Int64) : HasForm depth n := ⟨_, rfl, spells_int64 n⟩

theorem hasForm_uint8 (n : UInt8) : HasForm depth n := by
  have hlt := n.toNat_lt
  have hword : IsWord n.toNat := by constructor <;> omega
  have hwithin : Spells (readIntegerWithin "u8" 0 255) (printInt n.toNat) n.toNat :=
    spells_printInt "u8" hword (by omega) (by omega)
  have h : Spells (JsonForm.read depth) (printInt n.toNat) n.toNat.toUInt8 :=
    hwithin.map fun m => m.toNat.toUInt8
  rw [Nat.toUInt8_eq, UInt8.ofNat_toNat] at h
  exact ⟨_, rfl, h⟩

theorem hasForm_string (s : String) : HasForm depth s := ⟨_, rfl, spells_printString _ s⟩

end Scalars

section Containers

variable {depth : Nat}

-- Where each item can be printed, the whole list can.
theorem mapM_of_forall {α β ε : Type} {print : α → Except ε β} {R : β → α → Prop} {items : List α}
    (h : ∀ a ∈ items, ∃ text, print a = .ok text ∧ R text a) :
    ∃ texts, items.mapM print = .ok texts ∧ List.Forall₂ R texts items := by
  induction items with
  | nil => exact ⟨[], rfl, .nil⟩
  | cons a items ih =>
      obtain ⟨⟨text, hprint, htext⟩, hmore⟩ := List.forall_mem_cons.mp h
      obtain ⟨texts, hprints, htexts⟩ := ih hmore
      exact ⟨text :: texts, by rw [List.mapM_cons, hprint, hprints]; rfl, .cons htext htexts⟩

theorem exists_of_map {α β ε : Type} {f : α → β} {result : Except ε α} {b : β}
    (h : result.map f = .ok b) : ∃ a, result = .ok a ∧ f a = b := by
  cases result with
  | error e => cases h
  | ok a => exact ⟨a, rfl, Except.ok.inj h⟩

theorem forall_of_mapM {α β ε : Type} {print : α → Except ε β} {items : List α} {texts : List β}
    (h : items.mapM print = .ok texts) : ∀ t ∈ texts, ∃ a ∈ items, print a = .ok t := by
  induction items generalizing texts with
  | nil =>
      cases h
      exact nofun
  | cons a items ih =>
      rw [List.mapM_cons] at h
      cases hprint : print a with
      | error e =>
          rw [hprint] at h
          cases h
      | ok text =>
          cases hmore : items.mapM print with
          | error e =>
              rw [hprint, hmore] at h
              cases h
          | ok more =>
              rw [hprint, hmore] at h
              cases h
              refine List.forall_mem_cons.mpr ⟨⟨a, List.mem_cons_self, hprint⟩, fun t ht => ?_⟩
              obtain ⟨b, hb, htext⟩ := ih hmore t ht
              exact ⟨b, List.mem_cons_of_mem _ hb, htext⟩

theorem hasForm_list {α : Type} [JsonForm α] {items : List α}
    (h : ∀ a ∈ items, HasForm depth a) : HasForm (depth + 1) items := by
  obtain ⟨texts, hprint, htexts⟩ := mapM_of_forall h
  refine ⟨bracketed texts, ?_, spells_bracketed htexts⟩
  show (items.mapM JsonForm.print).map bracketed = _
  rw [hprint]
  rfl

theorem hasForm_none {α : Type} [JsonForm α] : HasForm depth (none : Option α) := by
  refine ⟨nullText, rfl, .null, ?_⟩
  intro rest _
  show readOption _ (0x6E :: nullTail ++ rest) = _
  rw [List.cons_append, readOption, atValue_cons (by decide), if_pos rfl, readLiteral_append]
  rfl

-- A value whose text begins like `null` would be read as no value.
theorem hasForm_some {α : Type} [JsonForm α] {a : α} {b : UInt8} {text : Bytes}
    (hprint : JsonForm.print a = .ok (b :: text))
    (h : Spells (JsonForm.read depth) (b :: text) a) (hnull : b ≠ 0x6E) :
    HasForm depth (some a) := by
  refine ⟨b :: text, hprint, h.value, ?_⟩
  intro rest hrest
  obtain ⟨first, tail, heq, hblank, -⟩ := h.value.first
  obtain ⟨rfl, rfl⟩ := List.cons.inj heq
  have hread := h.reads rest hrest
  rw [List.cons_append] at hread ⊢
  show readOption _ _ = _
  rw [readOption, atValue_cons hblank, if_neg hnull, hread]
  rfl

theorem hasForm_option_int64 (n : Option Int64) : HasForm depth n := by
  cases n with
  | none => exact hasForm_none
  | some n =>
      obtain ⟨b, text, heq, hb, -⟩ := startsNumber_printInt n.toInt
      have hprint : JsonForm.print n = .ok (b :: text) := congrArg Except.ok heq
      have hspells : Spells (JsonForm.read depth) (b :: text) n := heq ▸ spells_int64 n
      refine hasForm_some hprint hspells ?_
      rintro rfl
      exact absurd hb (by decide)

theorem readStringKey_printed (s : String) :
    readStringKey (printString s ++ rest) = .ok (s, rest) := by
  show readString (s.toList.flatMap printChar ++ [0x22] ++ rest) = _
  rw [List.append_assoc]
  exact readString_printed s

def sampleTexts (s : Sample) : List Bytes :=
  [printMember (printString "a") (printInt s.a.toInt),
    printMember (printString "b") (printString s.b)]

-- Both fields are given once, the integer before the string.
theorem fills_sample (s : Sample) :
    Fills readStringKey PartialSample.enter ⟨none, none⟩ (sampleTexts s)
      ⟨some s.a, some s.b⟩ := by
  have ha := (spells_int64 s.a).map fun a => PartialSample.mk (some a) none
  have hb := (spells_printString "a string" s.b).map fun b => PartialSample.mk (some s.a) (some b)
  have henter : PartialSample.enter ⟨some s.a, none⟩ "b" = .ok _ := if_neg (by decide)
  exact .member (stringText_print "a") (fun _ => readStringKey_printed "a") (if_pos rfl) ha
    (.member (stringText_print "b") (fun _ => readStringKey_printed "b") henter hb .done)

theorem readSampleMembers_printed (s : Sample) :
    readSampleMembers (commaSeparated (sampleTexts s) ++ 0x7D :: rest) =
      .ok (s, 0x7D :: rest) := by
  rw [readSampleMembers, readAllMembers_printed (fills_sample s)]
  rfl

theorem hasForm_sample (s : Sample) : HasForm (depth + 1) s := by
  refine ⟨braced (sampleTexts s), rfl, value_braced (members_of_fills (fills_sample s)), ?_⟩
  intro rest _
  show readRecord _ _ _ _ _ = _
  rw [braced, List.append_assoc, List.cons_append, readRecord, atValue_cons (by decide),
    if_neg (by decide), if_pos rfl]
  exact inObject_eq_ok (readSampleMembers_printed s)

end Containers

section Tables

variable {κ ν : Type} {less : κ → κ → Bool} {key : Reader κ} {name : κ → Bytes} {value : Reader ν}

-- Every key has a name of its own.
structure Names (key : Reader κ) (name : κ → Bytes) : Prop where
  string : ∀ k, StringText (name k)
  reads : ∀ k rest, key (name k ++ rest) = .ok (k, rest)

def SpellsEntry (name : κ → Bytes) (value : Reader ν) (member : Bytes) (entry : κ × ν) : Prop :=
  ∃ text, member = printMember (name entry.1) text ∧ Spells value text entry.2

-- Entries that come in order are put behind one another.
theorem fills_addEntry (ho : Entries.IsOrder less) (hnames : Names key name)
    {members : List Bytes} {before after : List (κ × ν)}
    (h : List.Forall₂ (SpellsEntry name value) members after)
    (hsorted : Entries.Sorted less (before ++ after)) :
    Fills key (addEntry less value) before members (before ++ after) := by
  induction h generalizing before with
  | nil =>
      rw [List.append_nil]
      exact .done
  | @cons member entry members after hhead hmore ih =>
      obtain ⟨k, v⟩ := entry
      obtain ⟨text, rfl, htext⟩ := hhead
      have hlast : ∀ entry ∈ before, less entry.1 k = true := fun entry hm =>
        (List.pairwise_append.mp hsorted).2.2 entry hm (k, v) List.mem_cons_self
      have hentry := htext.map fun v => Entries.insert less k v before
      rw [Entries.insert_of_forall_less ho hlast] at hentry
      rw [List.append_cons] at hsorted ⊢
      exact .member (hnames.string k) (hnames.reads k) rfl hentry (ih hsorted)

theorem readIntegerKey_printed (expected : String) {n low high : Int} (hn : IsWord n)
    (hlow : low ≤ n) (hhigh : n ≤ high) (rest : Bytes) :
    readIntegerKey expected low high (quoted (printInt n) ++ rest) = .ok (n, rest) := by
  have hquote : EndsNumber (0x22 :: rest) := endsNumber_cons (by decide)
  have hread := readNumber_printInt hn hquote
  obtain ⟨b, text, heq, hb, -⟩ := startsNumber_printInt n
  rw [heq, List.cons_append] at hread
  rw [quoted, heq]
  simp only [readIntegerKey, List.cons_append, List.append_assoc, List.nil_append,
    List.drop_succ_cons, List.drop_zero, hb, if_true, hread,
    integerWithin_eq_ok expected hlow hhigh]

theorem int64_names : Names readInt64Key fun k => quoted (printInt k.toInt) where
  string k := .quoted (contents_of_isPlain (isPlain_of_number (number_printInt k.toInt)))
  reads k rest := by
    rw [readInt64Key, readIntegerKey_printed "i64" (isWord_toInt k) (int64_bounds k).1
      (int64_bounds k).2]
    show Except.ok (Int64.ofInt k.toInt, rest) = _
    rw [Int64.ofInt_toInt]

theorem string_names : Names readStringKey printString :=
  ⟨stringText_print, fun s _ => readStringKey_printed s⟩

theorem int64Less_isOrder : Entries.IsOrder int64Less :=
  Entries.intLess_isOrder.comap fun _ _ => Int64.toInt_inj.mp

theorem hasForm_map {ν : Type} [JsonForm ν] {depth : Nat} {m : OrderedMap Int64 ν}
    (hsorted : Entries.Sorted int64Less m.entries)
    (h : ∀ entry ∈ m.entries, HasForm depth entry.2) : HasForm (depth + 1) m := by
  have hentries : ∀ entry ∈ m.entries, ∃ member,
      (JsonForm.print entry.2).map (printMember (quoted (printInt entry.1.toInt))) = .ok member ∧
      SpellsEntry (fun k : Int64 => quoted (printInt k.toInt)) (JsonForm.read depth) member
        entry := by
    intro entry hm
    obtain ⟨text, hprint, htext⟩ := h entry hm
    exact ⟨_, by rw [hprint]; rfl, text, rfl, htext⟩
  obtain ⟨members, hprint, hmembers⟩ := mapM_of_forall hentries
  rw [← List.nil_append m.entries] at hsorted
  have hfills := fills_addEntry int64Less_isOrder int64_names hmembers hsorted
  refine ⟨braced members, ?_, (spells_braced hfills).map OrderedMap.mk⟩
  show Except.map braced (m.entries.mapM _) = _
  rw [hprint]
  rfl

end Tables

section Trees

variable {list object : UInt8 → Bytes → Except Fault (Tree × Bytes)}

-- Trees that can be printed and read by readers that may go `depth` deep: the numbers are integers
-- of 64 bits, and the members of an object stand in the order of their names.
inductive Tree.Fits : (depth : Nat) → Tree → Prop where
  | null {depth : Nat} : Fits depth .null
  | boolean {depth : Nat} {b : Bool} : Fits depth (.boolean b)
  | number {depth : Nat} {n : Int} (word : IsWord n) : Fits depth (.number (.integer n))
  | string {depth : Nat} {s : String} : Fits depth (.string s)
  | list {depth : Nat} {items : List Tree} (fits : ∀ t ∈ items, Fits depth t) :
      Fits (depth + 1) (.list items)
  | object {depth : Nat} {members : List (String × Tree)}
      (sorted : Entries.Sorted Entries.stringLess members)
      (fits : ∀ member ∈ members, Fits depth member.2) : Fits (depth + 1) (.object members)

theorem readTree_eq (depth : Nat) : ∃ list object, readTree depth = readTreeWith list object := by
  cases depth with
  | zero => exact ⟨_, _, rfl⟩
  | succ depth => exact ⟨_, _, rfl⟩

theorem spells_null : Spells (readTreeWith list object) nullText .null where
  value := .null
  reads rest _ := by
    have h := readLiteral_append nullTail rest
    rw [nullText, List.cons_append, readTreeWith, atValue_cons (by decide)]
    simp [startsNumber, isDigit, h, Except.map]

theorem spells_boolean (b : Bool) :
    Spells (readTreeWith list object) (printBool b) (.boolean b) where
  value := (spells_printBool b).value
  reads rest _ := by
    cases b with
    | true =>
        have h := readLiteral_append trueTail rest
        rw [printBool, if_pos rfl, List.cons_append, readTreeWith, atValue_cons (by decide)]
        simp [startsNumber, isDigit, h, Except.map]
    | false =>
        have h := readLiteral_append falseTail rest
        rw [printBool, if_neg Bool.false_ne_true, List.cons_append, readTreeWith,
          atValue_cons (by decide)]
        simp [startsNumber, isDigit, h, Except.map]

theorem spells_number {text : Bytes} {n : Number} (hnumber : Grammar.Number text)
    (hreads : ∀ rest, EndsNumber rest → readNumber (text ++ rest) = .ok (n, rest)) :
    Spells (readTreeWith list object) text (.number n) where
  value := .number hnumber
  reads rest hrest := by
    have hread := hreads rest hrest
    obtain ⟨b, tail, heq, hb, hblank⟩ := startsNumber_of_number hnumber
    have hne {c : UInt8} (hc : startsNumber c = false) : b ≠ c := by
      rintro rfl
      rw [hb] at hc
      exact Bool.noConfusion hc
    rw [heq, List.cons_append] at hread ⊢
    rw [readTreeWith, atValue_cons hblank, if_neg (hne (by decide)), if_neg (hne (by decide)),
      if_neg (hne (by decide)), if_pos hb, hread]
    rfl

theorem spells_string (s : String) :
    Spells (readTreeWith list object) (printString s) (.string s) where
  value := .string (stringText_print s)
  reads rest _ := by
    have hread : readString (s.toList.flatMap printChar ++ ([0x22] ++ rest)) = .ok (s, rest) :=
      readString_printed s
    rw [printString, printChars, List.cons_append, List.cons_append, List.append_assoc,
      readTreeWith, atValue_cons (by decide), if_neg (by decide), if_neg (by decide), if_pos rfl,
      hread]
    rfl

theorem printItems_eq_map (items : List Tree) : printItems items = items.map Tree.print := by
  induction items with
  | nil => rfl
  | cons t items ih => rw [printItems, ih, List.map_cons]

theorem printMembers_eq_map (members : List (String × Tree)) :
    printMembers members =
      members.map fun member => printMember (printString member.1) member.2.print := by
  induction members with
  | nil => rfl
  | cons member members ih => rw [printMembers, ih, List.map_cons]

theorem readTree_tooDeep (rest : Bytes) :
    readTree 0 (0x5B :: rest) = .error (.next .tooDeep (0x5B :: rest)) ∧
      readTree 0 (0x7B :: rest) = .error (.next .tooDeep (0x7B :: rest)) := by
  constructor
  · rw [readTree, readTreeWith, atValue_cons (by decide), if_pos rfl]
    rfl
  · rw [readTree, readTreeWith, atValue_cons (by decide), if_neg (by decide), if_pos rfl]
    rfl

theorem readTree_list (depth : Nat) (rest : Bytes) :
    readTree (depth + 1) (0x5B :: rest) =
      (inList (readAllItems (readTree depth)) rest).map
        fun (items, rest) => (.list items, rest) := by
  rw [readTree, readTreeWith, atValue_cons (by decide), if_pos rfl]

theorem readTree_object (depth : Nat) (rest : Bytes) :
    readTree (depth + 1) (0x7B :: rest) =
      (inObject (readAllMembers readStringKey (addEntry Entries.stringLess (readTree depth)) [])
        rest).map fun (members, rest) => (.object members, rest) := by
  rw [readTree, readTreeWith, atValue_cons (by decide), if_neg (by decide), if_pos rfl]

theorem spells_listTree {depth : Nat} {texts : List Bytes} {items : List Tree}
    (h : List.Forall₂ (Spells (readTree depth)) texts items) :
    Spells (readTree (depth + 1)) (bracketed texts) (.list items) where
  value := value_bracketed (values_of_spells h)
  reads rest _ := by
    rw [bracketed, List.append_assoc, List.cons_append, readTree_list]
    show Except.map _ (inList _ (commaSeparated _ ++ 0x5D :: rest)) = _
    rw [readList_printed h]
    rfl

theorem spells_objectTree {depth : Nat} {texts : List Bytes} {members : List (String × Tree)}
    (h : Fills readStringKey (addEntry Entries.stringLess (readTree depth)) [] texts members) :
    Spells (readTree (depth + 1)) (braced texts) (.object members) where
  value := value_braced (members_of_fills h)
  reads rest _ := by
    rw [braced, List.append_assoc, List.cons_append, readTree_object]
    show Except.map _ (inObject _ (commaSeparated _ ++ 0x7D :: rest)) = _
    rw [inObject_eq_ok (readAllMembers_printed h)]
    rfl

-- Induction on the tree: the items of a list and the members of an object have one level less.
theorem spells_tree {depth : Nat} {t : Tree} (h : t.Fits depth) :
    Spells (readTree depth) t.print t := by
  induction h with
  | @null depth =>
      obtain ⟨list, object, heq⟩ := readTree_eq depth
      exact heq ▸ spells_null
  | @boolean depth b =>
      obtain ⟨list, object, heq⟩ := readTree_eq depth
      exact heq ▸ spells_boolean b
  | @number depth n word =>
      obtain ⟨list, object, heq⟩ := readTree_eq depth
      exact heq ▸ spells_number (number_printInt n) fun rest => readNumber_printInt word
  | @string depth s =>
      obtain ⟨list, object, heq⟩ := readTree_eq depth
      exact heq ▸ spells_string s
  | @list depth items fits ih =>
      have hitems : List.Forall₂ (Spells (readTree depth)) (printItems items) items := by
        rw [printItems_eq_map, List.forall₂_map_left_iff, List.forall₂_same]
        exact ih
      exact spells_listTree hitems
  | @object depth members sorted fits ih =>
      have hmembers : List.Forall₂ (SpellsEntry printString (readTree depth))
          (printMembers members) members := by
        rw [printMembers_eq_map, List.forall₂_map_left_iff, List.forall₂_same]
        exact fun member hm => ⟨_, rfl, ih member hm⟩
      rw [← List.nil_append members] at sorted
      exact spells_objectTree
        (fills_addEntry Entries.stringLess_isOrder string_names hmembers sorted)

theorem hasForm_tree {depth : Nat} {t : Tree} (h : t.Fits depth) : HasForm depth t :=
  ⟨t.print, rfl, spells_tree h⟩

end Trees

end PolyCache.Json
