import PolyCache.Proofs.Json.Form
import PolyCache.Proofs.Json.Layout

-- Printed values that can be read, if not always as what they were, and those that cannot. A
-- number that is not finite is printed as `null`, which is no number, and a printer goes as deep
-- as a value does, but a reader does not.
namespace PolyCache.Json

open Grammar Skip Binary64

variable {rest : Bytes}

def Reads {α : Type} (read : Reader α) (text : Bytes) : Prop := ∃ a, Spells read text a

-- A text of the grammar that a reader does not take, whatever comes behind it.
structure Refuses {α : Type} (read : Reader α) (text : Bytes) : Prop where
  value : Value text
  fails : ∀ rest, ∃ fault, read (text ++ rest) = .error fault

section Reals

variable {x : Binary64}

theorem reads_real (h : x.IsFinite) : Reads readBinary64 (printBinary64 x) := by
  obtain ⟨hnumber, y, hreads⟩ := readNumber_printBinary64 h
  refine ⟨y, .number hnumber, fun rest hrest => ?_⟩
  have hread := hreads rest hrest
  obtain ⟨b, tail, heq, hb, hblank⟩ := startsNumber_of_number hnumber
  rw [heq, List.cons_append] at hread ⊢
  rw [readBinary64, atValue_cons hblank, if_pos hb, hread]
  rfl

theorem refuses_real (h : ¬x.IsFinite) : Refuses readBinary64 (printBinary64 x) := by
  rw [printBinary64_of_not_finite h]
  refine ⟨.null, fun rest => ⟨mismatch "f64" 0x6E (nullTail ++ rest), ?_⟩⟩
  rw [nullText, List.cons_append, readBinary64, atValue_cons (by decide), if_neg (by decide)]

end Reals

section Stops

-- Texts of which one is bad, after good ones.
inductive Stops (good bad : Bytes → Prop) : List Bytes → Prop where
  | here {text : Bytes} {texts : List Bytes} (stop : bad text) : Stops good bad (text :: texts)
  | later {text : Bytes} {texts : List Bytes} (pass : good text) (stops : Stops good bad texts) :
      Stops good bad (text :: texts)

theorem stops_of_not_forall {good bad : Bytes → Prop} {β : Type} {p : β → Prop} {print : β → Bytes}
    {items : List β} (hgood : ∀ b ∈ items, p b → good (print b))
    (hbad : ∀ b ∈ items, ¬p b → bad (print b)) (hnot : ¬∀ b ∈ items, p b) :
    Stops good bad (items.map print) := by
  induction items with
  | nil => exact absurd nofun hnot
  | cons b items ih =>
      rw [List.forall_mem_cons] at hgood hbad hnot
      by_cases hb : p b
      · exact .later (hgood.1 hb) (ih hgood.2 hbad.2 fun hmore => hnot ⟨hb, hmore⟩)
      · exact .here (hbad.1 hb)

end Stops

section Lists

variable {α : Type} {item : Reader α} {texts : List Bytes}

theorem exists_spelled (h : ∀ t ∈ texts, Reads item t) :
    ∃ as, List.Forall₂ (Spells item) texts as := by
  induction texts with
  | nil => exact ⟨[], .nil⟩
  | cons t texts ih =>
      obtain ⟨⟨a, ha⟩, hmore⟩ := List.forall_mem_cons.mp h
      obtain ⟨as, has⟩ := ih hmore
      exact ⟨a :: as, .cons ha has⟩

theorem readItems_refused {text bytes after : Bytes} {first : Bool} {fuel : Nat}
    (h : Refuses item text) (hnext : nextItem first bytes = .ok (true, text ++ after)) :
    ∃ fault, readItems item (fuel + 1) first bytes = .error fault := by
  obtain ⟨fault, hfails⟩ := h.fails after
  exact ⟨fault, by simp only [readItems, hnext, hfails]⟩

theorem readItems_passed {text bytes after : Bytes} {first : Bool} {fuel : Nat} {fault : Fault}
    (h : Reads item text) (hnext : nextItem first bytes = .ok (true, text ++ after))
    (hafter : EndsNumber after) (hmore : readItems item fuel false after = .error fault) :
    readItems item (fuel + 1) first bytes = .error fault := by
  obtain ⟨a, ha⟩ := h
  simp only [readItems, hnext, ha.reads after hafter, hmore]

theorem readItems_stops (h : Stops (Reads item) (Refuses item) texts) (fuel : Nat) (rest : Bytes) :
    ∃ fault, readItems item fuel false (texts.flatMap (0x2C :: ·) ++ 0x5D :: rest) =
      .error fault := by
  induction h generalizing fuel with
  | @here text texts stop =>
      obtain ⟨b, tail, rfl, hb, hclose⟩ := stop.value.first
      rw [List.flatMap_cons, List.append_assoc]
      cases fuel with
      | zero => exact ⟨_, rfl⟩
      | succ fuel => exact readItems_refused stop (nextItem_more hb hclose)
  | @later text texts pass stops ih =>
      obtain ⟨b, tail, rfl, hb, hclose⟩ := pass.choose_spec.value.first
      rw [List.flatMap_cons, List.append_assoc]
      cases fuel with
      | zero => exact ⟨_, rfl⟩
      | succ fuel =>
          obtain ⟨fault, hfails⟩ := ih fuel
          exact ⟨fault, readItems_passed pass (nextItem_more hb hclose)
            (endsNumber_more texts (by decide)) hfails⟩

theorem readList_stops (h : Stops (Reads item) (Refuses item) texts) (rest : Bytes) :
    ∃ fault, inList (readAllItems item) (commaSeparated texts ++ 0x5D :: rest) = .error fault := by
  have hitems : ∃ fault, readAllItems item (commaSeparated texts ++ 0x5D :: rest) =
      .error fault := by
    cases h with
    | @here text texts stop =>
        obtain ⟨b, tail, rfl, hb, hclose⟩ := stop.value.first
        rw [commaSeparated_cons, List.append_assoc, readAllItems]
        exact readItems_refused stop (nextItem_first hb hclose)
    | @later text texts pass stops =>
        obtain ⟨b, tail, rfl, hb, hclose⟩ := pass.choose_spec.value.first
        rw [commaSeparated_cons, List.append_assoc, readAllItems]
        obtain ⟨fault, hfails⟩ := readItems_stops stops _ rest
        exact ⟨fault, readItems_passed pass (nextItem_first hb hclose)
          (endsNumber_more texts (by decide)) hfails⟩
  obtain ⟨fault, hfails⟩ := hitems
  exact ⟨_, by rw [inList, hfails]⟩

end Lists

section Objects

variable {κ ν : Type} {less : κ → κ → Bool} {key : Reader κ} {name : κ → Bytes} {value : Reader ν}
  {members : List Bytes}

-- A member with a name, and what the value says about its text.
def Named (name : κ → Bytes) (p : Bytes → Prop) (member : Bytes) : Prop :=
  ∃ k text, member = printMember (name k) text ∧ p text

-- Whatever the names are, no entry is refused for its name.
theorem exists_filled (hnames : Names key name) (h : ∀ m ∈ members, Named name (Reads value) m)
    (before : List (κ × ν)) : ∃ after, Fills key (addEntry less value) before members after := by
  induction members generalizing before with
  | nil => exact ⟨before, .done⟩
  | cons member members ih =>
      obtain ⟨⟨k, text, rfl, v, hv⟩, hmore⟩ := List.forall_mem_cons.mp h
      obtain ⟨after, hafter⟩ := ih hmore (Entries.insert less k v before)
      exact ⟨after, .member (hnames.string k) (hnames.reads k) rfl
        (hv.map fun v => Entries.insert less k v before) hafter⟩

theorem readMembers_refused (hnames : Names key name) {k : κ} {text bytes after : Bytes}
    {first : Bool} {fuel : Nat} {before : List (κ × ν)} (h : Refuses value text)
    (hnext : nextMember first bytes = .ok (true, printMember (name k) text ++ after)) :
    ∃ fault,
      readMembers key (addEntry less value) (fuel + 1) first before bytes = .error fault := by
  obtain ⟨fault, hfails⟩ := h.fails after
  rw [printMember, List.append_assoc, List.cons_append] at hnext
  exact ⟨fault, by
    simp only [readMembers, hnext, hnames.reads k, addEntry, readColon_cons, hfails, Except.map]⟩

theorem readMembers_passed (hnames : Names key name) {k : κ} {text bytes after : Bytes}
    {first : Bool} {fuel : Nat} {before : List (κ × ν)} {v : ν} {fault : Fault}
    (h : Spells value text v)
    (hnext : nextMember first bytes = .ok (true, printMember (name k) text ++ after))
    (hafter : EndsNumber after)
    (hmore :
      readMembers key (addEntry less value) fuel false (Entries.insert less k v before) after =
      .error fault) :
    readMembers key (addEntry less value) (fuel + 1) first before bytes = .error fault := by
  rw [printMember, List.append_assoc, List.cons_append] at hnext
  simp only [readMembers, hnext, hnames.reads k, addEntry, readColon_cons, h.reads after hafter,
    Except.map, hmore]

theorem nextMember_named (hnames : Names key name) (k : κ) (text after : Bytes) :
    nextMember true (printMember (name k) text ++ after) =
        .ok (true, printMember (name k) text ++ after) ∧
      nextMember false (0x2C :: (printMember (name k) text ++ after)) =
        .ok (true, printMember (name k) text ++ after) := by
  obtain ⟨contents, heq⟩ : ∃ tail, name k = 0x22 :: tail := by
    cases hname : name k with
    | nil => exact absurd (hname ▸ hnames.string k) nofun
    | cons b tail =>
        have hstring := hnames.string k
        rw [hname] at hstring
        cases hstring
        exact ⟨_, rfl⟩
  rw [heq]
  exact ⟨nextMember_first, nextMember_more⟩

theorem readMembers_stops (less : κ → κ → Bool) (hnames : Names key name)
    (h : Stops (Named name (Reads value)) (Named name (Refuses value)) members) (fuel : Nat)
    (before : List (κ × ν)) (rest : Bytes) :
    ∃ fault, readMembers key (addEntry less value) fuel false before
      (members.flatMap (0x2C :: ·) ++ 0x7D :: rest) = .error fault := by
  induction h generalizing fuel before with
  | @here member members stop =>
      obtain ⟨k, text, rfl, hrefused⟩ := stop
      rw [List.flatMap_cons, List.append_assoc]
      cases fuel with
      | zero => exact ⟨_, rfl⟩
      | succ fuel => exact readMembers_refused hnames hrefused (nextMember_named hnames k text _).2
  | @later member members pass stops ih =>
      obtain ⟨k, text, rfl, v, hv⟩ := pass
      rw [List.flatMap_cons, List.append_assoc]
      cases fuel with
      | zero => exact ⟨_, rfl⟩
      | succ fuel =>
          obtain ⟨fault, hfails⟩ := ih fuel (Entries.insert less k v before)
          exact ⟨fault, readMembers_passed hnames hv (nextMember_named hnames k text _).2
            (endsNumber_more members (by decide)) hfails⟩

theorem readObject_stops (less : κ → κ → Bool) (hnames : Names key name)
    (h : Stops (Named name (Reads value)) (Named name (Refuses value)) members)
    (before : List (κ × ν)) (rest : Bytes) :
    ∃ fault, inObject (readAllMembers key (addEntry less value) before)
      (commaSeparated members ++ 0x7D :: rest) = .error fault := by
  have hmembers : ∃ fault, readAllMembers key (addEntry less value) before
      (commaSeparated members ++ 0x7D :: rest) = .error fault := by
    cases h with
    | @here member members stop =>
        obtain ⟨k, text, rfl, hrefused⟩ := stop
        rw [commaSeparated_cons, List.append_assoc, readAllMembers]
        exact readMembers_refused hnames hrefused (nextMember_named hnames k text _).1
    | @later member members pass stops =>
        obtain ⟨k, text, rfl, v, hv⟩ := pass
        rw [commaSeparated_cons, List.append_assoc, readAllMembers]
        obtain ⟨fault, hfails⟩ := readMembers_stops less hnames stops _
          (Entries.insert less k v before) rest
        exact ⟨fault, readMembers_passed hnames hv (nextMember_named hnames k text _).1
          (endsNumber_more members (by decide)) hfails⟩
  obtain ⟨fault, hfails⟩ := hmembers
  exact ⟨_, by rw [inObject, hfails]⟩

-- A table is read whatever the order of its entries is.
theorem reads_map {ν : Type} [JsonForm ν] {depth : Nat} {m : OrderedMap Int64 ν} {text : Bytes}
    (h : ∀ entry ∈ m.entries, ∀ text, JsonForm.print entry.2 = .ok text →
      Reads (JsonForm.read depth : Reader ν) text)
    (hprint : JsonForm.print m = .ok text) :
    Reads (JsonForm.read (depth + 1) : Reader (OrderedMap Int64 ν)) text := by
  obtain ⟨members, hmembers, rfl⟩ := exists_of_map hprint
  have hnamed : ∀ member ∈ members, Named (fun k : Int64 => quoted (printInt k.toInt))
      (Reads (JsonForm.read depth : Reader ν)) member := by
    intro member hm
    obtain ⟨⟨k, v⟩, hentry, heq⟩ := forall_of_mapM hmembers member hm
    obtain ⟨text, hvalue, rfl⟩ := exists_of_map heq
    exact ⟨k, text, rfl, h (k, v) hentry text hvalue⟩
  obtain ⟨entries, hentries⟩ := exists_filled int64_names hnamed []
  exact ⟨_, (spells_braced hentries).map OrderedMap.mk⟩

-- Only the empty table of pairs is written at all.
theorem reads_pairMap {ν : Type} [JsonForm ν] {depth : Nat} {m : OrderedMap (Int64 × Int64) ν}
    {text : Bytes} (hprint : JsonForm.print m = .ok text) :
    Reads (JsonForm.read (depth + 1) : Reader (OrderedMap (Int64 × Int64) ν)) text := by
  simp only [JsonForm.print] at hprint
  split at hprint
  · cases hprint
    exact ⟨_, (spells_braced .done).map OrderedMap.mk⟩
  · cases hprint

end Objects

section Trees

mutual

-- How many lists and objects stand inside one another.
def Tree.depth : Tree → Nat
  | .list items => itemsDepth items + 1
  | .object members => membersDepth members + 1
  | _ => 0

def itemsDepth : List Tree → Nat
  | [] => 0
  | t :: ts => max t.depth (itemsDepth ts)

def membersDepth : List (String × Tree) → Nat
  | [] => 0
  | (_, t) :: members => max t.depth (membersDepth members)

end

theorem itemsDepth_le_iff {items : List Tree} {depth : Nat} :
    itemsDepth items ≤ depth ↔ ∀ t ∈ items, t.depth ≤ depth := by
  induction items with
  | nil => simp [itemsDepth]
  | cons t items ih => rw [itemsDepth, Nat.max_le, ih, List.forall_mem_cons]

theorem membersDepth_le_iff {members : List (String × Tree)} {depth : Nat} :
    membersDepth members ≤ depth ↔ ∀ member ∈ members, member.2.depth ≤ depth := by
  induction members with
  | nil => simp [membersDepth]
  | cons member members ih => rw [membersDepth, Nat.max_le, ih, List.forall_mem_cons]

-- Trees whose numbers are integers of 64 bits or finite.
inductive Tree.IsProper : Tree → Prop where
  | null : IsProper .null
  | boolean {b : Bool} : IsProper (.boolean b)
  | integer {n : Int} (word : IsWord n) : IsProper (.number (.integer n))
  | real {x : Binary64} (finite : x.IsFinite) : IsProper (.number (.real x))
  | string {s : String} : IsProper (.string s)
  | list {items : List Tree} (proper : ∀ t ∈ items, IsProper t) : IsProper (.list items)
  | object {members : List (String × Tree)} (proper : ∀ member ∈ members, IsProper member.2) :
      IsProper (.object members)

-- What a reader that may go `depth` deep makes of a printed tree.
structure Tree.IsSettled (t : Tree) (depth : Nat) : Prop where
  reads : t.depth ≤ depth → Reads (readTree depth) t.print
  refuses : ¬t.depth ≤ depth → Refuses (readTree depth) t.print

theorem Tree.IsSettled.value {t : Tree} {depth : Nat} (h : t.IsSettled depth) : Value t.print := by
  by_cases hd : t.depth ≤ depth
  · obtain ⟨u, hu⟩ := h.reads hd
    exact hu.value
  · exact (h.refuses hd).value

theorem settled_of_spells {t u : Tree} (depth : Nat) (hdepth : t.depth = 0)
    (h : ∀ {list object}, Spells (readTreeWith list object) t.print u) : t.IsSettled depth := by
  obtain ⟨list, object, heq⟩ := readTree_eq depth
  exact ⟨fun _ => ⟨u, heq ▸ h⟩, fun hd => absurd (hdepth ▸ Nat.zero_le depth) hd⟩

section Lists

variable {items : List Tree} {depth : Nat}

theorem list_depth_le_iff :
    (Tree.list items).depth ≤ depth + 1 ↔ ∀ t ∈ items, t.depth ≤ depth := by
  rw [Tree.depth, Nat.succ_le_succ_iff, itemsDepth_le_iff]

theorem reads_listTree (h : ∀ t ∈ items, Reads (readTree depth) t.print) :
    Reads (readTree (depth + 1)) (Tree.list items).print := by
  obtain ⟨us, hus⟩ := exists_spelled (List.forall_mem_map.mpr h)
  rw [Tree.print, printItems_eq_map]
  exact ⟨_, spells_listTree hus⟩

theorem listTree_fails
    (h : Stops (Reads (readTree depth)) (Refuses (readTree depth)) (items.map Tree.print))
    (rest : Bytes) : ∃ fault, readTree (depth + 1) ((Tree.list items).print ++ rest) =
      .error fault := by
  obtain ⟨fault, hfails⟩ := readList_stops h rest
  rw [Tree.print, printItems_eq_map, bracketed, List.append_assoc, List.cons_append, readTree_list]
  show ∃ fault, Except.map _ (inList _ (commaSeparated _ ++ 0x5D :: rest)) = .error fault
  rw [hfails]
  exact ⟨fault, rfl⟩

theorem settled_list (h : ∀ t ∈ items, ∀ depth, t.IsSettled depth) (depth : Nat) :
    (Tree.list items).IsSettled depth := by
  have hvalue : Value (bracketed (printItems items)) := by
    rw [printItems_eq_map]
    exact value_bracketed (List.forall_mem_map.mpr fun t ht => (h t ht 0).value)
  cases depth with
  | zero =>
      exact ⟨fun hd => absurd hd (Nat.not_succ_le_zero _),
        fun _ => ⟨hvalue, fun rest => ⟨_, (readTree_tooDeep _).1⟩⟩⟩
  | succ depth =>
      constructor
      · intro hd
        exact reads_listTree fun t ht => (h t ht depth).reads (list_depth_le_iff.mp hd t ht)
      · intro hd
        have hstops := stops_of_not_forall (fun t ht => (h t ht depth).reads)
          (fun t ht => (h t ht depth).refuses) (list_depth_le_iff.not.mp hd)
        exact ⟨hvalue, listTree_fails hstops⟩

end Lists

section Objects

variable {members : List (String × Tree)} {depth : Nat}

theorem object_depth_le_iff :
    (Tree.object members).depth ≤ depth + 1 ↔ ∀ member ∈ members, member.2.depth ≤ depth := by
  rw [Tree.depth, Nat.succ_le_succ_iff, membersDepth_le_iff]

theorem reads_objectTree (h : ∀ member ∈ members, Reads (readTree depth) member.2.print) :
    Reads (readTree (depth + 1)) (Tree.object members).print := by
  have hnamed : ∀ text ∈ members.map fun member =>
      printMember (printString member.1) member.2.print,
      Named printString (Reads (readTree depth)) text :=
    List.forall_mem_map.mpr fun member hm => ⟨member.1, _, rfl, h member hm⟩
  obtain ⟨entries, hentries⟩ := exists_filled string_names hnamed []
  rw [Tree.print, printMembers_eq_map]
  exact ⟨_, spells_objectTree hentries⟩

theorem objectTree_fails
    (h : Stops (Named printString (Reads (readTree depth)))
      (Named printString (Refuses (readTree depth)))
      (members.map fun member => printMember (printString member.1) member.2.print))
    (rest : Bytes) : ∃ fault, readTree (depth + 1) ((Tree.object members).print ++ rest) =
      .error fault := by
  obtain ⟨fault, hfails⟩ := readObject_stops Entries.stringLess string_names h [] rest
  rw [Tree.print, printMembers_eq_map, braced, List.append_assoc, List.cons_append, readTree_object]
  show ∃ fault, Except.map _ (inObject _ (commaSeparated _ ++ 0x7D :: rest)) = .error fault
  rw [hfails]
  exact ⟨fault, rfl⟩

theorem settled_object (h : ∀ member ∈ members, ∀ depth, member.2.IsSettled depth) (depth : Nat) :
    (Tree.object members).IsSettled depth := by
  have hvalue : Value (braced (printMembers members)) := by
    rw [printMembers_eq_map]
    exact value_braced (List.forall_mem_map.mpr fun member hm =>
      member_print (stringText_print member.1) (h member hm 0).value)
  cases depth with
  | zero =>
      exact ⟨fun hd => absurd hd (Nat.not_succ_le_zero _),
        fun _ => ⟨hvalue, fun rest => ⟨_, (readTree_tooDeep _).2⟩⟩⟩
  | succ depth =>
      constructor
      · intro hd
        exact reads_objectTree fun member hm =>
          (h member hm depth).reads (object_depth_le_iff.mp hd member hm)
      · intro hd
        refine ⟨hvalue,
          objectTree_fails (stops_of_not_forall ?_ ?_ (object_depth_le_iff.not.mp hd))⟩
        · exact fun member hm hread => ⟨member.1, _, rfl, (h member hm depth).reads hread⟩
        · exact fun member hm hrefused => ⟨member.1, _, rfl, (h member hm depth).refuses hrefused⟩

end Objects

-- Induction on the tree, at all depths at once.
theorem Tree.IsProper.settled {t : Tree} (h : t.IsProper) : ∀ depth, t.IsSettled depth := by
  induction h with
  | null => exact fun depth => settled_of_spells depth rfl spells_null
  | @boolean b => exact fun depth => settled_of_spells depth rfl (spells_boolean b)
  | @integer n word =>
      exact fun depth => settled_of_spells depth rfl
        (spells_number (number_printInt n) fun rest => readNumber_printInt word)
  | @real x finite =>
      obtain ⟨hnumber, y, hreads⟩ := readNumber_printBinary64 finite
      exact fun depth => settled_of_spells depth rfl (spells_number hnumber hreads)
  | @string s => exact fun depth => settled_of_spells depth rfl (spells_string s)
  | list proper ih => exact settled_list ih
  | object proper ih => exact settled_object ih

end Trees

end PolyCache.Json
