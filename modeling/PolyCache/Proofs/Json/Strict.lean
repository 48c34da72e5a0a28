import PolyCache.Proofs.Json.Form
import PolyCache.Proofs.Json.Taken

-- Whatever a reader takes for a value of its type is a text of the grammar. Readers refuse more
-- than the grammar does, so the converse fails. There is one lemma for each way in which
-- readers are put together.
namespace PolyCache.Json

open Grammar

-- A reader that takes nothing but values of the grammar, with space before them.
def IsStrict {α : Type} (read : Reader α) : Prop :=
  ∀ ⦃bytes a rest⦄, read bytes = .ok (a, rest) → Takes Element bytes rest

section Spaces

variable {space text : Bytes}

theorem space_append {before after : Bytes} (hbefore : Space before) (hafter : Space after) :
    Space (before ++ after) :=
  List.forall_mem_append.mpr ⟨hbefore, hafter⟩

theorem element_lead (hspace : Space space) (h : Element text) : Element (space ++ text) := by
  obtain ⟨leading, value, trailing⟩ := h
  rw [← List.append_assoc]
  exact .spaced (space_append hspace leading) value trailing

theorem element_trail (h : Element text) (hspace : Space space) : Element (text ++ space) := by
  obtain ⟨leading, value, trailing⟩ := h
  rw [List.append_assoc, List.append_assoc]
  exact .spaced leading value (space_append trailing hspace)

theorem elements_lead (hspace : Space space) (h : Elements text) : Elements (space ++ text) := by
  cases h with
  | last element => exact .last (element_lead hspace element)
  | more element elements =>
      rw [← List.append_assoc]
      exact .more (element_lead hspace element) elements

theorem member_lead (hspace : Space space) (h : Member text) : Member (space ++ text) := by
  obtain ⟨leading, string, trailing, element⟩ := h
  rw [← List.append_assoc]
  exact .named (space_append hspace leading) string trailing element

theorem member_trail (h : Member text) (hspace : Space space) : Member (text ++ space) := by
  obtain ⟨leading, string, trailing, element⟩ := h
  simp only [List.append_assoc, List.cons_append]
  exact .named leading string trailing (element_trail element hspace)

theorem members_lead (hspace : Space space) (h : Members text) : Members (space ++ text) := by
  cases h with
  | last member => exact .last (member_lead hspace member)
  | more member members =>
      rw [← List.append_assoc]
      exact .more (member_lead hspace member) members

theorem takes_space (bytes : Bytes) : Takes Space bytes (dropSpace bytes) :=
  ⟨bytes.takeWhile isSpace, (List.takeWhile_append_dropWhile).symm,
    fun _ hb => isSpace_iff.mp (List.mem_takeWhile_imp hb)⟩

theorem takes_space_of_eq {bytes rest : Bytes} (h : dropSpace bytes = rest) :
    Takes Space bytes rest :=
  h ▸ takes_space bytes

end Spaces

section Separators

-- Items with commas between them, which may have space around them.
structure Separated (one many : Bytes → Prop) : Prop where
  last {text : Bytes} : one text → many text
  more {text rest : Bytes} : one text → many rest → many (text ++ 0x2C :: rest)
  spaced {text space : Bytes} : one text → Space space → one (text ++ space)
  lead {space text : Bytes} : Space space → many text → many (space ++ text)

theorem separated_elements : Separated Element Elements :=
  ⟨.last, .more, element_trail, elements_lead⟩

theorem separated_members : Separated Member Members :=
  ⟨.last, .more, member_trail, members_lead⟩

-- What stands before an item: only the others have a comma.
inductive Lead : (first : Bool) → Bytes → Prop where
  | first {space : Bytes} (blank : Space space) : Lead true space
  | comma {before after : Bytes} (leading : Space before) (trailing : Space after) :
      Lead false (before ++ 0x2C :: after)

-- What stands inside a container, from its beginning on or from the end of an item.
def Items (many : Bytes → Prop) (first : Bool) (text : Bytes) : Prop :=
  Space text ∨ ∃ lead more, text = lead ++ more ∧ Lead first lead ∧ many more

variable {one many : Bytes → Prop} {first : Bool} {bytes rest : Bytes}

theorem Items.cons (hs : Separated one many) {lead item text : Bytes} (hlead : Lead first lead)
    (hitem : one item) (h : Items many false text) : Items many first (lead ++ (item ++ text)) := by
  refine .inr ⟨lead, item ++ text, rfl, hlead, ?_⟩
  obtain hspace | ⟨comma, more, rfl, hcomma, hmore⟩ := h
  · exact hs.last (hs.spaced hitem hspace)
  · cases hcomma with
    | comma leading trailing =>
        rw [List.append_assoc, List.cons_append, ← List.append_assoc]
        exact hs.more (hs.spaced hitem leading) (hs.lead trailing hmore)

theorem takes_comma {after : Bytes} (hbefore : Takes Space bytes (0x2C :: after))
    (hafter : Takes Space after rest) : Takes (Lead false) bytes rest := by
  obtain ⟨before, rfl, hbefore⟩ := hbefore
  obtain ⟨space, rfl, hspace⟩ := hafter
  exact ⟨before ++ 0x2C :: space, by simp, .comma hbefore hspace⟩

theorem takes_items (hs : Separated one many) {middle after : Bytes}
    (hlead : Takes (Lead first) bytes middle) (hitem : Takes one middle after)
    (hmore : Takes (Items many false) after rest) : Takes (Items many first) bytes rest := by
  obtain ⟨lead, rfl, hlead⟩ := hlead
  obtain ⟨item, rfl, hitem⟩ := hitem
  obtain ⟨text, rfl, htext⟩ := hmore
  exact ⟨lead ++ (item ++ text), by simp only [List.append_assoc], .cons hs hlead hitem htext⟩

-- The space before the end belongs to what stands inside.
theorem takes_noItems {middle : Bytes} (h : Takes Space bytes middle)
    (hend : Takes Space middle rest) : Takes (Items many first) bytes rest :=
  h.append hend fun _ _ hs ht => .inl (space_append hs ht)

theorem Items.whole (hs : Separated one many) {text : Bytes} (h : Items many true text) :
    Space text ∨ many text := by
  obtain hblank | ⟨lead, more, rfl, hlead, hmore⟩ := h
  · exact .inl hblank
  · cases hlead with
    | first blank => exact .inr (hs.lead blank hmore)

end Separators

section Scalars

variable {α : Type} {b : UInt8} {bytes rest tail : Bytes} {a : α}

theorem isStrict_atValue {read : UInt8 → Bytes → Except Fault (α × Bytes)}
    (h : ∀ ⦃b bytes a rest⦄, read b bytes = .ok (a, rest) → Takes Element (b :: bytes) rest) :
    IsStrict (atValue read) := by
  intro bytes a rest hread
  unfold atValue at hread
  split at hread
  · cases hread
  · rename_i hspace
    exact (takes_space_of_eq hspace).append (h hread) fun _ _ => element_lead

theorem isStrict_value {read : UInt8 → Bytes → Except Fault (α × Bytes)}
    (h : ∀ ⦃b bytes a rest⦄, read b bytes = .ok (a, rest) → Takes Value (b :: bytes) rest) :
    IsStrict (atValue read) :=
  isStrict_atValue fun _ _ _ _ hread => (h hread).imp fun _ => Value.element

theorem IsStrict.map {β : Type} {read : Reader α} (h : IsStrict read) (f : α → β) :
    IsStrict fun bytes => (read bytes).map fun (a, rest) => (f a, rest) := by
  intro bytes b rest hread
  obtain ⟨⟨a, after⟩, hread, heq⟩ := exists_of_map hread
  cases heq
  exact h hread

theorem readLiteral_taken (h : readLiteral tail bytes = .ok rest) : bytes = tail ++ rest := by
  induction tail generalizing bytes with
  | nil =>
      cases h
      rfl
  | cons expected tail ih =>
      cases bytes with
      | nil => cases h
      | cons b bytes =>
          rw [readLiteral] at h
          split at h
          · rename_i hb
            rw [hb, ih h, List.cons_append]
          · cases h

theorem takes_literal {c : α} (h : (readLiteral tail bytes).map (c, ·) = .ok (a, rest))
    (hvalue : Value (b :: tail)) : Takes Value (b :: bytes) rest := by
  obtain ⟨after, hread, heq⟩ := exists_of_map h
  cases heq
  exact ⟨b :: tail, by rw [readLiteral_taken hread, List.cons_append], hvalue⟩

theorem takes_number {f : Number → α}
    (h : ((readNumber bytes).map fun (n, rest) => (f n, rest)) = .ok (a, rest)) :
    Takes Value bytes rest := by
  obtain ⟨⟨n, after⟩, hread, heq⟩ := exists_of_map h
  cases heq
  exact (readNumber_taken hread).imp fun _ => .number

theorem takes_string {f : String → α}
    (h : ((readString bytes).map fun (s, rest) => (f s, rest)) = .ok (a, rest)) :
    Takes Value (0x22 :: bytes) rest := by
  obtain ⟨⟨s, after⟩, hread, heq⟩ := exists_of_map h
  cases heq
  exact (readString_taken hread).imp fun _ => .string

theorem isStrict_bool : IsStrict readBool := isStrict_value fun b bytes a rest h => by
  split at h
  · rename_i hb
    exact hb ▸ takes_literal h .true
  split at h
  · rename_i hb
    exact hb ▸ takes_literal h .false
  · cases h

theorem integerWithin_rest {expected : String} {low high n : Int} {number : Number}
    (h : integerWithin expected low high number bytes = .ok (n, rest)) : rest = bytes := by
  unfold integerWithin at h
  split at h
  · split at h <;> cases h
    rfl
  · cases h

theorem isStrict_integer (expected : String) (low high : Int) :
    IsStrict (readIntegerWithin expected low high) := isStrict_value fun b bytes n rest h => by
  split at h
  · split at h
    · cases h
    · rename_i hread
      obtain rfl := integerWithin_rest h
      exact (readNumber_taken hread).imp fun _ => .number
  · cases h

theorem isStrict_int64 : IsStrict readInt64 := (isStrict_integer _ _ _).map _

theorem isStrict_real : IsStrict readBinary64 := isStrict_value fun b bytes x rest h => by
  split at h
  · exact takes_number h
  · cases h

theorem isStrict_string (expected : String) : IsStrict (readStringAs expected) :=
  isStrict_value fun b bytes s rest h => by
    split at h
    · rename_i hb
      exact hb ▸ (readString_taken h).imp fun _ => .string
    · cases h

theorem isStrict_option {read : Reader α} (hread : IsStrict read) : IsStrict (readOption read) :=
  isStrict_atValue fun b bytes a rest h => by
    split at h
    · rename_i hb
      exact hb ▸ (takes_literal h .null).imp fun _ => Value.element
    · exact hread.map some h

-- What is passed over is a value, too.
theorem isStrict_skip (a : α) : IsStrict fun bytes => (skipValue bytes).map (a, ·) := by
  intro bytes _ rest h
  obtain ⟨left, hskip, heq⟩ := exists_of_map h
  cases heq
  obtain ⟨before, text, after, rfl, hbefore, hvalue, hafter⟩ :=
    Skip.soundBelow _ (Nat.lt_succ_self _) hskip
  obtain rfl := Except.ok.inj hafter
  exact ⟨before ++ text, (List.append_assoc _ _ _).symm, element_lead hbefore hvalue.element⟩

end Scalars

section Lists

variable {α : Type} {first more : Bool} {bytes middle rest : Bytes} {a : α} {read : Reader α}

-- The bytes before the next item, or before the end of the list.
theorem nextItem_taken (h : nextItem first bytes = .ok (more, rest)) :
    Takes (cond more (Lead first) Space) bytes rest := by
  unfold nextItem at h
  split at h
  · cases h
  rename_i hspace
  have hspace := takes_space_of_eq hspace
  split at h
  · cases h
    exact hspace
  split at h
  · rename_i hfirst
    subst hfirst
    cases h
    exact hspace.imp fun _ => Lead.first
  split at h
  · rename_i hfirst hcomma
    rw [Bool.not_eq_true] at hfirst
    subst hfirst hcomma
    split at h
    · cases h
    rename_i hafter
    split at h <;> cases h
    exact takes_comma hspace (takes_space_of_eq hafter)
  · cases h

theorem closeList_taken (h : closeList bytes = .ok rest) : Takes Space bytes (0x5D :: rest) := by
  unfold closeList at h
  split at h
  · cases h
  rename_i hspace
  split at h
  · rename_i hclose
    cases h
    exact hclose ▸ takes_space_of_eq hspace
  split at h
  · split at h
    · cases h
    · split at h <;> cases h
  · cases h

-- A reader that, with the space before the end, takes what may stand inside a list.
def IsListBody (body : Reader α) : Prop :=
  ∀ ⦃bytes a middle rest⦄, body bytes = .ok (a, middle) → Takes Space middle rest →
    Takes (Items Elements true) bytes rest

theorem inList_taken (hbody : IsListBody read) (h : inList read bytes = .ok (a, rest)) :
    Takes Value (0x5B :: bytes) rest := by
  unfold inList at h
  split at h
  · cases h
  rename_i hread
  split at h <;> cases h
  rename_i hclose
  obtain ⟨text, rfl, htext⟩ := hbody hread (closeList_taken hclose)
  refine ⟨0x5B :: (text ++ [0x5D]), by simp, ?_⟩
  obtain hblank | helements := htext.whole separated_elements
  · exact .emptyList hblank
  · exact .list helements

theorem readItems_taken (hread : IsStrict read) {fuel : Nat} {as : List α}
    (h : readItems read fuel first bytes = .ok (as, middle)) (hend : Takes Space middle rest) :
    Takes (Items Elements first) bytes rest := by
  induction fuel generalizing first bytes as with
  | zero => cases h
  | succ fuel ih =>
      rw [readItems] at h
      dsimp only at h
      split at h
      · cases h
      · rename_i hnext
        cases h
        exact takes_noItems (nextItem_taken hnext) hend
      · rename_i hnext
        split at h
        · cases h
        rename_i hitem
        split at h <;> cases h
        rename_i hmore
        exact takes_items separated_elements (nextItem_taken hnext) (hread hitem) (ih hmore)

theorem isListBody_all (hread : IsStrict read) : IsListBody (readAllItems read) :=
  fun _ _ _ _ h hend => readItems_taken hread h hend

theorem deeper_eq_ok {depth : Nat} {reader : Nat → Except Fault (α × Bytes)}
    (h : deeper depth bytes reader = .ok (a, rest)) : ∃ depth, reader depth = .ok (a, rest) := by
  cases depth with
  | zero => cases h
  | succ depth => exact ⟨depth, h⟩

theorem isStrict_list {item : Nat → Reader α} (hitem : ∀ depth, IsStrict (item depth))
    (depth : Nat) : IsStrict (readListOf item depth) := isStrict_value fun b bytes as rest h => by
  split at h
  · rename_i hb
    obtain ⟨depth, h⟩ := deeper_eq_ok h
    exact hb ▸ inList_taken (isListBody_all (hitem depth)) h
  · cases h

theorem readField?_taken (hread : IsStrict read)
    (h : readField? first read bytes = .ok (some a, rest)) :
    ∃ middle, Takes (Lead first) bytes middle ∧ Takes Element middle rest := by
  unfold readField? at h
  split at h
  · cases h
  · cases h
  · rename_i middle hnext
    obtain ⟨⟨a, after⟩, hitem, heq⟩ := exists_of_map h
    cases heq
    exact ⟨middle, nextItem_taken hnext, hread hitem⟩

theorem isListBody_sample : IsListBody readSampleFields := by
  intro bytes sample middle rest h hend
  unfold readSampleFields at h
  split at h
  · cases h
  · cases h
  rename_i hfirst
  split at h <;> cases h
  rename_i hsecond
  obtain ⟨_, hlead, hitem⟩ := readField?_taken isStrict_int64 hfirst
  obtain ⟨_, hcomma, hlast⟩ := readField?_taken (isStrict_string _) hsecond
  exact takes_items separated_elements hlead hitem
    (takes_items separated_elements hcomma hlast (hend.imp fun _ => .inl))

end Lists

section Objects

variable {κ σ : Type} {first more : Bool} {bytes middle rest : Bytes} {state : σ}

-- The bytes before the next name, or before the end of the object.
theorem nextMember_taken (h : nextMember first bytes = .ok (more, rest)) :
    Takes (cond more (Lead first) Space) bytes rest ∧
      (more = true → ∃ tail, rest = 0x22 :: tail) := by
  have hname {b : UInt8} {tail : Bytes}
      (h :
        (if b = 0x22 then .ok (true, b :: tail) else .error (.next .expectedStringKey (b :: tail)) :
        Except Fault (Bool × Bytes)) = .ok (more, rest)) :
      more = true ∧ b :: tail = rest ∧ b = 0x22 := by
    split at h <;> cases h
    exact ⟨rfl, rfl, ‹_›⟩
  unfold nextMember at h
  dsimp only at h
  split at h
  · cases h
  rename_i hspace
  have hspace := takes_space_of_eq hspace
  split at h
  · cases h
    exact ⟨hspace, nofun⟩
  split at h
  · rename_i hfirst
    subst hfirst
    obtain ⟨rfl, rfl, rfl⟩ := hname h
    exact ⟨hspace.imp fun _ => Lead.first, fun _ => ⟨_, rfl⟩⟩
  split at h
  · rename_i hfirst hcomma
    rw [Bool.not_eq_true] at hfirst
    subst hfirst hcomma
    split at h
    · cases h
    rename_i hafter
    split at h
    · cases h
    obtain ⟨rfl, rfl, rfl⟩ := hname h
    exact ⟨takes_comma hspace (takes_space_of_eq hafter), fun _ => ⟨_, rfl⟩⟩
  · cases h

theorem readColon_taken (h : readColon bytes = .ok rest) : Takes Space bytes (0x3A :: rest) := by
  unfold readColon at h
  split at h
  · cases h
  rename_i hspace
  split at h <;> cases h
  rename_i hcolon
  exact hcolon ▸ takes_space_of_eq hspace

theorem closeObject_taken (h : closeObject bytes = .ok rest) :
    Takes Space bytes (0x7D :: rest) := by
  unfold closeObject at h
  split at h
  · cases h
  rename_i hspace
  split at h
  · rename_i hclose
    cases h
    exact hclose ▸ takes_space_of_eq hspace
  · split at h <;> cases h

-- A reader that, with the space before the end, takes what may stand inside an object.
def IsObjectBody (body : Reader σ) : Prop :=
  ∀ ⦃bytes state middle rest⦄, body bytes = .ok (state, middle) → Takes Space middle rest →
    Takes (Items Members true) bytes rest

theorem inObject_taken {body : Reader σ} (hbody : IsObjectBody body)
    (h : inObject body bytes = .ok (state, rest)) : Takes Value (0x7B :: bytes) rest := by
  unfold inObject at h
  split at h
  · cases h
  rename_i hread
  split at h <;> cases h
  rename_i hclose
  obtain ⟨text, rfl, htext⟩ := hbody hread (closeObject_taken hclose)
  refine ⟨0x7B :: (text ++ [0x7D]), by simp, ?_⟩
  obtain hblank | hmembers := htext.whole separated_members
  · exact .emptyObject hblank
  · exact .object hmembers

-- A reader of names that takes nothing but strings.
def IsStrictKey (key : Reader κ) : Prop :=
  ∀ ⦃bytes k rest⦄, key (0x22 :: bytes) = .ok (k, rest) → Takes StringText (0x22 :: bytes) rest

variable {key : Reader κ} {enter : σ → κ → Except Reason (Reader σ)}

theorem takes_member {after : Bytes} (hname : Takes StringText bytes middle)
    (hcolon : Takes Space middle (0x3A :: after)) (hvalue : Takes Element after rest) :
    Takes Member bytes rest := by
  obtain ⟨name, rfl, hname⟩ := hname
  obtain ⟨space, rfl, hspace⟩ := hcolon
  obtain ⟨text, rfl, htext⟩ := hvalue
  exact ⟨[] ++ (name ++ (space ++ 0x3A :: text)), by simp, .named space_nil hname hspace htext⟩

theorem readMembers_taken (hkey : IsStrictKey key)
    (henter : ∀ ⦃state k value⦄, enter state k = .ok value → IsStrict value) {fuel : Nat}
    {before : σ} (h : readMembers key enter fuel first before bytes = .ok (state, middle))
    (hend : Takes Space middle rest) : Takes (Items Members first) bytes rest := by
  induction fuel generalizing first bytes before with
  | zero => cases h
  | succ fuel ih =>
      rw [readMembers] at h
      dsimp only at h
      split at h
      · cases h
      · rename_i hnext
        cases h
        exact takes_noItems (nextMember_taken hnext).1 hend
      · rename_i hnext
        obtain ⟨hlead, hquote⟩ := nextMember_taken hnext
        obtain ⟨tail, rfl⟩ := hquote rfl
        split at h
        · cases h
        rename_i hname
        split at h
        · cases h
        rename_i hvalue
        split at h
        · cases h
        rename_i hcolon
        split at h
        · cases h
        rename_i hread
        exact takes_items separated_members hlead
          (takes_member (hkey hname) (readColon_taken hcolon) (henter hvalue hread)) (ih h)

theorem isObjectBody_all (hkey : IsStrictKey key)
    (henter : ∀ ⦃state k value⦄, enter state k = .ok value → IsStrict value) (state : σ) :
    IsObjectBody (readAllMembers key enter state) :=
  fun _ _ _ _ h hend => readMembers_taken hkey henter h hend

theorem isStrict_object {enter : Nat → σ → κ → Except Reason (Reader σ)} (hkey : IsStrictKey key)
    (henter : ∀ ⦃depth state k value⦄, enter depth state k = .ok value → IsStrict value)
    (state : σ) (depth : Nat) : IsStrict (readObjectInto key enter state depth) :=
  isStrict_value fun b bytes after rest h => by
    split at h
    · rename_i hb
      obtain ⟨depth, h⟩ := deeper_eq_ok h
      exact hb ▸ inObject_taken (isObjectBody_all hkey (fun _ _ _ h => henter h) state) h
    · cases h

theorem isStrictKey_string : IsStrictKey readStringKey := fun _ _ _ h => readString_taken h

theorem isStrictKey_integer (expected : String) (low high : Int) :
    IsStrictKey (readIntegerKey expected low high) := by
  intro bytes n rest h
  unfold readIntegerKey at h
  split at h
  · cases h
  rename_i hdrop
  rw [List.drop_succ_cons, List.drop_zero] at hdrop
  subst hdrop
  split at h
  · split at h
    · cases h
    rename_i hread
    split at h
    · cases h
    rename_i hwithin
    obtain rfl := integerWithin_rest hwithin
    split at h
    · cases h
    · split at h <;> cases h
      rename_i hquote
      subst hquote
      exact Takes.quoted ((readNumber_taken hread).imp fun _ hnumber =>
        contents_of_isPlain (isPlain_of_number hnumber))
  · cases h

theorem isStrictKey_int64 : IsStrictKey readInt64Key := by
  intro bytes k rest h
  obtain ⟨⟨n, after⟩, hread, heq⟩ := exists_of_map h
  cases heq
  exact isStrictKey_integer _ _ _ hread

theorem isStrictKey_pair : IsStrictKey readPairKey := by
  intro bytes k rest h
  unfold readPairKey at h
  split at h <;> cases h

theorem isStrict_addEntry {ν : Type} {less : κ → κ → Bool} {read : Reader ν}
    (hread : IsStrict read) ⦃entries : List (κ × ν)⦄ ⦃k : κ⦄ ⦃value : Reader (List (κ × ν))⦄
    (h : addEntry less read entries k = .ok value) : IsStrict value := by
  cases h
  exact hread.map fun v => Entries.insert less k v entries

theorem isStrict_fillOnce {α : Type} {name : String} {old : Option α} {read : Reader α}
    (hread : IsStrict read) {set : α → σ} {value : Reader σ}
    (h : fillOnce name old read set = .ok value) : IsStrict value := by
  unfold fillOnce at h
  split at h <;> cases h
  exact hread.map set

theorem isStrict_enter ⦃s : PartialSample⦄ ⦃name : String⦄ ⦃value : Reader PartialSample⦄
    (h : s.enter name = .ok value) : IsStrict value := by
  unfold PartialSample.enter at h
  split at h
  · exact isStrict_fillOnce isStrict_int64 h
  split at h
  · exact isStrict_fillOnce (isStrict_string _) h
  · cases h
    exact isStrict_skip s

theorem isObjectBody_sample : IsObjectBody readSampleMembers := by
  intro bytes sample middle rest h hend
  unfold readSampleMembers at h
  split at h
  · cases h
  rename_i hread
  split at h <;> cases h
  exact isObjectBody_all isStrictKey_string isStrict_enter _ hread hend

theorem isStrict_record {α : Type} {fields members : Nat → Reader α}
    (hfields : ∀ depth, IsListBody (fields depth))
    (hmembers : ∀ depth, IsObjectBody (members depth))
    (expected : String) (depth : Nat) : IsStrict (readRecord expected fields members depth) :=
  isStrict_value fun b bytes a rest h => by
    split at h
    · rename_i hb
      obtain ⟨depth, h⟩ := deeper_eq_ok h
      exact hb ▸ inList_taken (hfields depth) h
    split at h
    · rename_i hb
      obtain ⟨depth, h⟩ := deeper_eq_ok h
      exact hb ▸ inObject_taken (hmembers depth) h
    · cases h

end Objects

section Trees

variable {list object : UInt8 → Bytes → Except Fault (Tree × Bytes)}

theorem isStrict_treeWith
    (hlist : ∀ ⦃bytes t rest⦄, list 0x5B bytes = .ok (t, rest) → Takes Value (0x5B :: bytes) rest)
    (hobject : ∀ ⦃bytes t rest⦄, object 0x7B bytes = .ok (t, rest) →
      Takes Value (0x7B :: bytes) rest) :
    IsStrict (readTreeWith list object) := isStrict_value fun b bytes t rest h => by
  split at h
  · rename_i hb
    subst hb
    exact hlist h
  split at h
  · rename_i hb
    subst hb
    exact hobject h
  split at h
  · rename_i hb
    exact hb ▸ takes_string h
  split at h
  · exact takes_number h
  split at h
  · rename_i hb
    exact hb ▸ takes_literal h .null
  split at h
  · rename_i hb
    exact hb ▸ takes_literal h .true
  split at h
  · rename_i hb
    exact hb ▸ takes_literal h .false
  · cases h

-- The induction is on how deep the reader may go, not on the tree.
theorem isStrict_tree (depth : Nat) : IsStrict (readTree depth) := by
  induction depth with
  | zero => exact isStrict_treeWith (fun _ _ _ h => nomatch h) (fun _ _ _ h => nomatch h)
  | succ depth ih =>
      refine isStrict_treeWith (fun bytes t rest h => ?_) (fun bytes t rest h => ?_)
      · obtain ⟨⟨items, after⟩, hread, heq⟩ := exists_of_map h
        cases heq
        exact inList_taken (isListBody_all ih) hread
      · obtain ⟨⟨members, after⟩, hread, heq⟩ := exists_of_map h
        cases heq
        exact inObject_taken (isObjectBody_all isStrictKey_string (isStrict_addEntry ih) []) hread

end Trees

section Forms

variable {α : Type} {bytes : Bytes} {a : α}

-- Reading a whole text leaves no more than space behind the value.
theorem IsStrict.text {read : Reader α} (hread : IsStrict read)
    (h : readWhole read bytes = .ok a) : Text bytes := by
  unfold readWhole at h
  split at h
  · cases h
  rename_i rest htaken
  obtain ⟨text, rfl, htext⟩ := hread htaken
  obtain ⟨⟨⟩, hfinish, -⟩ := exists_of_map h
  exact element_trail htext (finish_eq_ok_iff.mp hfinish)

-- A type whose texts are all of the grammar, whatever its values.
def HasStrictForm (α : Type) [JsonForm α] : Prop :=
  ∀ depth, IsStrict (JsonForm.read depth : Reader α)

theorem hasStrictForm_byte : HasStrictForm UInt8 :=
  fun _ => (isStrict_integer "u8" 0 255).map fun n => n.toNat.toUInt8

theorem hasStrictForm_list [JsonForm α] (h : HasStrictForm α) : HasStrictForm (List α) :=
  isStrict_list h

theorem hasStrictForm_option [JsonForm α] (h : HasStrictForm α) : HasStrictForm (Option α) :=
  fun depth => isStrict_option (h depth)

theorem hasStrictForm_table [JsonForm α] (h : HasStrictForm α) :
    HasStrictForm (OrderedMap Int64 α) :=
  fun depth => IsStrict.map
    (isStrict_object isStrictKey_int64 (fun depth => isStrict_addEntry (h depth)) [] depth) _

theorem hasStrictForm_pairs [JsonForm α] (h : HasStrictForm α) :
    HasStrictForm (OrderedMap (Int64 × Int64) α) :=
  fun depth => IsStrict.map
    (isStrict_object isStrictKey_pair (fun depth => isStrict_addEntry (h depth)) [] depth) _

theorem hasStrictForm_sample : HasStrictForm Sample :=
  isStrict_record (fun _ => isListBody_sample) (fun _ => isObjectBody_sample) _

end Forms

end PolyCache.Json
