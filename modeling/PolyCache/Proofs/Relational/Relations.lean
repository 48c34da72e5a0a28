import Mathlib.Data.List.Nodup
import Mathlib.Data.List.Perm.Basic
import PolyCache.Relational.Cache

-- Which collections have relations of their own. Tables and indexes of a schema share one set of
-- names. The server reads a name that is not quoted in lower case and drops what it has no room
-- for, and the name of an index is longer than that of its table, so names that pass the check
-- one by one may still meet.
namespace PolyCache.Relational

-- What stands after IF NOT EXISTS, in a text of these words.
def createdNames : List (List Char) → List (List Char)
  | [] => []
  | word :: words =>
    if word = "EXISTS".toList then words.take 1 ++ createdNames words else createdNames words

-- A name without the schema before it.
def bareName (name : List Char) : List Char := (name.splitOn '.').getLastD []

-- The relations that a text creates in its schema.
def relations (sql : String) : List (List Char) :=
  (createdNames (sql.toList.splitOn ' ')).map fun name => knownAs (bareName name)

def indexSuffix : List Char := "__added_at".toList

-- A table with this name has an index of this one.
def indexOf (table : List Char) : List Char := (table ++ indexSuffix).take maxIdentifierLength

-- How the relations of two tables may meet, those of the first table alone included.
inductive Clash (a b : List Char) : Prop where
  -- two spellings of one name
  | table (same : a = b)
  -- no room is left for what an index has more than its table
  | full (long : a.length = maxIdentifierLength)
  -- one table has the name of the other's index
  | index (named : b = a ++ indexSuffix)
  -- both indexes are cut to one name
  | cut (long : b.length = 62) (longer : b = a ++ "_".toList ∨ b = a ++ "__added".toList)

section Names

variable {a b : List Char}

theorem clash_iff : Clash a b ↔ a = b ∨ a.length = maxIdentifierLength ∨ b = a ++ indexSuffix ∨
    b.length = 62 ∧ (b = a ++ "_".toList ∨ b = a ++ "__added".toList) := by
  constructor
  · rintro (same | long | named | ⟨long, longer⟩)
    · exact .inl same
    · exact .inr (.inl long)
    · exact .inr (.inr (.inl named))
    · exact .inr (.inr (.inr ⟨long, longer⟩))
  · rintro (same | long | named | ⟨long, longer⟩)
    · exact .table same
    · exact .full long
    · exact .index named
    · exact .cut long longer

instance : Decidable (Clash a b) := decidable_of_iff _ clash_iff.symm

theorem length_indexSuffix : indexSuffix.length = 10 := by decide

theorem length_indexOf (a : List Char) : (indexOf a).length = min 63 (a.length + 10) := by
  rw [indexOf, List.length_take, List.length_append, length_indexSuffix, maxIdentifierLength]

theorem indexOf_of_le (h : a.length ≤ 53) : indexOf a = a ++ indexSuffix := by
  apply List.take_of_length_le
  rw [List.length_append, length_indexSuffix, maxIdentifierLength]
  omega

theorem indexOf_of_ge (h : a.length ≤ 63) : indexOf a = a ++ indexSuffix.take (63 - a.length) := by
  rw [indexOf, List.take_append, maxIdentifierLength, List.take_of_length_le h]

theorem indexOf_eq_self_iff (h : a.length ≤ 63) : indexOf a = a ↔ a.length = 63 := by
  constructor
  · intro heq
    have hlength := length_indexOf a
    rw [heq] at hlength
    omega
  · intro hfull
    rw [indexOf_of_ge h, hfull]
    simp

-- A table that is not full has the name of another's index only if that one is not cut.
theorem eq_append_of_indexOf (hb : b.length < 63) (h : indexOf a = b) : b = a ++ indexSuffix := by
  have hlength := length_indexOf a
  rw [h] at hlength
  rw [← h]
  exact indexOf_of_le (by omega)

-- Where the suffix may begin anew within itself, so that both go on alike as long as there is room.
theorem overlaps : ∀ room : Fin 11, ∀ more : Fin room, 0 < more.val →
    indexSuffix.take room = (indexSuffix.take more ++ indexSuffix).take room →
      room.val = 2 ∧ more.val = 1 ∨ room.val = 8 ∧ more.val = 7 := by
  decide

theorem cut_of_indexOf_eq (hb : b.length < 63) (hne : a ≠ b) (hle : a.length ≤ b.length)
    (h : indexOf a = indexOf b) : Clash a b := by
  have ha : a.length < 63 := Nat.lt_of_le_of_lt hle hb
  -- the longer table begins with the shorter one and goes on as its index does
  have hbegins : b = a ++ indexSuffix.take (b.length - a.length) := by
    have htake := congrArg (List.take b.length) h
    rw [indexOf, indexOf, List.take_take, List.take_take, maxIdentifierLength,
      Nat.min_eq_left (Nat.le_of_lt hb), List.take_append, List.take_append,
      List.take_of_length_le hle, List.take_length, Nat.sub_self, List.take_zero,
      List.append_nil] at htake
    exact htake.symm
  generalize hmore : b.length - a.length = more at hbegins
  have hpos : 0 < more := by
    apply Nat.pos_of_ne_zero
    rintro rfl
    rw [List.take_zero, List.append_nil] at hbegins
    exact hne hbegins.symm
  have hlengths := congrArg List.length h
  rw [length_indexOf, length_indexOf] at hlengths
  have hrest : indexSuffix.take (63 - a.length) =
      (indexSuffix.take more ++ indexSuffix).take (63 - a.length) := by
    have hcut : indexOf b =
        a ++ (indexSuffix.take more ++ indexSuffix).take (63 - a.length) := by
      rw [indexOf, hbegins, List.append_assoc, List.take_append, maxIdentifierLength,
        List.take_of_length_le (Nat.le_of_lt ha)]
    rw [indexOf_of_ge (Nat.le_of_lt ha), hcut] at h
    exact List.append_cancel_left h
  have hroom : 63 - a.length < 11 := by omega
  have hwithin : more < 63 - a.length := by omega
  rcases overlaps ⟨_, hroom⟩ ⟨more, hwithin⟩ hpos hrest with ⟨hleft, hone⟩ | ⟨hleft, hseven⟩
  · have hleft : 63 - a.length = 2 := hleft
    obtain rfl : more = 1 := hone
    exact .cut (by omega) (.inl hbegins)
  · have hleft : 63 - a.length = 8 := hleft
    obtain rfl : more = 7 := hseven
    exact .cut (by omega) (.inr hbegins)

theorem Clash.not_nodup (ha : a.length ≤ 63) (hb : b.length ≤ 63) (h : Clash a b) :
    ¬[a, indexOf a, b, indexOf b].Nodup := by
  cases h with
  | table same => simp [same]
  | full long => simp [(indexOf_eq_self_iff ha).mpr long]
  | index named =>
      have hlength : b.length = a.length + 10 := by rw [named, List.length_append]; rfl
      have hindex : indexOf a = b := by rw [named, indexOf_of_le (by omega)]
      simp [hindex]
  | cut long longer =>
      have hindex : indexOf a = indexOf b := by
        rcases longer with rfl | rfl
        · replace long : a.length = 61 := by simpa using long
          rw [indexOf, indexOf, List.append_assoc, List.take_append, List.take_append, long]
          rfl
        · replace long : a.length = 55 := by simpa using long
          rw [indexOf, indexOf, List.append_assoc, List.take_append, List.take_append, long]
          rfl
      simp [hindex]

theorem nodup_iff_not_clash (ha : a.length ≤ 63) (hb : b.length ≤ 63) :
    [a, indexOf a, b, indexOf b].Nodup ↔ ¬Clash a b ∧ ¬Clash b a := by
  have hswap : ([a, indexOf a] ++ [b, indexOf b]).Perm ([b, indexOf b] ++ [a, indexOf a]) :=
    List.perm_append_comm
  constructor
  · intro h
    exact ⟨fun hclash => hclash.not_nodup ha hb h,
      fun hclash => hclash.not_nodup hb ha (hswap.nodup_iff.mp h)⟩
  · rintro ⟨hab, hba⟩
    have hla : a.length < 63 := Nat.lt_of_le_of_ne ha fun h => hab (.full h)
    have hlb : b.length < 63 := Nat.lt_of_le_of_ne hb fun h => hba (.full h)
    have hsame : a ≠ b := fun h => hab (.table h)
    have hown (c : List Char) (hc : c.length < 63) : c ≠ indexOf c := fun h =>
      Nat.ne_of_lt hc ((indexOf_eq_self_iff (Nat.le_of_lt hc)).mp h.symm)
    have hindexes : indexOf a ≠ indexOf b := by
      intro h
      rcases Nat.le_total a.length b.length with hle | hle
      · exact hab (cut_of_indexOf_eq hlb hsame hle h)
      · exact hba (cut_of_indexOf_eq hla hsame.symm hle h.symm)
    simp only [List.nodup_cons, List.mem_cons, List.not_mem_nil, or_false, not_or, not_false_iff,
      List.nodup_nil, and_true]
    exact ⟨⟨hown a hla, hsame, fun h => hba (.index (eq_append_of_indexOf hla h.symm))⟩,
      ⟨fun h => hab (.index (eq_append_of_indexOf hlb h)), hindexes⟩, hown b hlb⟩

end Names

section Texts

variable {name schema table what which : String}

theorem toNat_of_continuesIdentifier {c : Char} (h : continuesIdentifier c = true) :
    c.toNat < 128 := by
  simp only [continuesIdentifier, startsIdentifier, isAsciiLetter, isAsciiDigit, Bool.or_eq_true,
    Bool.and_eq_true, decide_eq_true_eq] at h
  rcases h with (((⟨-, h⟩ | ⟨-, h⟩) | rfl) | ⟨-, h⟩)
  · exact Nat.lt_of_le_of_lt h (by decide)
  · exact Nat.lt_of_le_of_lt h (by decide)
  · decide
  · exact Nat.lt_of_le_of_lt h (by decide)

theorem toNat_toLower {c : Char} (h : c.toNat < 128) : c.toLower.toNat < 128 := by
  have hall : ∀ n < 128, (Char.ofNat n).toLower.toNat < 128 := by decide
  simpa only [Char.ofNat_toNat] using hall c.toNat h

theorem utf8Size_of_ascii {c : Char} (h : c.toNat < 128) : c.utf8Size = 1 :=
  Char.utf8Size_eq_one_iff.mpr (UInt32.le_iff_toNat_le.mpr (Nat.le_of_lt_succ h))

theorem clip_of_ascii {text : List Char} (h : ∀ c ∈ text, c.toNat < 128) (room : Nat) :
    clip room text = text.take room := by
  induction text generalizing room with
  | nil => simp [clip]
  | cons c text ih =>
      obtain ⟨hc, htext⟩ := List.forall_mem_cons.mp h
      cases room with
      | zero => simp [clip, utf8Size_of_ascii hc]
      | succ room => simp [clip, utf8Size_of_ascii hc, ih htext]

theorem length_encode_of_ascii {text : List Char} (h : ∀ c ∈ text, c.toNat < 128) :
    (Utf8.encode text).length = text.length := by
  induction text with
  | nil => rfl
  | cons c text ih =>
      obtain ⟨hc, htext⟩ := List.forall_mem_cons.mp h
      have hone : (Utf8.encodeChar c).length = 1 := by rw [Utf8.encodeChar, if_pos hc]; rfl
      rw [Utf8.encode, List.flatMap_cons, List.length_append, hone, ← Utf8.encode, ih htext,
        List.length_cons, Nat.add_comm]

-- What the check says of a name: its letters are ASCII, none is a blank or a dot, and there is room
-- for all of them.
structure IsPlain (text : List Char) : Prop where
  ascii : ∀ c ∈ text, c.toNat < 128
  blank : ' ' ∉ text
  dot : '.' ∉ text
  short : text.length ≤ maxIdentifierLength

theorem isPlain_of_check (h : checkIdentifier what name = .ok ()) : IsPlain name.toList := by
  unfold checkIdentifier at h
  split at h
  · cases h
  rename_i hgood
  split at h
  · cases h
  rename_i hshort
  have hall : ∀ c ∈ name.toList, continuesIdentifier c = true := by
    rw [Bool.not_eq_true, Bool.not_eq_false'] at hgood
    unfold isIdentifier at hgood
    cases htext : name.toList with
    | nil => simp
    | cons c rest =>
        rw [htext] at hgood
        obtain ⟨hfirst, hrest⟩ := Bool.and_eq_true_iff.mp hgood
        have hc : continuesIdentifier c = true := by rw [continuesIdentifier, hfirst, Bool.true_or]
        exact List.forall_mem_cons.mpr ⟨hc, List.all_eq_true.mp hrest⟩
  have hascii : ∀ c ∈ name.toList, c.toNat < 128 := fun c hc =>
    toNat_of_continuesIdentifier (hall c hc)
  rw [Utf8.ofString, length_encode_of_ascii hascii, Nat.not_lt] at hshort
  exact ⟨hascii, fun hc => absurd (hall _ hc) (by decide), fun hc => absurd (hall _ hc) (by decide),
    hshort⟩

theorem IsPlain.length_folded {text : List Char} (h : IsPlain text) :
    (folded text).length ≤ 63 := by
  rw [folded, List.length_map]
  exact h.short

theorem IsPlain.splitOn_dot {text : List Char} (h : IsPlain text) : text.splitOn '.' = [text] :=
  List.splitOn_eq_singleton h.dot

theorem createdNames_of_not_mem {words : List (List Char)} (h : "EXISTS".toList ∉ words) :
    createdNames words = [] := by
  induction words with
  | nil => rfl
  | cons word words ih =>
      obtain ⟨hne, hnot⟩ := not_or.mp (List.mem_cons.not.mp h)
      rw [createdNames, if_neg (Ne.symm hne), ih hnot]

theorem createdNames_append {before words : List (List Char)} {name : List Char}
    (h : "EXISTS".toList ∉ before) (hname : name ≠ "EXISTS".toList) :
    createdNames (before ++ "EXISTS".toList :: name :: words) = name :: createdNames words := by
  induction before with
  | nil => rw [List.nil_append, createdNames, if_pos rfl, createdNames, if_neg hname]; rfl
  | cons word before ih =>
      obtain ⟨hne, hnot⟩ := not_or.mp (List.mem_cons.not.mp h)
      rw [List.cons_append, createdNames, if_neg (Ne.symm hne), ih hnot]

-- The text of a creation before the name of the table, and then before that of the index.
def beforeTable : List Char := "CREATE UNLOGGED TABLE IF NOT EXISTS ".toList

def beforeIndex : List Char :=
  (" ( id BIGSERIAL PRIMARY KEY, key TEXT NOT NULL UNIQUE, value BYTEA NOT NULL," ++
    " added_at TIMESTAMPTZ NOT NULL DEFAULT NOW() ); CREATE INDEX IF NOT EXISTS ").toList

theorem toList_texts (a b c d e qualified index : String) :
    (a ++ qualified ++ b ++ c ++ index ++ d ++ qualified ++ e).toList =
      a.toList ++ (qualified.toList ++ ((b ++ c).toList ++
        (index.toList ++ (d.toList ++ (qualified.toList ++ e.toList))))) := by
  simp only [String.toList_append, List.append_assoc]

theorem toList_sql_create (schema table : String) :
    (Statement.sql ⟨.create, schema, table⟩).toList =
      beforeTable ++ ((schema ++ "." ++ table).toList ++ (beforeIndex ++
        ((table ++ "__added_at").toList ++ (" ON ".toList ++
          ((schema ++ "." ++ table).toList ++ " (added_at);".toList))))) :=
  toList_texts _ _ _ _ _ _ _

theorem splitOn_texts {first second qualified index : List Char} (hqualified : ' ' ∉ qualified)
    (hindex : ' ' ∉ index) :
    (first ++ [' '] ++ (qualified ++ (' ' :: (second ++ [' ']) ++ (index ++ (" ON ".toList ++
        (qualified ++ " (added_at);".toList)))))).splitOn ' ' =
      first.splitOn ' ' ++ qualified :: (second.splitOn ' ' ++
        [index, "ON".toList, qualified, "(added_at);".toList]) := by
  have hon : " ON ".toList = ' ' :: ("ON".toList ++ [' ']) := by decide
  have hlast : " (added_at);".toList = ' ' :: "(added_at);".toList := by decide
  have hon' : "ON".toList.splitOn ' ' = ["ON".toList] := by decide
  have hlast' : "(added_at);".toList.splitOn ' ' = ["(added_at);".toList] := by decide
  rw [hon, hlast]
  simp only [List.append_assoc, List.cons_append, List.nil_append, List.splitOn_append_cons_self,
    List.splitOn_eq_singleton hqualified, List.splitOn_eq_singleton hindex, hon', hlast']

theorem createdNames_create (hqualified : ' ' ∉ (schema ++ "." ++ table).toList)
    (hindex : ' ' ∉ (table ++ "__added_at").toList) :
    createdNames ((Statement.sql ⟨.create, schema, table⟩).toList.splitOn ' ') =
      [(schema ++ "." ++ table).toList, (table ++ "__added_at").toList] := by
  have htable : beforeTable = "CREATE UNLOGGED TABLE IF NOT EXISTS".toList ++ [' '] := by decide
  have hfirst : "CREATE UNLOGGED TABLE IF NOT EXISTS".toList.splitOn ' ' =
      ["CREATE".toList, "UNLOGGED".toList, "TABLE".toList, "IF".toList, "NOT".toList] ++
        ["EXISTS".toList] := by
    decide
  have hlater : beforeIndex = ' ' :: ((beforeIndex.drop 1).dropLast ++ [' ']) := by decide +kernel
  obtain ⟨inner, hsecond, hinner⟩ :
      ∃ inner, (beforeIndex.drop 1).dropLast.splitOn ' ' = inner ++ ["EXISTS".toList] ∧
        "EXISTS".toList ∉ inner :=
    ⟨((beforeIndex.drop 1).dropLast.splitOn ' ').dropLast, by decide +kernel, by decide +kernel⟩
  -- neither name is the word itself
  have hdot : (schema ++ "." ++ table).toList ≠ "EXISTS".toList := by
    have hmem : '.' ∈ (schema ++ "." ++ table).toList := by simp
    exact fun h => absurd (h ▸ hmem) (by decide)
  have hline : (table ++ "__added_at").toList ≠ "EXISTS".toList := by
    have hmem : '_' ∈ (table ++ "__added_at").toList := by simp
    exact fun h => absurd (h ▸ hmem) (by decide)
  have hnone : createdNames ["ON".toList, (schema ++ "." ++ table).toList, "(added_at);".toList] =
      [] := by
    apply createdNames_of_not_mem
    simp only [List.mem_cons, List.not_mem_nil, or_false, not_or]
    exact ⟨by decide, hdot.symm, by decide⟩
  rw [toList_sql_create, htable, hlater, splitOn_texts hqualified hindex, hfirst, hsecond]
  calc createdNames _
    _ = (schema ++ "." ++ table).toList :: createdNames (inner ++ "EXISTS".toList ::
          (table ++ "__added_at").toList ::
            ["ON".toList, (schema ++ "." ++ table).toList, "(added_at);".toList]) := by
        rw [List.append_assoc, List.append_assoc]
        exact createdNames_append (by decide) hdot
    _ = _ := by rw [createdNames_append hinner hline, hnone]

theorem not_mem_named {c : Char} {text : List Char} (htext : c ∉ text) (hsuffix : c ∉ indexSuffix) :
    c ∉ text ++ indexSuffix :=
  fun h => (List.mem_append.mp h).elim htext hsuffix

-- Two relations for each collection: its table and the index of that.
theorem relations_create (hschema : checkIdentifier what schema = .ok ())
    (htable : checkIdentifier which table = .ok ()) :
    relations (Statement.sql ⟨.create, schema, table⟩) =
      [folded table.toList, indexOf (folded table.toList)] := by
  replace hschema := isPlain_of_check hschema
  replace htable := isPlain_of_check htable
  have hdot : ".".toList = ['.'] := rfl
  have hqualified : (schema ++ "." ++ table).toList = schema.toList ++ '.' :: table.toList := by
    simp only [String.toList_append, hdot, List.append_assoc, List.cons_append, List.nil_append]
  have hindex : (table ++ "__added_at").toList = table.toList ++ indexSuffix := String.toList_append
  have hascii : ∀ c ∈ indexSuffix, c.toNat < 128 := by
    have hall : indexSuffix.all (fun c => c.toNat < 128) = true := by decide
    simpa using hall
  have hnames : createdNames ((Statement.sql ⟨.create, schema, table⟩).toList.splitOn ' ') =
      [(schema ++ "." ++ table).toList, (table ++ "__added_at").toList] := by
    apply createdNames_create
    · rw [hqualified]
      simp [hschema.blank, htable.blank]
    · rw [hindex]
      exact not_mem_named htable.blank (by decide)
  have hfolded {text : List Char} (h : ∀ c ∈ text, c.toNat < 128) :
      ∀ c ∈ folded text, c.toNat < 128 := by
    intro c hc
    obtain ⟨d, hd, rfl⟩ := List.mem_map.mp hc
    exact toNat_toLower (h d hd)
  have hbare : bareName (schema.toList ++ '.' :: table.toList) = table.toList := by
    rw [bareName, List.splitOn_append_cons_self, hschema.splitOn_dot, htable.splitOn_dot]
    rfl
  have hbareIndex : bareName (table.toList ++ indexSuffix) = table.toList ++ indexSuffix := by
    rw [bareName, List.splitOn_eq_singleton]
    · rfl
    · exact not_mem_named htable.dot (by decide)
  have hknown : knownAs table.toList = folded table.toList := by
    rw [knownAs, clip_of_ascii (hfolded htable.ascii)]
    exact List.take_of_length_le htable.length_folded
  have hknownIndex : knownAs (table.toList ++ indexSuffix) = indexOf (folded table.toList) := by
    have hsame : indexSuffix.map Char.toLower = indexSuffix := by decide
    rw [knownAs, clip_of_ascii (hfolded (List.forall_mem_append.mpr ⟨htable.ascii, hascii⟩)),
      indexOf,
      folded, List.map_append, hsame, folded]
  rw [relations, hnames, hqualified, hindex, List.map_cons, List.map_cons, List.map_nil, hbare,
    hbareIndex, hknown, hknownIndex]

end Texts

-- Two collections have four relations exactly if their names, in lower case, do not clash.
theorem relations_nodup_iff {schema n m : String}
    (hschema : checkIdentifier "schema" schema = .ok ())
    (hn : checkIdentifier "collection" n = .ok ()) (hm : checkIdentifier "collection" m = .ok ()) :
    (relations (Statement.sql ⟨.create, schema, n⟩) ++
        relations (Statement.sql ⟨.create, schema, m⟩)).Nodup ↔
      ¬Clash (folded n.toList) (folded m.toList) ∧ ¬Clash (folded m.toList) (folded n.toList) := by
  rw [relations_create hschema hn, relations_create hschema hm]
  exact nodup_iff_not_clash (isPlain_of_check hn).length_folded (isPlain_of_check hm).length_folded

-- As long as there is room for both indexes, a name may go on where the other ends.
theorem capital_users_and_users_underscore_apart :
    checkIdentifier "schema" "public" = .ok () ∧ checkIdentifier "collection" "Users" = .ok () ∧
      checkIdentifier "collection" "users_" = .ok () ∧
      (relations (Statement.sql ⟨.create, "public", "Users"⟩) ++
        relations (Statement.sql ⟨.create, "public", "users_"⟩)).Nodup := by
  refine ⟨rfl, rfl, rfl, (relations_nodup_iff rfl rfl rfl).mpr ⟨?_, ?_⟩⟩
  · decide
  · decide

-- A name that the check lets through fills all the room there is, and the table is
-- not told from its own index.
theorem not_every_pair_apart :
    ¬∀ schema n m : String, checkIdentifier "schema" schema = .ok () →
      checkIdentifier "collection" n = .ok () → checkIdentifier "collection" m = .ok () → n ≠ m →
        (relations (Statement.sql ⟨.create, schema, n⟩) ++
          relations (Statement.sql ⟨.create, schema, m⟩)).Nodup := by
  intro h
  have hpublic : checkIdentifier "schema" "public" = .ok () := rfl
  have hc : checkIdentifier "collection" "c" = .ok () := rfl
  have hlong : checkIdentifier "collection"
      "aaaaaaaaaaaaaaaaaaaaaaaaaaaaaaaaaaaaaaaaaaaaaaaaaaaaaaaaaaaaaaa" = .ok () := rfl
  have hapart := h "public" "c" _ hpublic hc hlong (by decide)
  rw [relations_create hpublic hc, relations_create hpublic hlong] at hapart
  have hfull : Clash (folded
      "aaaaaaaaaaaaaaaaaaaaaaaaaaaaaaaaaaaaaaaaaaaaaaaaaaaaaaaaaaaaaaa".toList)
      (folded "c".toList) :=
    .full (by decide)
  exact hfull.not_nodup (by decide) (by decide)
    ((List.perm_append_comm.nodup_iff).mp hapart)

end PolyCache.Relational
