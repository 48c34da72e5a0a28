import Mathlib.Data.List.Nodup
import PolyCache.Config
import PolyCache.Proofs.Json.Meaning

-- Which objects are settings, and what they set. The order of the members, the space between them
-- and the way in which strings are spelled make no difference.
namespace PolyCache.Json

open Grammar Skip Document

variable {p : List Point} {d : Document} {members : List Member} {text tail rest left : Bytes}

section Kinds

variable {kind : CacheKind}

inductive NamesKind : String → CacheKind → Prop where
  | none : NamesKind "none" .none
  | memory : NamesKind "memory" .memory
  | inmem : NamesKind "inmem" .memory

-- A kind is given by its name, or by an object whose only member has that name and the value null.
inductive IsKind : Document → CacheKind → Prop where
  | named {name : String} {kind : CacheKind} (names : NamesKind name kind) :
      IsKind (.string (points name)) kind
  | member {name : String} {kind : CacheKind} (names : NamesKind name kind) :
      IsKind (.object [(points name, .null)]) kind

theorem kindOfName?_eq_some {name : String} :
    kindOfName? name = some kind ↔ NamesKind name kind := by
  constructor
  · intro h
    unfold kindOfName? at h
    split at h
    · rename_i hname
      cases h
      exact hname ▸ .none
    split at h
    · rename_i hname
      cases h
      obtain rfl | rfl : name = "inmem" ∨ name = "memory" := by simpa using hname
      · exact .inmem
      · exact .memory
    · cases h
  · rintro (_ | _ | _) <;> decide

-- The name of a kind, whether it is a value or the name of a member.
def IsKindName (d : Document) (kind : CacheKind) : Prop :=
  ∃ name, IsString d name ∧ NamesKind name kind

theorem readsAs_kindName : ReadsAs readKindName IsKindName := by
  intro d text before rest hd hbefore hrest kind left
  have hread : ∀ {name left}, readStringAs "variant identifier" (before ++ (text ++ rest)) =
      .ok (name, left) ↔ IsString d name ∧ left = rest :=
    readsAs_string "variant identifier" hd hbefore hrest
  unfold readKindName
  constructor
  · intro h
    split at h
    · cases h
    rename_i hname
    obtain ⟨hstring, rfl⟩ := hread.mp hname
    split at h <;> cases h
    rename_i hkind
    exact ⟨⟨_, hstring, kindOfName?_eq_some.mp hkind⟩, rfl⟩
  · rintro ⟨⟨name, hstring, hkind⟩, rfl⟩
    simp only [hread.mpr ⟨hstring, rfl⟩, kindOfName?_eq_some.mpr hkind]

-- Behind the first member stands another one or the end of the object.
theorem readKindObject_member {b : UInt8} (h : WritesMember (p, d) text)
    (hb : b = 0x2C ∨ b = 0x7D) :
    readKindObject (text ++ b :: rest) = .ok (kind, left) ↔
      IsKindName (.string p) kind ∧ d = .null ∧ b = 0x7D ∧ left = rest := by
  cases h with
  | named leading characters trailing element =>
      obtain ⟨hbefore, value, hafter⟩ := element
      rename_i before name after before' text after'
      have hrest : ¬IsBlank b ∧ EndsNumber (b :: rest) := by
        obtain rfl | rfl := hb
        · exact ⟨by decide, endsNumber_cons (by decide)⟩
        · exact ⟨by decide, endsNumber_cons (by decide)⟩
      have hnext := nextMember_lead
        (name ++ 0x22 :: (after ++ 0x3A :: (before' ++ (text ++ (after' ++ b :: rest)))))
        (.first space_nil) leading
      have hcolon : EndsNumber (after ++ 0x3A :: (before' ++ (text ++ (after' ++ b :: rest)))) :=
        endsNumber_space trailing (endsNumber_cons (by decide))
      have hname : ∀ {kind left}, readKindName ([] ++ (0x22 :: (name ++ [0x22]) ++ _)) =
          .ok (kind, left) ↔ IsKindName (.string p) kind ∧ left = _ :=
        readsAs_kindName (.string characters) space_nil hcolon
      have hunit : ∀ {left}, readUnit (before' ++ (text ++ (after' ++ b :: rest))) =
          .ok ((), left) ↔ IsNull d () ∧ left = after' ++ b :: rest :=
        readsAs_unit value hbefore (endsNumber_space hafter hrest.2)
      simp only [List.append_assoc, List.cons_append, List.nil_append] at hnext hname ⊢
      unfold readKindObject
      simp only [hnext]
      constructor
      · intro h
        split at h
        · cases h
        rename_i hread
        obtain ⟨hkind, rfl⟩ := hname.mp hread
        rw [readColon_append trailing] at h
        dsimp only at h
        split at h
        · cases h
        rename_i hvalue
        obtain ⟨hnull, rfl⟩ := hunit.mp hvalue
        rw [dropSpace_append _ hafter hrest.1] at h
        dsimp only at h
        split at h <;> cases h
        exact ⟨hkind, hnull, ‹_›, rfl⟩
      · rintro ⟨hkind, hnull, rfl, rfl⟩
        simp only [hname.mpr ⟨hkind, rfl⟩, readColon_append trailing, hunit.mpr ⟨hnull, rfl⟩,
          dropSpace_append _ hafter hrest.1]
        rfl

theorem isKind_string : IsKind (.string p) kind ↔ IsKindName (.string p) kind := by
  constructor
  · rintro ⟨names⟩
    exact ⟨_, rfl, names⟩
  · rintro ⟨name, ⟨⟩, names⟩
    exact .named names

theorem isKind_member :
    IsKind (.object [(p, d)]) kind ↔ IsKindName (.string p) kind ∧ d = .null := by
  constructor
  · rintro (_ | names)
    exact ⟨⟨_, rfl, names⟩, rfl⟩
  · rintro ⟨⟨name, ⟨⟩, names⟩, rfl⟩
    exact .member names

theorem readKindObject_eq_ok (h : Writes (.object members) (0x7B :: tail)) :
    readKindObject (tail ++ rest) = .ok (kind, left) ↔
      IsKind (.object members) kind ∧ left = rest := by
  cases h with
  | emptyObject blank =>
      rw [List.append_assoc, List.singleton_append, readKindObject, nextMember_close blank]
      exact refuses rfl nofun
  | object named =>
      rw [List.append_assoc, List.singleton_append]
      cases named with
      | @last m _ member =>
          obtain ⟨p, d⟩ := m
          rw [readKindObject_member member (.inr rfl), isKind_member]
          simp [and_assoc]
      | @more m members _ _ member more =>
          obtain ⟨p, d⟩ := m
          rw [List.append_assoc, List.cons_append, readKindObject_member member (.inl rfl)]
          refine iff_of_false (fun h => absurd h.2.2.1 (by decide)) ?_
          rintro ⟨⟨⟩, -⟩
          cases more

theorem readsAs_kind (depth : Nat) : ReadsAs (readKind (depth + 1)) IsKind :=
  readsAs_atValue fun {d b tail rest} hd hb hrest kind left => by
    cases hb with
    | string =>
        rw [if_pos rfl, isKind_string]
        exact readsAs_kindName hd space_nil hrest
    | object =>
        rw [if_neg (by decide), if_pos rfl]
        exact readKindObject_eq_ok hd
    | number first =>
        exact refuses ((if_neg (ne_of_startsNumber first (by decide))).trans
          (if_neg (ne_of_startsNumber first (by decide)))) nofun
    | null | true | false | list =>
        exact refuses ((if_neg (by decide)).trans (if_neg (by decide))) nofun

end Kinds

section Steps

variable {α σ : Type} {c c' : PartialConfig}

theorem readsAs_size : ReadsAs readSize IsSize := by
  intro d text before rest hd hbefore hrest n left
  have hread : ∀ {n : Int}, readIntegerWithin "usize" 0 maxSize (before ++ (text ++ rest)) =
      .ok (n, left) ↔ IsUnsigned d n ∧ left = rest := readsAs_unsigned "usize" hd hbefore hrest
  rw [readSize, map_eq_ok]
  constructor
  · rintro ⟨_, rfl, h⟩
    obtain ⟨⟨m, rfl, hsize⟩, rfl⟩ := hread.mp h
    exact ⟨hsize, rfl⟩
  · rintro ⟨hsize, rfl⟩
    exact ⟨n, rfl, hread.mpr ⟨⟨n, rfl, hsize⟩, rfl⟩⟩

-- A setting is put where none has been put before.
def Put (means : Document → α → Prop) (old : Option α) (d : Document) (new : Option α) : Prop :=
  old = none ∧ ∃ a, means d a ∧ new = some a

-- What a member does to the settings read so far.
def Adds (c : PartialConfig) (name : String) (d : Document) (c' : PartialConfig) : Prop :=
  (name = "kind" ∧ ∃ new, Put IsKind c.kind d new ∧ c' = { c with kind := new }) ∨
  (name = "name" ∧ ∃ new, Put (Optional IsString) c.name d new ∧ c' = { c with name := new }) ∨
  (name = "initial_capacity" ∧
    ∃ new, Put (Optional IsSize) c.initialCapacity d new ∧ c' = { c with initialCapacity := new })

theorem enters_fillOnce {name : String} {old : Option α} {read : Reader α}
    {means : Document → α → Prop} (set : Option α → σ) (step : Document → σ → Prop)
    (hread : ReadsAs read means)
    (hstep : ∀ {d s}, step d s ↔ ∃ new, Put means old d new ∧ s = set new) :
    (∃ reason, fillOnce name old read (fun a => set (some a)) = .error reason ∧
      ∀ d s, ¬step d s) ∨
    ∃ value, fillOnce name old read (fun a => set (some a)) = .ok value ∧ ReadsAs value step := by
  unfold fillOnce
  cases old with
  | some a =>
      refine .inl ⟨_, rfl, fun d s h => ?_⟩
      obtain ⟨_, ⟨hold, -⟩, -⟩ := hstep.mp h
      cases hold
  | none =>
      refine .inr ⟨_, rfl, ?_⟩
      intro d text before rest hd hbefore hrest s left
      rw [hstep]
      refine (map_eq_ok (f := fun a => set (some a))).trans ?_
      constructor
      · rintro ⟨a, rfl, h⟩
        obtain ⟨hmeant, rfl⟩ := (hread hd hbefore hrest).mp h
        exact ⟨⟨_, ⟨rfl, a, hmeant, rfl⟩, rfl⟩, rfl⟩
      · rintro ⟨⟨_, ⟨-, a, hmeant, rfl⟩, rfl⟩, rfl⟩
        exact ⟨a, rfl, (hread hd hbefore hrest).mpr ⟨hmeant, rfl⟩⟩

theorem enters_settings (depth : Nat) : Enters (PartialConfig.enter (depth + 1)) Adds := by
  intro c name
  unfold PartialConfig.enter
  split
  · rename_i hname
    subst hname
    refine enters_fillOnce (fun new => { c with kind := new }) (Adds c "kind")
      (readsAs_kind depth) ?_
    simp [Adds]
  split
  · rename_i hname
    subst hname
    refine enters_fillOnce (fun new => { c with name := new }) (Adds c "name")
      (readsAs_option (readsAs_string "a string")) ?_
    simp [Adds]
  split
  · rename_i hname
    subst hname
    refine enters_fillOnce (fun new => { c with initialCapacity := new })
      (Adds c "initial_capacity") (readsAs_option readsAs_size) ?_
    simp [Adds]
  · rename_i hkind hname hcapacity
    exact .inl ⟨_, rfl, by simp [Adds, hkind, hname, hcapacity]⟩

end Steps

section Fields

variable {α : Type} {means : Document → α → Prop} {old new : Option α} {name : String}
  {ds : List Document}

-- The values of the members with a name.
def given (name : String) (members : List Member) : List Document :=
  (members.filter (·.1 = points name)).map Prod.snd

theorem mem_given : d ∈ given name members ↔ (points name, d) ∈ members := by
  simp only [given, List.mem_map, List.mem_filter, decide_eq_true_eq]
  constructor
  · rintro ⟨⟨p, d⟩, ⟨hm, rfl⟩, rfl⟩
    exact hm
  · exact fun hm => ⟨_, ⟨hm, rfl⟩, rfl⟩

theorem given_cons_self : given name ((points name, d) :: members) = d :: given name members := by
  simp [given]

theorem given_cons_other {other : String} (h : name ≠ other) :
    given other ((points name, d) :: members) = given other members := by
  simp [given, points_inj, h]

theorem length_given :
    (given name members).length = (members.map Prod.fst).count (points name) := by
  rw [given, List.length_map, List.count_eq_countP, List.countP_map, List.countP_eq_length_filter]
  congr 1
  exact List.filter_congr fun m _ => by simp [beq_eq_decide]

-- What the values given for a setting make of it: nothing if there are none, and one is the most.
inductive Field (means : Document → α → Prop) : Option α → List Document → Option α → Prop where
  | kept {old : Option α} : Field means old [] old
  | filled {d : Document} {a : α} (meant : means d a) : Field means none [d] (some a)

theorem field_nil : Field means old [] new ↔ new = old := by
  constructor
  · rintro ⟨⟩
    rfl
  · rintro rfl
    exact .kept

theorem field_cons : Field means old (d :: ds) new ↔
    ∃ middle, Put means old d middle ∧ Field means middle ds new := by
  constructor
  · rintro ⟨⟩
    exact ⟨_, ⟨rfl, _, ‹_›, rfl⟩, .kept⟩
  · rintro ⟨_, ⟨rfl, a, hmeant, rfl⟩, hmore⟩
    cases hmore
    exact .filled hmeant

def Known (m : Member) : Prop := ∃ name ∈ configFields, m.1 = points name

-- What the members of an object make of the settings: each setting depends on its own values only.
theorem leads_iff {c c' : PartialConfig} : Leads Adds c members c' ↔
    (∀ m ∈ members, Known m) ∧ Field IsKind c.kind (given "kind" members) c'.kind ∧
      Field (Optional IsString) c.name (given "name" members) c'.name ∧
      Field (Optional IsSize) c.initialCapacity (given "initial_capacity" members)
        c'.initialCapacity := by
  induction members generalizing c with
  | nil =>
      rw [leads_nil]
      constructor
      · rintro rfl
        exact ⟨List.forall_mem_nil _, .kept, .kept, .kept⟩
      · rintro ⟨-, hkind, hname, hcapacity⟩
        obtain ⟨kind, name, capacity⟩ := c'
        obtain rfl := field_nil.mp hkind
        obtain rfl := field_nil.mp hname
        obtain rfl := field_nil.mp hcapacity
        rfl
  | cons m members ih =>
      obtain ⟨p, d⟩ := m
      rw [leads_cons, List.forall_mem_cons]
      constructor
      · rintro ⟨name, middle, rfl, hadds, hmore⟩
        obtain ⟨hknown, hkind, hname, hcapacity⟩ := ih.mp hmore
        obtain ⟨rfl, new, put, rfl⟩ | ⟨rfl, new, put, rfl⟩ | ⟨rfl, new, put, rfl⟩ := hadds
        · refine ⟨⟨⟨_, by decide, rfl⟩, hknown⟩, ?_, ?_, ?_⟩
          · rw [given_cons_self, field_cons]
            exact ⟨_, put, hkind⟩
          · rwa [given_cons_other (by decide)]
          · rwa [given_cons_other (by decide)]
        · refine ⟨⟨⟨_, by decide, rfl⟩, hknown⟩, ?_, ?_, ?_⟩
          · rwa [given_cons_other (by decide)]
          · rw [given_cons_self, field_cons]
            exact ⟨_, put, hname⟩
          · rwa [given_cons_other (by decide)]
        · refine ⟨⟨⟨_, by decide, rfl⟩, hknown⟩, ?_, ?_, ?_⟩
          · rwa [given_cons_other (by decide)]
          · rwa [given_cons_other (by decide)]
          · rw [given_cons_self, field_cons]
            exact ⟨_, put, hcapacity⟩
      · rintro ⟨⟨⟨name, hname', rfl⟩, hknown⟩, hkind, hname, hcapacity⟩
        obtain rfl | rfl | rfl : name = "kind" ∨ name = "name" ∨ name = "initial_capacity" := by
          simpa [configFields] using hname'
        · rw [given_cons_self, field_cons] at hkind
          rw [given_cons_other (by decide)] at hname hcapacity
          obtain ⟨new, put, hkind⟩ := hkind
          exact ⟨_, { c with kind := new }, rfl, .inl ⟨rfl, new, put, rfl⟩,
            ih.mpr ⟨hknown, hkind, hname, hcapacity⟩⟩
        · rw [given_cons_self, field_cons] at hname
          rw [given_cons_other (by decide)] at hkind hcapacity
          obtain ⟨new, put, hname⟩ := hname
          exact ⟨_, { c with name := new }, rfl, .inr (.inl ⟨rfl, new, put, rfl⟩),
            ih.mpr ⟨hknown, hkind, hname, hcapacity⟩⟩
        · rw [given_cons_self, field_cons] at hcapacity
          rw [given_cons_other (by decide)] at hkind hname
          obtain ⟨new, put, hcapacity⟩ := hcapacity
          exact ⟨_, { c with initialCapacity := new }, rfl, .inr (.inr ⟨rfl, new, put, rfl⟩),
            ih.mpr ⟨hknown, hkind, hname, hcapacity⟩⟩

end Fields

section Settings

variable {α : Type} {means : Document → α → Prop} {name : String} {bytes : Bytes} {c : Config}

theorem readConfigMembers_eq_ok (depth : Nat) (h : Writes (.object members) (0x7B :: tail)) :
    readConfigMembers (depth + 1) (tail ++ rest) = .ok (c, left) ↔
      (∃ settings : PartialConfig, settings.complete = c ∧
        Leads Adds ⟨none, none, none⟩ members settings) ∧ left = 0x7D :: rest := by
  have hread : ∀ {settings left}, readAllMembers readStringKey (PartialConfig.enter (depth + 1))
      ⟨none, none, none⟩ (tail ++ rest) = .ok (settings, left) ↔
        Leads Adds ⟨none, none, none⟩ members settings ∧ left = 0x7D :: rest :=
    readAllMembers_eq_ok (enters_settings depth) h
  rw [readConfigMembers, map_eq_ok]
  simp only [hread, ← and_assoc, exists_and_right]

theorem parseConfig_eq_ok (h : WritesElement (.object members) bytes) :
    parseConfig bytes = .ok c ↔ ∃ settings : PartialConfig, settings.complete = c ∧
      Leads Adds ⟨none, none, none⟩ members settings := by
  cases h with
  | @spaced _ before text after leading value trailing =>
      obtain ⟨b, tail, rfl, ⟨⟩⟩ := value.first
      have hread : ∀ {c left}, inObject (readConfigMembers 126) (tail ++ after) = .ok (c, left) ↔
          (∃ settings : PartialConfig, settings.complete = c ∧
            Leads Adds ⟨none, none, none⟩ members settings) ∧ left = after :=
        inObject_eq_ok_iff (readConfigMembers_eq_ok 125 value)
      have hconfig : readConfig maxDepth (before ++ (0x7B :: tail ++ after)) =
          inObject (readConfigMembers 126) (tail ++ after) := by
        rw [List.cons_append, readConfig, readRecord, atValue,
          dropSpace_append _ leading (by decide)]
        rfl
      rw [parseConfig, readWhole, hconfig]
      constructor
      · intro hparse
        split at hparse
        · cases hparse
        rename_i hok
        obtain ⟨hc, rfl⟩ := hread.mp hok
        rw [finish_eq_ok_iff.mpr trailing] at hparse
        cases hparse
        exact hc
      · intro hc
        rw [hread.mpr ⟨hc, rfl⟩]
        dsimp only
        rw [finish_eq_ok_iff.mpr trailing]
        rfl

-- Each member is a setting, given once, with a value that means something for it.
structure IsAcceptable (members : List Member) : Prop where
  known : ∀ m ∈ members, Known m
  once : (members.map Prod.fst).Nodup
  kind : ∀ d, (points "kind", d) ∈ members → ∃ kind, IsKind d kind
  name : ∀ d, (points "name", d) ∈ members → ∃ name, Optional IsString d name
  initialCapacity : ∀ d, (points "initial_capacity", d) ∈ members → ∃ n, Optional IsSize d n

-- A setting has the value that is given for it, or its default.
structure Holds (means : Document → α → Prop) (default : α) (name : String) (members : List Member)
    (a : α) : Prop where
  present : ∀ d, (points name, d) ∈ members → means d a
  absent : (∀ d, (points name, d) ∉ members) → a = default

structure Describes (members : List Member) (c : Config) : Prop where
  kind : Holds IsKind Config.default.kind "kind" members c.kind
  name : Holds (Optional IsString) Config.default.name "name" members c.name
  initialCapacity :
    Holds (Optional IsSize) Config.default.initialCapacity "initial_capacity" members
      c.initialCapacity

section Values

variable {new : Option α} {a default : α}

theorem given_cases (once : (members.map Prod.fst).Nodup) (name : String) :
    given name members = [] ∨ ∃ d, given name members = [d] ∧ (points name, d) ∈ members := by
  have hlength := List.nodup_iff_count_le_one.mp once (points name)
  rw [← length_given] at hlength
  cases hgiven : given name members with
  | nil => exact .inl rfl
  | cons d ds =>
      rw [hgiven, List.length_cons] at hlength
      obtain rfl := List.eq_nil_of_length_eq_zero (show ds.length = 0 by omega)
      exact .inr ⟨d, rfl, mem_given.mp (hgiven ▸ List.mem_cons_self)⟩

theorem exists_field (once : (members.map Prod.fst).Nodup)
    (h : ∀ d, (points name, d) ∈ members → ∃ a, means d a) :
    ∃ new, Field means none (given name members) new := by
  obtain hnil | ⟨d, hone, hd⟩ := given_cases once name
  · rw [hnil]
    exact ⟨none, .kept⟩
  · obtain ⟨a, ha⟩ := h d hd
    rw [hone]
    exact ⟨some a, .filled ha⟩

theorem field_of_holds (once : (members.map Prod.fst).Nodup)
    (h : Holds means default name members a) :
    ∃ new, Field means none (given name members) new ∧ new.getD default = a := by
  obtain hnil | ⟨d, hone, hd⟩ := given_cases once name
  · have habsent : ∀ d, (points name, d) ∉ members := by simp [← mem_given, hnil]
    rw [hnil]
    exact ⟨none, .kept, (h.absent habsent).symm⟩
  · rw [hone]
    exact ⟨some a, .filled (h.present d hd), rfl⟩

variable (h : Field means none (given name members) new)
include h

theorem length_of_field : (given name members).length ≤ 1 := by
  generalize given name members = ds at h
  cases h with
  | kept => exact Nat.zero_le 1
  | filled => exact Nat.le_refl 1

theorem holds_of_field : Holds means default name members (new.getD default) := by
  constructor
  · intro d hd
    rw [← mem_given] at hd
    generalize given name members = ds at h hd
    cases h with
    | kept => cases hd
    | filled meant =>
        obtain rfl := List.mem_singleton.mp hd
        exact meant
  · intro habsent
    have hnil : given name members = [] :=
      List.eq_nil_iff_forall_not_mem.mpr fun d hd => habsent d (mem_given.mp hd)
    rw [hnil] at h
    cases h
    rfl

end Values

theorem once_of_given (hknown : ∀ m ∈ members, Known m)
    (h : ∀ name ∈ configFields, (given name members).length ≤ 1) :
    (members.map Prod.fst).Nodup := by
  rw [List.nodup_iff_count_le_one]
  intro p
  by_cases hp : p ∈ members.map Prod.fst
  · obtain ⟨m, hm, rfl⟩ := List.mem_map.mp hp
    obtain ⟨name, hname, heq⟩ := hknown m hm
    rw [heq, ← length_given]
    exact h name hname
  · rw [List.count_eq_zero_of_not_mem hp]
    exact Nat.zero_le 1

theorem acceptable_of_leads {settings : PartialConfig}
    (h : Leads Adds ⟨none, none, none⟩ members settings) :
    IsAcceptable members ∧ Describes members settings.complete := by
  obtain ⟨hknown, hkind, hname, hcapacity⟩ := leads_iff.mp h
  have hdescribes : Describes members settings.complete :=
    ⟨holds_of_field hkind, holds_of_field hname, holds_of_field hcapacity⟩
  have honce : (members.map Prod.fst).Nodup := by
    refine once_of_given hknown ?_
    simp only [configFields, List.forall_mem_cons]
    exact ⟨length_of_field hkind, length_of_field hname, length_of_field hcapacity,
      List.forall_mem_nil _⟩
  exact ⟨⟨hknown, honce, fun d hd => ⟨_, hdescribes.kind.present d hd⟩,
    fun d hd => ⟨_, hdescribes.name.present d hd⟩,
    fun d hd => ⟨_, hdescribes.initialCapacity.present d hd⟩⟩, hdescribes⟩

theorem leads_of_acceptable (h : IsAcceptable members) :
    ∃ settings, Leads Adds ⟨none, none, none⟩ members settings := by
  obtain ⟨kind, hkind⟩ := exists_field h.once h.kind
  obtain ⟨name, hname⟩ := exists_field h.once h.name
  obtain ⟨capacity, hcapacity⟩ := exists_field h.once h.initialCapacity
  exact ⟨⟨kind, name, capacity⟩, leads_iff.mpr ⟨h.known, hkind, hname, hcapacity⟩⟩

theorem leads_of_describes (h : IsAcceptable members) (hdescribes : Describes members c) :
    ∃ settings : PartialConfig, settings.complete = c ∧
      Leads Adds ⟨none, none, none⟩ members settings := by
  obtain ⟨kind, hkind, hk⟩ := field_of_holds h.once hdescribes.kind
  obtain ⟨name, hname, hn⟩ := field_of_holds h.once hdescribes.name
  obtain ⟨capacity, hcapacity, hc⟩ := field_of_holds h.once hdescribes.initialCapacity
  refine ⟨⟨kind, name, capacity⟩, ?_, leads_iff.mpr ⟨h.known, hkind, hname, hcapacity⟩⟩
  obtain ⟨_, _, _⟩ := c
  subst hk hn hc
  rfl

theorem parseConfig_iff (h : WritesElement (.object members) bytes) :
    parseConfig bytes = .ok c ↔ IsAcceptable members ∧ Describes members c := by
  rw [parseConfig_eq_ok h]
  constructor
  · rintro ⟨settings, rfl, hleads⟩
    exact acceptable_of_leads hleads
  · rintro ⟨hacceptable, hdescribes⟩
    exact leads_of_describes hacceptable hdescribes

section Orders

variable {members' : List Member} (hperm : members'.Perm members)
include hperm

theorem IsAcceptable.perm (h : IsAcceptable members) : IsAcceptable members' where
  known m hm := h.known m (hperm.mem_iff.mp hm)
  once := (hperm.map Prod.fst).nodup_iff.mpr h.once
  kind d hd := h.kind d (hperm.mem_iff.mp hd)
  name d hd := h.name d (hperm.mem_iff.mp hd)
  initialCapacity d hd := h.initialCapacity d (hperm.mem_iff.mp hd)

theorem Holds.perm {a default : α} (h : Holds means default name members a) :
    Holds means default name members' a where
  present d hd := h.present d (hperm.mem_iff.mp hd)
  absent habsent := h.absent fun d hd => habsent d (hperm.mem_iff.mpr hd)

theorem Describes.perm (h : Describes members c) : Describes members' c :=
  ⟨h.kind.perm hperm, h.name.perm hperm, h.initialCapacity.perm hperm⟩

end Orders

-- An object is read as settings if each of its members is one, given once, and as what they say. It
-- may be written in another way, with its members in another order, and is read as the same.
theorem objects_are_read_as_settings (text : String) (htext : Text (Utf8.ofString text))
    (hobject : (dropSpace (Utf8.ofString text)).head? = some 0x7B) :
    (∃ members, WritesElement (.object members) (Utf8.ofString text)) ∧
      ∀ members, WritesElement (.object members) (Utf8.ofString text) →
        ((∃ c, parseConfig (Utf8.ofString text) = .ok c) ↔ IsAcceptable members) ∧
        (∀ c, parseConfig (Utf8.ofString text) = .ok c ↔
          IsAcceptable members ∧ Describes members c) ∧
        ∀ members' bytes, members'.Perm members → WritesElement (.object members') bytes →
          ∀ c, parseConfig bytes = .ok c ↔ parseConfig (Utf8.ofString text) = .ok c := by
  refine ⟨exists_object htext ⟨text.toList, rfl⟩ hobject, fun members hwrites => ⟨⟨?_, ?_⟩, ?_, ?_⟩⟩
  · rintro ⟨c, hc⟩
    exact ((parseConfig_iff hwrites).mp hc).1
  · intro hacceptable
    obtain ⟨settings, hleads⟩ := leads_of_acceptable hacceptable
    exact ⟨_, (parseConfig_eq_ok hwrites).mpr ⟨settings, rfl, hleads⟩⟩
  · exact fun c => parseConfig_iff hwrites
  · intro members' bytes hperm hwrites' c
    rw [parseConfig_iff hwrites, parseConfig_iff hwrites']
    constructor
    · rintro ⟨hacceptable, hdescribes⟩
      exact ⟨hacceptable.perm hperm.symm, hdescribes.perm hperm.symm⟩
    · rintro ⟨hacceptable, hdescribes⟩
      exact ⟨hacceptable.perm hperm, hdescribes.perm hperm⟩

-- A letter of a name is escaped, the kind is an object, and the number is the greatest one.
def escapedSettings : String :=
  " \x7b \"initial_capacity\" : 18446744073709551615,\"\\u006bind\":\x7b\"inmem\" : null\x7d\x7d"

theorem escaped_settings_are_read :
    ∃ members, WritesElement (.object members) (Utf8.ofString escapedSettings) ∧
      IsAcceptable members ∧ Describes members ⟨.memory, none, some (2 ^ 64 - 1)⟩ := by
  have htext : Text (Utf8.ofString escapedSettings) := check_eq_ok_iff.mp (by decide +kernel)
  have hparse : parseConfig (Utf8.ofString escapedSettings) =
      .ok ⟨.memory, none, some (2 ^ 64 - 1)⟩ := by decide +kernel
  obtain ⟨⟨members, hwrites⟩, hread⟩ :=
    objects_are_read_as_settings escapedSettings htext (by decide +kernel)
  exact ⟨members, hwrites, ((hread members hwrites).2.1 _).mp hparse⟩

end Settings

end PolyCache.Json
