import PolyCache.Proofs.Json.Document
import PolyCache.Proofs.Json.Layout
import PolyCache.Proofs.Json.Strict

-- What readers make of a document, however it is written. A reader takes those documents that mean
-- something to it and refuses the others.
namespace PolyCache.Json

open Grammar Skip Document

variable {α : Type}

-- Space may stand before the document, and nothing behind it that would belong to a number.
def ReadsAs (read : Reader α) (means : Document → α → Prop) : Prop :=
  ∀ ⦃d text before rest⦄, Writes d text → Space before → EndsNumber rest →
    ∀ {a left}, read (before ++ (text ++ rest)) = .ok (a, left) ↔ means d a ∧ left = rest

section Outcomes

variable {means : Document → α → Prop} {d : Document} {a : α} {rest left : Bytes}

theorem refuses {result : Except Fault (α × Bytes)} {fault : Fault} (hread : result = .error fault)
    (hmeans : ∀ a, ¬means d a) : result = .ok (a, left) ↔ means d a ∧ left = rest := by
  simp [hread, hmeans]

theorem map_eq_ok {β : Type} {result : Except Fault (α × Bytes)} {f : α → β} {b : β} :
    (result.map fun (a, rest) => (f a, rest)) = .ok (b, left) ↔
      ∃ a, f a = b ∧ result = .ok (a, left) := by
  cases result with
  | error fault => simp [Except.map]
  | ok p => simp [Except.map, Prod.ext_iff]

theorem dropSpace_append {space : Bytes} {b : UInt8} (rest : Bytes) (hspace : Space space)
    (hb : ¬IsBlank b) : dropSpace (space ++ b :: rest) = b :: rest := by
  rw [dropSpace, List.dropWhile_append_of_pos fun b hb => isSpace_iff.mpr (hspace b hb)]
  exact dropSpace_cons hb

theorem readsAs_atValue {read : UInt8 → Bytes → Except Fault (α × Bytes)}
    (h : ∀ {d b tail rest}, Writes d (b :: tail) → Begins d b → EndsNumber rest →
      ∀ {a left}, read b (tail ++ rest) = .ok (a, left) ↔ means d a ∧ left = rest) :
    ReadsAs (atValue read) means := by
  intro d text before rest hd hbefore hrest a left
  obtain ⟨b, tail, rfl, hb⟩ := hd.first
  rw [List.cons_append, atValue, dropSpace_append _ hbefore hb.not_blank]
  exact h hd hb hrest

end Outcomes

section Scalars

variable {rest : Bytes}

theorem ne_of_startsNumber {b c : UInt8} (first : b = 0x2D ∨ IsDigit b)
    (hc : ¬(c = 0x2D ∨ IsDigit c)) : b ≠ c := by
  rintro rfl
  exact hc first

def IsString (d : Document) (s : String) : Prop := d = .string (points s)

theorem readsAs_string (expected : String) : ReadsAs (readStringAs expected) IsString :=
  readsAs_atValue fun {d b tail rest} hd hb hrest a left => by
    cases hb with
    | string =>
        cases hd with
        | string characters =>
            rw [if_pos rfl, List.append_assoc]
            exact (readString_eq_ok characters).trans (by simp [IsString])
    | number first => exact refuses (if_neg (ne_of_startsNumber first (by decide))) nofun
    | null | true | false | list | object => exact refuses (if_neg (by decide)) nofun

theorem readLiteral_null : readLiteral nullTail ([0x75, 0x6C, 0x6C] ++ rest) = .ok rest :=
  readLiteral_append nullTail rest

def IsNull (d : Document) (_ : Unit) : Prop := d = .null

theorem readsAs_unit : ReadsAs readUnit IsNull :=
  readsAs_atValue fun {d b tail rest} hd hb hrest a left => by
    cases hb with
    | null =>
        cases hd with
        | null =>
            rw [if_pos rfl, readLiteral_null]
            simp [Except.map, IsNull, eq_comm]
    | number first => exact refuses (if_neg (ne_of_startsNumber first (by decide))) nofun
    | string | true | false | list | object => exact refuses (if_neg (by decide)) nofun

-- Null, or a value that means something by itself.
inductive Optional (means : Document → α → Prop) : Document → Option α → Prop where
  | null : Optional means .null none
  | value {d : Document} {a : α} (present : d ≠ .null) (meant : means d a) :
      Optional means d (some a)

theorem readsAs_option {read : Reader α} {means : Document → α → Prop} (h : ReadsAs read means) :
    ReadsAs (readOption read) (Optional means) :=
  readsAs_atValue fun {d b tail rest} hd hb hrest a left => by
    have hvalue (hnull : b ≠ 0x6E) (hpresent : d ≠ .null) :
        (if b = 0x6E then (readLiteral nullTail (tail ++ rest)).map (none, ·)
          else (read (b :: (tail ++ rest))).map fun (a, rest) => (some a, rest)) = .ok (a, left) ↔
        Optional means d a ∧ left = rest := by
      have hread : ∀ {a left}, read (b :: (tail ++ rest)) = .ok (a, left) ↔
          means d a ∧ left = rest := h hd space_nil hrest
      rw [if_neg hnull, map_eq_ok]
      constructor
      · rintro ⟨a, rfl, ha⟩
        obtain ⟨hmeant, rfl⟩ := hread.mp ha
        exact ⟨.value hpresent hmeant, rfl⟩
      · rintro ⟨hmeant, rfl⟩
        cases hmeant with
        | null => exact absurd rfl hpresent
        | value _ hmeant => exact ⟨_, rfl, hread.mpr ⟨hmeant, rfl⟩⟩
    cases hb with
    | null =>
        cases hd with
        | null =>
            rw [if_pos rfl, readLiteral_null]
            constructor
            · rintro ⟨⟩
              exact ⟨.null, rfl⟩
            · rintro ⟨hmeant, rfl⟩
              cases hmeant with
              | null => rfl
              | value hpresent => exact absurd rfl hpresent
    | number first => exact hvalue (ne_of_startsNumber first (by decide)) nofun
    | string | true | false | list | object => exact hvalue (by decide) nofun

end Scalars

section Sizes

variable {negative : Bool} {digits w f e text rest : Bytes}

-- A number without a sign, a point or an exponent that 64 bits hold.
inductive IsSize : Document → Nat → Prop where
  | digits {digits : Bytes} (whole : Whole digits) (fits : spelled 0 digits < 2 ^ 64) :
      IsSize (.number digits) (spelled 0 digits)

theorem isDigit_of_whole (h : Whole digits) : ∀ b ∈ digits, IsDigit b := by
  cases h with
  | zero => exact List.forall_mem_singleton.mpr (by decide)
  | digits first nonzero more => exact List.forall_mem_cons.mpr ⟨first, more⟩

theorem endsDigits_parts (fraction : Fraction f) (exponent : Exponent e) (hrest : EndsNumber rest) :
    EndsDigits (f ++ (e ++ rest)) := by
  cases fraction with
  | decimals digits => exact endsDigits_cons (by decide)
  | none =>
      cases exponent with
      | none => exact endsDigits_of_endsNumber hrest
      | marked mark sign digits =>
          obtain rfl | rfl := mark <;> exact endsDigits_cons (by decide)

theorem readDigits_real {n : Nat} (hdigits : ∀ b ∈ digits, IsDigit b) (hn : n ≤ maxUnsigned)
    (hlong : maxUnsigned < spelled n digits) :
    ∃ result, readDigits negative n (digits ++ rest) = asReal result := by
  induction digits generalizing n with
  | nil => exact absurd hlong (Nat.not_lt.mpr hn)
  | cons b digits ih =>
      obtain ⟨hb, hmore⟩ := List.forall_mem_cons.mp hdigits
      rw [List.cons_append, readDigits, if_pos (isDigit_iff.mpr hb)]
      dsimp only
      split
      · exact ⟨_, rfl⟩
      · exact ih hmore (Nat.not_lt.mp ‹_›) hlong

-- A fraction, an exponent or too many digits make a number a double.
theorem readUnsigned_real (whole : Whole w) (fraction : Fraction f) (exponent : Exponent e)
    (hrest : EndsNumber rest) (h : ¬(f ++ e = [] ∧ spelled 0 w ≤ maxUnsigned)) :
    ∃ result, readUnsigned negative (w ++ (f ++ (e ++ rest))) = asReal result := by
  by_cases hfits : spelled 0 w ≤ maxUnsigned
  · rw [readUnsigned_whole whole hfits (endsDigits_parts fraction exponent hrest)]
    unfold endWhole
    cases fraction with
    | decimals digits => exact ⟨_, if_pos rfl⟩
    | none =>
        cases exponent with
        | none => exact absurd ⟨rfl, hfits⟩ h
        | marked mark sign digits =>
            refine ⟨_, (if_neg ?_).trans (if_pos (isExponentMark_iff.mpr mark))⟩
            obtain rfl | rfl := mark <;> decide
  · cases whole with
    | zero => exact absurd (Nat.zero_le _) hfits
    | @digits b ds first nonzero more =>
        have hle := digitValue_le first
        have hvalue : spelled 0 (b :: ds) = spelled (digitValue b) ds := by
          rw [spelled_cons, Nat.zero_mul, Nat.zero_add]
        rw [hvalue, Nat.not_le] at hfits
        rw [List.cons_append, readUnsigned.eq_def]
        dsimp only
        rw [if_neg nonzero, if_pos (isDigit_iff.mpr first)]
        exact readDigits_real more (Nat.le_trans hle (by decide)) hfits

variable {n : Int} {left : Bytes}

theorem asReal_ne_integer {result : Except Fault (Binary64 × Bytes)} :
    asReal result ≠ .ok (.integer n, left) := by
  cases result <;> exact nofun

-- Only digits are read as an integer.
theorem readUnsigned_eq_integer (whole : Whole w) (fraction : Fraction f) (exponent : Exponent e)
    (hrest : EndsNumber rest) :
    readUnsigned negative (w ++ (f ++ (e ++ rest))) = .ok (.integer n, left) ↔
      (f ++ e = [] ∧ spelled 0 w ≤ maxUnsigned) ∧
        wholeNumber negative (spelled 0 w) = .integer n ∧ left = rest := by
  by_cases h : f ++ e = [] ∧ spelled 0 w ≤ maxUnsigned
  · obtain ⟨rfl, rfl⟩ := List.append_eq_nil_iff.mp h.1
    rw [List.nil_append, List.nil_append,
      readUnsigned_whole whole h.2 (endsDigits_of_endsNumber hrest), endWhole_of_endsNumber _ hrest]
    simp [h.2, eq_comm]
  · obtain ⟨result, hresult⟩ :
        ∃ result, readUnsigned negative (w ++ (f ++ (e ++ rest))) = asReal result :=
      readUnsigned_real whole fraction exponent hrest h
    rw [hresult]
    exact iff_of_false asReal_ne_integer fun hparts => h hparts.1

theorem wholeNumber_true {m : Nat} (h : wholeNumber true m = .integer n) : n < 0 := by
  unfold wholeNumber at h
  split at h
  · contradiction
  split at h
  · cases h
  · rename_i hm
    obtain rfl := Number.integer.inj h
    simp only [Bool.or_eq_true, decide_eq_true_eq, not_or] at hm
    omega

theorem parts_eq_nil (fraction : Fraction f) (exponent : Exponent e)
    (h : ∀ b ∈ f ++ e, IsDigit b) : f ++ e = [] := by
  cases fraction with
  | decimals digits => exact absurd (h 0x2E List.mem_cons_self) (by decide)
  | none =>
      cases exponent with
      | none => rfl
      | @marked mark _ _ hmark sign digits =>
          have hdigit := h mark List.mem_cons_self
          obtain rfl | rfl := hmark <;> exact absurd hdigit (by decide)

theorem readNumber_eq_size {n : Nat} (h : Grammar.Number text) (hrest : EndsNumber rest) :
    readNumber (text ++ rest) = .ok (.integer n, left) ∧ n < 2 ^ 64 ↔
      IsSize (.number text) n ∧ left = rest := by
  cases h with
  | negative unsigned =>
      obtain ⟨whole, fraction, exponent⟩ := unsigned
      constructor
      · rintro ⟨hread, -⟩
        simp only [List.append_assoc, List.cons_append] at hread
        obtain ⟨-, hvalue, -⟩ :=
          (readUnsigned_eq_integer whole fraction exponent hrest).mp hread
        have hnegative := wholeNumber_true hvalue
        omega
      · rintro ⟨hsize, -⟩
        cases hsize with
        | digits whole => cases whole with
          | digits first => exact absurd first (by decide)
  | positive unsigned =>
      obtain ⟨b, tail, heq, hb⟩ := unsigned.first
      have hminus : b ≠ 0x2D := hb.ne (by decide)
      have hunsigned : readNumber (text ++ rest) = readUnsigned false (text ++ rest) := by
        rw [heq]
        exact if_neg hminus
      rw [hunsigned]
      obtain ⟨whole, fraction, exponent⟩ := unsigned
      rename_i w f e
      have hmax : maxUnsigned = 2 ^ 64 - 1 := rfl
      rw [List.append_assoc, List.append_assoc,
        readUnsigned_eq_integer whole fraction exponent hrest]
      constructor
      · rintro ⟨⟨⟨hnil, hfits⟩, hvalue, rfl⟩, -⟩
        obtain rfl : spelled 0 w = n := Int.ofNat.inj (Number.integer.inj hvalue)
        rw [hnil, List.append_nil]
        exact ⟨.digits whole (by omega), rfl⟩
      · rintro ⟨hsize, rfl⟩
        generalize htext : w ++ (f ++ e) = digits at hsize
        cases hsize with
        | digits hwhole hfits =>
            have hnil : f ++ e = [] := parts_eq_nil fraction exponent fun b hb =>
              isDigit_of_whole hwhole b (htext ▸ List.mem_append_right w hb)
            rw [hnil, List.append_nil] at htext
            subst htext
            exact ⟨⟨⟨hnil, by omega⟩, rfl, rfl⟩, hfits⟩

theorem integerWithin_eq_ok_iff {expected : String} {low high : Int} {number : Number} :
    integerWithin expected low high number rest = .ok (n, left) ↔
      number = .integer n ∧ (low ≤ n ∧ n ≤ high) ∧ left = rest := by
  cases number with
  | real x => simp [integerWithin]
  | integer m =>
      unfold integerWithin
      dsimp only
      split
      · rename_i hm
        simp only [Bool.and_eq_true, decide_eq_true_eq] at hm
        constructor
        · rintro ⟨⟩
          exact ⟨rfl, hm, rfl⟩
        · rintro ⟨⟨⟩, -, rfl⟩
          rfl
      · rename_i hm
        simp only [Bool.and_eq_true, decide_eq_true_eq] at hm
        constructor
        · intro h
          cases h
        · rintro ⟨⟨⟩, hn, -⟩
          exact absurd hn hm

-- Readers of integers have signed ones, whatever their bounds.
def IsUnsigned (d : Document) (n : Int) : Prop := ∃ m : Nat, n = m ∧ IsSize d m

theorem readsAs_unsigned (expected : String) :
    ReadsAs (readIntegerWithin expected 0 (2 ^ 64 - 1)) IsUnsigned :=
  readsAs_atValue fun {d b tail rest} hd hb hrest n left => by
    cases hb with
    | number first =>
        cases hd with
        | number number =>
            have hstarts : startsNumber b = true := by
              simpa [startsNumber, isDigit_iff] using first
            have hread : ∀ {n : Nat} {left}, readNumber (b :: (tail ++ rest)) =
                .ok (.integer n, left) ∧ n < 2 ^ 64 ↔
                  IsSize (.number (b :: tail)) n ∧ left = rest :=
              readNumber_eq_size number hrest
            rw [if_pos hstarts]
            constructor
            · intro h
              split at h
              · cases h
              rename_i hnumber
              obtain ⟨rfl, ⟨hlow, hhigh⟩, rfl⟩ := integerWithin_eq_ok_iff.mp h
              obtain ⟨m, rfl⟩ := Int.eq_ofNat_of_zero_le hlow
              obtain ⟨hsize, rfl⟩ := hread.mp ⟨hnumber, by omega⟩
              exact ⟨⟨m, rfl, hsize⟩, rfl⟩
            · rintro ⟨⟨m, rfl, hsize⟩, rfl⟩
              obtain ⟨hnumber, hfits⟩ := hread.mpr ⟨hsize, rfl⟩
              rw [hnumber]
              exact integerWithin_eq_ok expected (by omega) (by omega)
    | null | true | false | string | list | object =>
        refine refuses (if_neg (by decide)) ?_
        rintro n ⟨m, -, hsize⟩
        cases hsize

end Sizes

section Objects

variable {σ : Type} {first : Bool} {lead space text tail rest left : Bytes} {p : List Point}
  {d : Document} {members : List Member}

-- A text whose first byte is an opening brace is an object.
theorem exists_object (h : Text text) (htext : Utf8.IsText text)
    (hfirst : (dropSpace text).head? = some 0x7B) :
    ∃ members, WritesElement (.object members) text := by
  obtain ⟨d, hd⟩ := exists_element h htext
  cases hd with
  | spaced leading value trailing =>
      obtain ⟨b, tail, rfl, hb⟩ := value.first
      rw [List.cons_append, dropSpace_append _ leading hb.not_blank] at hfirst
      obtain rfl := Option.some.inj hfirst
      cases hb with
      | number first => exact absurd first (by decide)
      | object => exact ⟨_, .spaced leading value trailing⟩

theorem nextMember_lead (tail : Bytes) (hlead : Lead first lead) (hspace : Space space) :
    nextMember first (lead ++ (space ++ 0x22 :: tail)) = .ok (true, 0x22 :: tail) := by
  cases hlead with
  | first blank =>
      have hname := dropSpace_append tail (space_append blank hspace)
        (show ¬IsBlank 0x22 by decide)
      rw [List.append_assoc] at hname
      simp [nextMember, hname]
  | comma leading trailing =>
      rename_i before after
      have hcomma := dropSpace_append (after ++ (space ++ 0x22 :: tail)) leading
        (show ¬IsBlank 0x2C by decide)
      have hname := dropSpace_append tail (space_append trailing hspace)
        (show ¬IsBlank 0x22 by decide)
      rw [List.append_assoc] at hname
      rw [List.append_assoc, List.cons_append]
      simp [nextMember, hcomma, hname]

theorem nextMember_close (hspace : Space space) :
    nextMember first (space ++ 0x7D :: rest) = .ok (false, 0x7D :: rest) := by
  simp [nextMember, dropSpace_append rest hspace (show ¬IsBlank 0x7D by decide)]

theorem readColon_append (hspace : Space space) :
    readColon (space ++ 0x3A :: rest) = .ok rest := by
  simp [readColon, dropSpace_append rest hspace (show ¬IsBlank 0x3A by decide)]

-- The members of an object, one after the other, lead from one state to another.
inductive Leads (step : σ → String → Document → σ → Prop) : σ → List Member → σ → Prop where
  | done {s : σ} : Leads step s [] s
  | member {s s' s'' : σ} {name : String} {d : Document} {members : List Member}
      (stepped : step s name d s') (more : Leads step s' members s'') :
      Leads step s ((points name, d) :: members) s''

-- What is entered under a name takes those documents that lead to another state.
def Enters (enter : σ → String → Except Reason (Reader σ))
    (step : σ → String → Document → σ → Prop) : Prop :=
  ∀ s name, (∃ reason, enter s name = .error reason ∧ ∀ d s', ¬step s name d s') ∨
    ∃ value, enter s name = .ok value ∧ ReadsAs value (step s name)

variable {enter : σ → String → Except Reason (Reader σ)} {step : σ → String → Document → σ → Prop}

-- A member is read as far as the space behind its value.
theorem readMembers_member (henter : Enters enter step) (hm : WritesMember (p, d) text) :
    ∃ space, Space space ∧ ∀ {lead first rest}, Lead first lead → EndsNumber rest →
      ∀ {fuel s s' left},
        readMembers readStringKey enter (fuel + 1) first s (lead ++ (text ++ rest)) =
          .ok (s', left) ↔
        ∃ name middle, p = points name ∧ step s name d middle ∧
          readMembers readStringKey enter fuel false middle (space ++ rest) = .ok (s', left) := by
  cases hm with
  | named leading characters trailing element =>
      obtain ⟨hbefore, value, hafter⟩ := element
      rename_i before name after before' text after'
      refine ⟨after', hafter, ?_⟩
      intro lead first rest hlead hrest fuel s s' left
      have hnext := nextMember_lead
        (name ++ 0x22 :: (after ++ 0x3A :: (before' ++ (text ++ (after' ++ rest))))) hlead leading
      simp only [List.append_assoc, List.cons_append, readMembers, hnext]
      have hkey : ∀ {k left}, readString
          (name ++ 0x22 :: (after ++ 0x3A :: (before' ++ (text ++ (after' ++ rest))))) =
            .ok (k, left) ↔
          p = points k ∧ left = after ++ 0x3A :: (before' ++ (text ++ (after' ++ rest))) :=
        readString_eq_ok characters
      constructor
      · intro h
        split at h
        · cases h
        rename_i k _ hname
        obtain ⟨hp, rfl⟩ := hkey.mp hname
        obtain ⟨reason, hrefused, -⟩ | ⟨read, hentered, hread⟩ := henter s k
        · rw [hrefused] at h
          cases h
        · rw [hentered, readColon_append trailing] at h
          dsimp only at h
          split at h
          · cases h
          rename_i middle _ hvalue
          obtain ⟨hstep, rfl⟩ :=
            (hread value hbefore (endsNumber_space hafter hrest)).mp hvalue
          exact ⟨k, middle, hp, hstep, h⟩
      · rintro ⟨k, middle, hp, hstep, h⟩
        obtain ⟨reason, -, hrefused⟩ | ⟨read, hentered, hread⟩ := henter s k
        · exact absurd hstep (hrefused d middle)
        · have hvalue := (hread value hbefore (endsNumber_space hafter hrest)).mpr ⟨hstep, rfl⟩
          have hname : readStringKey (0x22 :: (name ++ 0x22 :: (after ++ 0x3A ::
              (before' ++ (text ++ (after' ++ rest)))))) = _ := hkey.mpr ⟨hp, rfl⟩
          simp only [hname, hentered, readColon_append trailing, hvalue]
          exact h

theorem length_pos_member {m : Member} (h : WritesMember m text) : 0 < text.length := by
  cases h with
  | named => simp only [List.length_append, List.length_cons]; omega

theorem length_members (h : WritesMembers members text) : members.length ≤ text.length := by
  induction members generalizing text with
  | nil => exact Nat.zero_le _
  | cons m members ih =>
      cases h with
      | last member => exact length_pos_member member
      | more member more =>
          have hmore := ih more
          simp only [List.length_cons, List.length_append]
          omega

theorem leads_cons {s s' : σ} : Leads step s ((p, d) :: members) s' ↔
    ∃ name middle, p = points name ∧ step s name d middle ∧ Leads step middle members s' := by
  constructor
  · intro h
    cases h with
    | member stepped more => exact ⟨_, _, rfl, stepped, more⟩
  · rintro ⟨name, middle, rfl, stepped, more⟩
    exact .member stepped more

theorem leads_nil {s s' : σ} : Leads step s [] s' ↔ s = s' := by
  constructor
  · rintro ⟨⟩
    rfl
  · rintro rfl
    exact .done

theorem readMembers_close (hspace : Space space) {fuel : Nat} {s s' : σ} :
    readMembers readStringKey enter (fuel + 1) first s (space ++ 0x7D :: rest) = .ok (s', left) ↔
      Leads step s [] s' ∧ left = 0x7D :: rest := by
  simp [readMembers, nextMember_close hspace, leads_nil, eq_comm]

-- The members are read up to the brace behind them.
theorem readMembers_members (henter : Enters enter step) (h : WritesMembers members text)
    (hlead : Lead first lead) {fuel : Nat} (hfuel : members.length < fuel) {s s' : σ} :
    readMembers readStringKey enter fuel first s (lead ++ (text ++ 0x7D :: rest)) =
      .ok (s', left) ↔ Leads step s members s' ∧ left = 0x7D :: rest := by
  induction members generalizing text first lead fuel s with
  | nil => cases h
  | cons m members ih =>
      obtain ⟨p, d⟩ := m
      obtain ⟨fuel, rfl⟩ := Nat.exists_eq_succ_of_ne_zero (Nat.ne_zero_of_lt hfuel)
      have hfuel := Nat.lt_of_succ_lt_succ hfuel
      rw [leads_cons]
      cases h with
      | last member =>
          obtain ⟨fuel, rfl⟩ := Nat.exists_eq_succ_of_ne_zero (Nat.ne_zero_of_lt hfuel)
          obtain ⟨space, hspace, hread⟩ := readMembers_member henter member
          have hclose : ∀ {middle}, readMembers readStringKey enter (fuel + 1) false middle
              (space ++ 0x7D :: rest) = .ok (s', left) ↔
                Leads step middle [] s' ∧ left = 0x7D :: rest := readMembers_close hspace
          rw [hread hlead (endsNumber_cons (by decide))]
          simp only [hclose, ← and_assoc, exists_and_right]
      | more member more =>
          obtain ⟨space, hspace, hread⟩ := readMembers_member henter member
          have hcomma {s : σ} := ih (s := s) more (.comma hspace space_nil) hfuel
          simp only [List.append_assoc, List.cons_append, List.nil_append] at hcomma ⊢
          rw [hread hlead (endsNumber_cons (by decide))]
          simp only [hcomma, ← and_assoc, exists_and_right]

-- What stands behind the opening brace of an object.
theorem readAllMembers_eq_ok (henter : Enters enter step)
    (h : Writes (.object members) (0x7B :: tail)) {s s' : σ} :
    readAllMembers readStringKey enter s (tail ++ rest) = .ok (s', left) ↔
      Leads step s members s' ∧ left = 0x7D :: rest := by
  unfold readAllMembers
  cases h with
  | emptyObject blank =>
      rw [List.append_assoc]
      exact readMembers_close blank
  | @object _ text named =>
      have hlength := length_members named
      rw [List.append_assoc]
      show readMembers readStringKey enter _ true s ([] ++ (text ++ 0x7D :: rest)) = _ ↔ _
      refine readMembers_members henter named (.first space_nil) ?_
      simp only [List.length_append]
      omega

theorem inObject_eq_ok_iff {body : Reader α} {p : α → Prop} {bytes : Bytes}
    (h : ∀ {a left}, body bytes = .ok (a, left) ↔ p a ∧ left = 0x7D :: rest) {a : α} :
    inObject body bytes = .ok (a, left) ↔ p a ∧ left = rest := by
  constructor
  · intro hread
    unfold inObject at hread
    split at hread
    · cases hread
    rename_i hbody
    obtain ⟨ha, rfl⟩ := h.mp hbody
    rw [closeObject, dropSpace_cons (by decide)] at hread
    cases hread
    exact ⟨ha, rfl⟩
  · rintro ⟨ha, rfl⟩
    exact inObject_eq_ok (h.mpr ⟨ha, rfl⟩)

end Objects

end PolyCache.Json
