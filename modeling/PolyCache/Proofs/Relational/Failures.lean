import PolyCache.Proofs.Codec
import PolyCache.Proofs.Relational.Reapers

-- What a call that fails leaves behind, whatever fails of it: tables, collections and reapers as
-- they were. Mistakes of the caller are found before anything is sent.
namespace PolyCache.RelationalCache

open Relational

variable {s s' : RelationalCache} {now : Time} {c : Collection} {key : EntryKey} {value : Value}
  {request : Request} {name : String} {h : History} {e : Error}

-- At most the connection is another one, and what has been recorded of it.
structure Spared (s s' : RelationalCache) : Prop where
  rest : s' = { s with link := s'.link }
  server : s'.link.server = s.link.server

theorem Spared.refl (s : RelationalCache) : s.Spared s := ⟨rfl, rfl⟩

theorem run_spared (s : RelationalCache) (now : Time) (verb : Verb) (c : Collection)
    (parameters : List Parameter) (he : (s.run now verb c parameters).1 = .error e) :
    s.Spared (s.run now verb c parameters).2 :=
  ⟨rfl, (Link.handled_run s.link now (s.statement verb c) parameters).failed e he⟩

theorem change_spared {verb : Verb} {parameters : List Parameter}
    (he : (s.change now verb c parameters).answer = .error e) :
    s.Spared (s.change now verb c parameters).state := by
  have hspared (e : Error) : (s.run now verb c parameters).1 = .error e → _ :=
    run_spared s now verb c parameters
  unfold change at he ⊢
  generalize s.run now verb c parameters = ran at he hspared ⊢
  obtain ⟨result, s'⟩ := ran
  cases result with
  | error e' => exact hspared e' rfl
  | ok reply => cases he

theorem set_spared (he : (s.set now key value).answer = .error e) :
    s.Spared (s.set now key value).state := by
  unfold set at he ⊢
  cases hc : s.collections.get key.collection with
  | error e => exact .refl s
  | ok c =>
      rw [hc] at he
      dsimp only at he ⊢
      cases hencode : c.type.encode value with
      | error e => exact .refl s
      | ok bytes =>
          rw [hencode] at he
          exact change_spared he

theorem del_spared (he : (s.del now key).answer = .error e) : s.Spared (s.del now key).state := by
  unfold del at he ⊢
  cases hc : s.collections.get key.collection with
  | error e => exact .refl s
  | ok c =>
      rw [hc] at he
      exact change_spared he

-- A read that finds what it cannot decode has sent its statement, but
-- changes no more than any other.
theorem get_spared (s : RelationalCache) (now : Time) (key : EntryKey) :
    s.Spared (s.get now key).state := by
  unfold get
  cases hc : s.collections.get key.collection with
  | error e => exact .refl s
  | ok c =>
      dsimp only
      have hspared : s.Spared (s.run now .select c [.text key.key, lifetime c]).2 := by
        refine ⟨rfl, ?_⟩
        obtain ⟨-, hfailed, hdone, -⟩ := Link.handled_run s.link now (s.statement .select c)
          [.text key.key, lifetime c]
        cases hresult : (s.link.run now (s.statement .select c) [.text key.key, lifetime c]).1 with
        | error e => exact hfailed e hresult
        | ok reply => exact (hdone reply hresult).1
      generalize s.run now .select c [.text key.key, lifetime c] = ran at hspared ⊢
      obtain ⟨result, s'⟩ := ran
      rcases result with e | (count | (found | row)) <;> exact hspared

theorem ensureVacant_of_checkName (hname : s.checkName c.name = .ok ()) :
    s.collections.ensureVacant c.name = .ok () := by
  unfold checkName at hname
  split at hname
  · cases hname
  · exact hname

-- A name that is vacant before the table is created is so afterwards, so a registration fails
-- before it registers anything.
theorem enroll_spared (he : (s.enroll now c).answer = .error e) :
    s.Spared (s.enroll now c).state := by
  cases hname : s.checkName c.name with
  | error e' =>
      rw [enroll_refused hname]
      exact .refl s
  | ok checked =>
      have hvacant := ensureVacant_of_checkName hname
      obtain ⟨collections, hinsert⟩ :
          ∃ collections, s.collections.insert c.name c = .ok collections :=
        ⟨_, Registry.insert_eq_ok_iff.mpr ⟨hvacant, rfl⟩⟩
      have hfailed := (Link.handled_batch s.link now (s.statement .create c)).failed
      unfold enroll at he ⊢
      rw [hname] at he ⊢
      dsimp only at he ⊢
      generalize s.link.batch now (s.statement .create c) = batched at he hfailed ⊢
      obtain ⟨result, link⟩ := batched
      cases result with
      | error e' => exact ⟨rfl, hfailed e' rfl⟩
      | ok reply =>
          dsimp only at he
          rw [hinsert] at he
          cases he

theorem answer_of_enrolled (ho : (s.enroll now c).answer = .ok none) :
    (s.register now c).answer = .ok none := by
  rw [register_of_ok ho]
  cases c.ttl with
  | none => exact ho
  | some period => rfl

theorem register_spared (he : (s.register now c).answer = .error e) :
    s.Spared (s.register now c).state := by
  rcases enroll_cases s now c with ⟨e', hanswer, -⟩ | ⟨hanswer, -⟩
  · rw [register_of_error hanswer]
    exact enroll_spared hanswer
  · rw [answer_of_enrolled hanswer] at he
    cases he

theorem call_spared (he : (s.call now request).answer = .error e) :
    s.Spared (s.call now request).state := by
  cases request with
  | register c => exact register_spared he
  | set key value => exact set_spared he
  | get key => exact get_spared s now key
  | del key => exact del_spared he
  | close => cases he

end PolyCache.RelationalCache

namespace PolyCache

open Relational

-- What a call is refused for that should not have been made after this history.
inductive History.Mistake (h : History) : Request → Cause → Prop
  | notIdentifier {c : Collection} (bad : isIdentifier c.name = false) :
      Mistake h (.register c) (.notIdentifier "collection" c.name)
  | longIdentifier {c : Collection} (good : isIdentifier c.name = true)
      (long : maxIdentifierLength < (Utf8.ofString c.name).length) :
      Mistake h (.register c) (.longIdentifier "collection" c.name maxIdentifierLength)
  | late {c : Collection} (good : checkIdentifier "collection" c.name = .ok ())
      (closed : ∃ x ∈ h, x.request = .close) : Mistake h (.register c) .closed
  | duplicate {c other : Collection} (good : checkIdentifier "collection" c.name = .ok ())
      (registered : h.Registered other) (same : other.name = c.name) :
      Mistake h (.register c) (.alreadyRegistered c.name)
  | closed {request : Request} {key : EntryKey} (about : request.key? = some key)
      (closed : ∃ x ∈ h, x.request = .close) : Mistake h request .closed
  | unregistered {request : Request} {key : EntryKey} (about : request.key? = some key)
      (opened : ∀ x ∈ h, x.request ≠ .close)
      (unknown : ∀ c, h.Registered c → c.name ≠ key.collection) :
      Mistake h request (.notRegistered key.collection)
  | mistyped {c : Collection} {key : EntryKey} {value : Value} (registered : h.Registered c)
      (named : c.name = key.collection) (other : value.type ≠ c.type) :
      Mistake h (.set key value) (.notStorable value.type c.type)
  | notJson {c : Collection} {key : EntryKey} {json : Bytes} {fault : Json.Fault}
      (registered : h.Registered c) (named : c.name = key.collection) (type : c.type = .object)
      (bad : Json.check json = .error fault) :
      Mistake h (.set key (.object json)) (.notJson json fault)

end PolyCache

namespace PolyCache.RelationalCache

open Relational

variable {s s' : RelationalCache} {now : Time} {c : Collection} {key : EntryKey} {value : Value}
  {request : Request} {name : String} {h : History} {e : Error} {x : Happening}

-- What is registered changes with a registration and with nothing else, until the cache is closed.
theorem happen_collections (s : RelationalCache) (now : Time) (hx : x ≠ .step (.call .close)) :
    (s.happen now x).1.collections = s.collections ∨
      ∃ c, x = .step (.call (.register c)) ∧ (s.register now c).answer = .ok none ∧
        s.collections.insert c.name c = .ok (s.happen now x).1.collections := by
  cases x with
  | step step =>
      cases step with
      | call request =>
          cases request with
          | register c =>
              rcases register_cases s now c with ⟨e, -, hfailed⟩ | ⟨hanswer, hsucceeded⟩
              · exact Or.inl hfailed.collections
              · exact Or.inr ⟨c, rfl, hanswer, hsucceeded.collections⟩
          | set key value => exact Or.inl (set_aside s now key value).collections
          | get key => exact Or.inl (get_aside s now key).collections
          | del key => exact Or.inl (del_aside s now key).collections
          | close => exact absurd rfl hx
      | fire => exact Or.inl (fire_reapers s now).2
      | approve rule => exact Or.inl rfl
  | fail outage => exact Or.inl rfl
  | kill => exact Or.inl rfl

theorem open_lived (hopen : s.collections.entries? ≠ none) (run : List (Time × Happening))
    (hrun : ∀ y ∈ s.transcript run, y.request ≠ .close) :
    (s.lived run).collections.entries? ≠ none := by
  induction run generalizing s with
  | nil => exact hopen
  | cons first run ih =>
      obtain ⟨now, x⟩ := first
      have hx : x ≠ .step (.call .close) := by
        rintro rfl
        exact hrun _ (List.mem_append_left _ (Option.mem_toList.mpr rfl)) rfl
      refine ih ?_ fun y hy => hrun y (List.mem_append_right _ hy)
      rcases happen_collections s now hx with hsame | ⟨c, -, -, hinsert⟩
      · rw [hsame]
        exact hopen
      · intro hclosed
        have hget := Registry.get_insert hinsert c.name
        rw [if_pos rfl, Registry.get, hclosed] at hget
        cases hget

-- A name stays vacant until it is registered.
theorem vacant_lived (hvacant : s.collections.ensureVacant name = .ok ())
    (run : List (Time × Happening))
    (hrun : ∀ y ∈ s.transcript run,
      y.request ≠ .close ∧ ∀ c, y.Registers c → c.name ≠ name) :
    (s.lived run).collections.ensureVacant name = .ok () := by
  induction run generalizing s with
  | nil => exact hvacant
  | cons first run ih =>
      obtain ⟨now, x⟩ := first
      have hfirst (y : Exchange) (hy : s.exchange? now x = some y) :=
        hrun y (List.mem_append_left _ (Option.mem_toList.mpr hy))
      have hx : x ≠ .step (.call .close) := by
        rintro rfl
        exact (hfirst _ rfl).1 rfl
      refine ih ?_ fun y hy => hrun y (List.mem_append_right _ hy)
      rcases happen_collections s now hx with hsame | ⟨c, rfl, hanswer, hinsert⟩
      · rw [hsame]
        exact hvacant
      · have hne : c.name ≠ name := (hfirst _ rfl).2 c ⟨rfl, hanswer⟩
        rw [← hvacant]
        apply Registry.ensureVacant_eq id
        rw [Registry.get_insert hinsert, if_neg hne.symm, Except.map_id]
        rfl

theorem get_of_closed (hs : s.Staffed h) (hclosed : ∃ x ∈ h, x.request = .close) (name : String) :
    s.collections.get name = .error (.usage .closed) := by
  rw [Registry.get, hs.closed hclosed]

-- A request about a key of no collection is refused.
theorem call_of_key (hkey : request.key? = some key)
    (hget : s.collections.get key.collection = .error e) : s.call now request = .refuse s e := by
  cases request with
  | set other value =>
      obtain rfl := Option.some.inj hkey
      show s.set now other value = _
      rw [set, hget]
  | get other =>
      obtain rfl := Option.some.inj hkey
      show s.get now other = _
      rw [get, hget]
  | del other =>
      obtain rfl := Option.some.inj hkey
      show s.del now other = _
      rw [del, hget]
  | _ => cases hkey

theorem set_of_unencoded (hget : s.collections.get key.collection = .ok c)
    (hencode : c.type.encode value = .error e) : s.set now key value = .refuse s e := by
  rw [set, hget]
  dsimp only
  rw [hencode]

-- A mistake is answered at once, and leaves everything as it was, the connection included.
theorem call_of_mistake (hs : s.Staffed h)
    (hopen : (∀ x ∈ h, x.request ≠ .close) → s.collections.entries? ≠ none) {cause : Cause}
    (hm : h.Mistake request cause) : s.call now request = .refuse s (.usage cause) := by
  cases hm with
  | @notIdentifier c bad =>
      apply register_refused
      rw [checkName, checkIdentifier, bad]
      rfl
  | @longIdentifier c good long =>
      apply register_refused
      rw [checkName, checkIdentifier, good, if_neg (by simp), if_pos long]
  | @late c good closed =>
      apply register_refused
      rw [checkName, good]
      show s.collections.ensureVacant c.name = _
      rw [Registry.ensureVacant, hs.closed closed]
  | @duplicate c other good registered same =>
      apply register_refused
      rw [checkName, good]
      have hname : c.name ≠ "" := by
        intro hempty
        rw [hempty] at good
        cases good
      exact Registry.ensureVacant_of_get hname ((hs.registered c.name other).mpr ⟨same, registered⟩)
  | closed about closed => exact call_of_key about (get_of_closed hs closed _)
  | @unregistered request key about opened unknown =>
      refine call_of_key about (Registry.get_of_open (hopen opened) ?_)
      intro c hget
      obtain ⟨hname, hregistered⟩ := (hs.registered _ c).mp hget
      exact unknown c hregistered hname
  | @mistyped c key value registered named other =>
      have hget := (hs.registered key.collection c).mpr ⟨named, registered⟩
      exact set_of_unencoded hget (ValueType.encode_of_mistyped other)
  | @notJson c key json fault registered named type bad =>
      have hget := (hs.registered key.collection c).mpr ⟨named, registered⟩
      refine set_of_unencoded hget ?_
      rw [type, ValueType.encode, ValueType.checkJson, bad]

theorem checkName_usage (he : s.checkName name = .error e) : e.kind = .usage := by
  unfold checkName checkIdentifier at he
  split at he
  · rename_i hbad
    cases he
    split at hbad
    · cases hbad
      rfl
    · split at hbad <;> cases hbad
      rfl
  · unfold Registry.ensureVacant Registry.checkVacant at he
    split at he
    · cases he
      rfl
    · split at he
      · cases he
        rfl
      · split at he <;> cases he
        rfl

-- A registration that the backend failed can be made again: its name has
-- been found good and vacant.
theorem register_again {later : Time} (he : (s.register now c).answer = .error e)
    (hkind : e.kind = .backend) (run : List (Time × Happening))
    (hrun : ∀ y ∈ (s.register now c).state.transcript run,
      y.request ≠ .close ∧ ∀ other, y.Registers other → other.name ≠ c.name)
    (hserved : ((s.register now c).state.lived run).link.outage = .none) :
    (((s.register now c).state.lived run).register later c).answer = .ok none := by
  have hname : s.checkName c.name = .ok () := by
    cases hname : s.checkName c.name with
    | ok checked => rfl
    | error e' =>
        rw [register_refused hname] at he
        obtain rfl := Except.error.inj he
        rw [checkName_usage hname] at hkind
        cases hkind
  have hcollections : (s.register now c).state.collections = s.collections := by
    rw [(register_spared he).rest]
  have hvacant : ((s.register now c).state.lived run).collections.ensureVacant c.name = .ok () := by
    apply vacant_lived _ run hrun
    rw [hcollections]
    exact ensureVacant_of_checkName hname
  have hgood : checkIdentifier "collection" c.name = .ok () := by
    unfold checkName at hname
    split at hname
    · cases hname
    · assumption
  have hname' : ((s.register now c).state.lived run).checkName c.name = .ok () := by
    rw [checkName, hgood]
    exact hvacant
  obtain ⟨-, -, -, hanswer⟩ := enroll_spec hserved later hname'
  exact answer_of_enrolled hanswer

-- Creating a table that exists changes nothing, and one that is new has no rows.
theorem create_tables (s : RelationalCache) (now : Time) (c : Collection) (table : String) :
    (s.link.batch now (s.statement .create c)).2.server.table table =
      s.link.server.table table := by
  obtain ⟨-, hfailed, hdone, -⟩ := Link.handled_batch s.link now (s.statement .create c)
  cases hresult : (s.link.batch now (s.statement .create c)).1 with
  | error e => rw [hfailed e hresult]
  | ok reply =>
      rw [(hdone reply hresult).1]
      exact Server.table_create

theorem enroll_tables (s : RelationalCache) (now : Time) (c : Collection) (table : String) :
    (s.enroll now c).state.link.server.table table = s.link.server.table table := by
  have hcreated := create_tables s now c table
  unfold enroll
  cases s.checkName c.name with
  | error e => rfl
  | ok checked =>
      generalize s.link.batch now (s.statement .create c) = batched at hcreated ⊢
      obtain ⟨result, link⟩ := batched
      cases result with
      | error e => exact hcreated
      | ok reply =>
          dsimp only
          split <;> exact hcreated

-- A sweep leaves other tables alone, and of its own the rows that have not expired.
theorem sweep_tables (s : RelationalCache) (now : Time) (c : Collection) (table : String) :
    (s.sweep now c).1.link.server.table table = s.link.server.table table ∨
      table = s.tableName c.name ∧ (s.sweep now c).1.link.server.table table =
        (s.link.server.table table).filter fun (_, row) =>
          !row.isExpired now c.effectiveTtl.toBinary64 := by
  obtain ⟨-, -, -, -, htables⟩ := sweep_sends s now c
  rw [htables]
  by_cases htable : table = s.tableName c.name
  · rw [if_pos htable]
    cases s.swept now c with
    | error e => exact Or.inl rfl
    | ok reply => exact Or.inr ⟨htable, rfl⟩
  · exact Or.inl (if_neg htable)

-- The first sweep of a reaper, if it may.
theorem startReaper_tables (s : RelationalCache) (now : Time) (c : Collection) (period : Duration)
    (table : String) :
    (s.startReaper now c period).1.link.server.table table = s.link.server.table table ∨
      s.approves c = true ∧ table = s.tableName c.name ∧
        (s.startReaper now c period).1.link.server.table table =
          (s.link.server.table table).filter fun (_, row) =>
            !row.isExpired now c.effectiveTtl.toBinary64 := by
  have happroves := consult_fst s c
  have hserver : (s.consult c).2.link.server = s.link.server := by
    unfold consult
    split <;> rfl
  have hname := (consult_stays s c).tableName c.name
  unfold startReaper
  generalize s.consult c = consulted at happroves hserver hname ⊢
  obtain ⟨approved, s₁⟩ := consulted
  dsimp only at happroves hserver hname ⊢
  cases approved with
  | false =>
      left
      show s₁.link.server.table table = _
      rw [hserver]
  | true =>
      show (s₁.sweep now c).1.link.server.table table = _ ∨ _ ∧ _ ∧
        (s₁.sweep now c).1.link.server.table table = _
      have hswept := sweep_tables s₁ now c table
      rw [hname, hserver] at hswept
      exact hswept.imp_right fun ⟨htable, hrows⟩ => ⟨happroves.symm, htable, hrows⟩

theorem register_tables (ho : (s.register now c).answer = .ok none) (table : String) :
    (s.register now c).state.link.server.table table = s.link.server.table table ∨
      c.ttl ≠ none ∧ s.approves c = true ∧ table = s.tableName c.name ∧
        (s.register now c).state.link.server.table table =
          (s.link.server.table table).filter fun (_, row) =>
            !row.isExpired now c.effectiveTtl.toBinary64 := by
  have henrolled := enroll_tables s now c table
  rcases enroll_cases s now c with ⟨e, hanswer, -⟩ | ⟨hanswer, hstays, -⟩
  · rw [register_of_error hanswer, hanswer] at ho
    cases ho
  · rw [register_of_ok hanswer]
    cases httl : c.ttl with
    | none => exact Or.inl henrolled
    | some period =>
        have hstarted := startReaper_tables (s.enroll now c).state now c period table
        rw [henrolled, hstays.approves, hstays.tableName] at hstarted
        exact hstarted.imp_right fun hswept => ⟨nofun, hswept⟩

-- A call that fails leaves the collections, the reapers and all tables as they were, whatever it
-- was that failed. Mistakes are found before a connection is taken. After a failure of the backend
-- the registration can be made again, and a table that was there before keeps its rows, but for
-- those that the first sweep of the new reaper finds expired.
theorem failed_calls_change_nothing (schema : String) (approve : Option (Collection → Bool))
    (server : Server) (run : List (Time × Happening)) :
    let s := (start schema approve server).lived run
    let h := (start schema approve server).transcript run
    (∀ now request e, (s.call now request).answer = .error e →
      s.Spared (s.call now request).state) ∧
    (∀ now request cause, h.Mistake request cause →
      s.call now request = .refuse s (.usage cause)) ∧
    (∀ now c e, (s.register now c).answer = .error e → e.kind = .backend →
      ∀ later run', (∀ y ∈ (s.register now c).state.transcript run',
        y.request ≠ .close ∧ ∀ other, y.Registers other → other.name ≠ c.name) →
      ((s.register now c).state.lived run').link.outage = .none →
      (((s.register now c).state.lived run').register later c).answer = .ok none) ∧
    ∀ now c, (s.register now c).answer = .ok none → ∀ table,
      (s.enroll now c).state.link.server.table table = s.link.server.table table ∧
      ((s.register now c).state.link.server.table table = s.link.server.table table ∨
        c.ttl ≠ none ∧ s.approves c = true ∧ table = s.tableName c.name ∧
          (s.register now c).state.link.server.table table =
            (s.link.server.table table).filter fun (_, row) =>
              !row.isExpired now c.effectiveTtl.toBinary64) := by
  intro s h
  have hstaffed : s.Staffed h := (staffed_start schema approve server).lived run
  have hopen : (∀ x ∈ h, x.request ≠ .close) → s.collections.entries? ≠ none :=
    open_lived (Option.some_ne_none _) run
  refine ⟨fun now request e => call_spared, ?_, ?_, ?_⟩
  · exact fun now request cause => call_of_mistake hstaffed hopen
  · intro now c e he hkind later run' hrun hserved
    exact register_again he hkind run' hrun hserved
  · intro now c ho table
    exact ⟨enroll_tables s now c table, register_tables ho table⟩

-- While no connection can be had a registration fails, and afterwards it is made again.
theorem registered_after_outage :
    let c : Collection := ⟨"c", some ⟨5⟩, .int64, 0⟩
    let s := (start "public" none .empty).lived [(0, .fail ⟨true, [], []⟩)]
    let failed := s.register 1 c
    failed.answer = .error (.backend .connectionRefused) ∧ s.Spared failed.state ∧
      ((failed.state.lived [(2, .fail .none)]).register 3 c).answer = .ok none := by
  intro c s failed
  obtain ⟨hspared, -, hagain, -⟩ :=
    failed_calls_change_nothing "public" none .empty [(0, .fail ⟨true, [], []⟩)]
  have hanswer : failed.answer = .error (.backend .connectionRefused) := by decide +kernel
  refine ⟨hanswer, hspared 1 (.register c) _ hanswer, ?_⟩
  exact hagain 1 c _ hanswer rfl 3 [(2, .fail .none)] (fun y hy => by cases hy) rfl

-- Rows that were there before the registration and have expired are gone after it.
theorem expired_row_gone_with_registration :
    let c : Collection := ⟨"c", some ⟨5000000000⟩, .int64, 0⟩
    let s := start "public" none ⟨[("public.c", [("old", ⟨some [0], 0⟩)])]⟩
    (s.register 10000000000 c).answer = .ok none ∧
      s.link.server.table? "public.c" = some [("old", ⟨some [0], 0⟩)] ∧
      (s.register 10000000000 c).state.link.server.table? "public.c" = some [] := by
  decide +kernel

end PolyCache.RelationalCache
