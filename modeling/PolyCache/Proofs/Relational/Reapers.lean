import PolyCache.Proofs.Relational.Runs
import PolyCache.Proofs.Relational.Ticks

-- Who has a reaper in a run in which reapers act as soon as they can, with calls that fail,
-- connections that die and an owner who changes his mind.
namespace PolyCache.RelationalCache

open Relational

variable {s s' : RelationalCache} {now : Time} {c : Collection} {name : String} {h : History}
  {q : Reaper}

theorem startReaper_kept (s : RelationalCache) (now : Time) (c : Collection) (period : Duration) :
    s.Stays (s.startReaper now c period).1 ∧
      (s.startReaper now c period).1.reapers = s.reapers ++ [.arm now c period] ∧
      (s.startReaper now c period).1.collections = s.collections := by
  have hstays := consult_stays s c
  obtain ⟨hreapers, hcollections⟩ := consult_kept s c
  unfold startReaper
  generalize s.consult c = consulted at hstays hreapers hcollections ⊢
  obtain ⟨approved, s₁⟩ := consulted
  dsimp only at hstays hreapers hcollections ⊢
  rw [← hreapers, ← hcollections]
  cases approved with
  | false => exact ⟨⟨hstays.schema, hstays.approve, hstays.naming⟩, rfl, rfl⟩
  | true =>
      have hswept := hstays.trans (sweep_stays s₁ now c)
      exact ⟨⟨hswept.schema, hswept.approve, hswept.naming⟩, rfl, rfl⟩

-- No reaper has had a part in this, and there are no more collections and reapers than before.
structure Aside (s s' : RelationalCache) : Prop where
  stays : s.Stays s'
  collections : s'.collections = s.collections
  reapers : s'.reapers = s.reapers
  trace : ∀ name, s'.link.trace name = s.link.trace name

theorem Aside.refl (s : RelationalCache) : s.Aside s := ⟨.refl s, rfl, rfl, fun _ => rfl⟩

-- A collection that is registered, but has no reaper yet.
structure Enrolled (c : Collection) (s s' : RelationalCache) : Prop where
  stays : s.Stays s'
  collections : s.collections.insert c.name c = .ok s'.collections
  reapers : s'.reapers = s.reapers
  trace : ∀ name, s'.link.trace name = s.link.trace name

-- A registration that succeeded: there is a new reaper, if rows have a lifetime.
structure Succeeded (now : Time) (c : Collection) (s s' : RelationalCache) : Prop where
  stays : s.Stays s'
  collections : s.collections.insert c.name c = .ok s'.collections
  reapers : s'.reapers = s.reapers ++ (c.ttl.map fun period => Reaper.arm now c period).toList

theorem create_aside (s : RelationalCache) (now : Time) (c : Collection) :
    s.Aside { s with link := (s.link.batch now (s.statement .create c)).2 } := by
  obtain ⟨hsteady, -, -, events, -, htrace⟩ :=
    Link.handled_batch s.link now (s.statement .create c)
  refine ⟨⟨rfl, rfl, hsteady.naming⟩, rfl, rfl, fun name => ?_⟩
  have hother : (s.statement .create c).reaper? ≠ some name := by
    simp [Statement.reaper?, statement]
  exact (htrace name).trans (by rw [if_neg hother, List.append_nil])

theorem enroll_cases (s : RelationalCache) (now : Time) (c : Collection) :
    (∃ e, (s.enroll now c).answer = .error e ∧ s.Aside (s.enroll now c).state) ∨
      (s.enroll now c).answer = .ok none ∧ Enrolled c s (s.enroll now c).state := by
  unfold enroll
  cases hname : s.checkName c.name with
  | error e => exact Or.inl ⟨e, rfl, .refl s⟩
  | ok checked =>
      have hcreate := create_aside s now c
      generalize s.link.batch now (s.statement .create c) = batched at hcreate ⊢
      obtain ⟨result, link⟩ := batched
      cases result with
      | error e => exact Or.inl ⟨e, rfl, hcreate⟩
      | ok reply =>
          dsimp only
          cases hinsert : s.collections.insert c.name c with
          | error e => exact Or.inl ⟨e, rfl, hcreate⟩
          | ok collections =>
              exact Or.inr ⟨rfl, ⟨rfl, rfl, hcreate.stays.naming⟩, hinsert, rfl, hcreate.trace⟩

theorem register_cases (s : RelationalCache) (now : Time) (c : Collection) :
    (∃ e, (s.register now c).answer = .error e ∧ s.Aside (s.register now c).state) ∨
      (s.register now c).answer = .ok none ∧ Succeeded now c s (s.register now c).state := by
  rcases enroll_cases s now c with ⟨e, hanswer, haside⟩ | ⟨hanswer, henrolled⟩
  · rw [register_of_error hanswer]
    exact Or.inl ⟨e, hanswer, haside⟩
  · right
    rw [register_of_ok hanswer]
    cases httl : c.ttl with
    | none =>
        refine ⟨hanswer, henrolled.stays, henrolled.collections, ?_⟩
        rw [httl, henrolled.reapers]
        exact (List.append_nil _).symm
    | some period =>
        obtain ⟨hkept, hreapers, hcollections⟩ :=
          startReaper_kept (s.enroll now c).state now c period
        refine ⟨rfl, henrolled.stays.trans hkept, ?_, ?_⟩
        · rw [henrolled.collections]
          exact congrArg Except.ok hcollections.symm
        · rw [httl, ← henrolled.reapers]
          exact hreapers

theorem run_aside (s : RelationalCache) (now : Time) (verb : Verb) (hverb : verb ≠ .sweep)
    (c : Collection) (parameters : List Parameter) :
    s.Aside (s.run now verb c parameters).2 := by
  obtain ⟨hsteady, -, -, events, -, htrace⟩ :=
    Link.handled_run s.link now (s.statement verb c) parameters
  refine ⟨⟨rfl, rfl, hsteady.naming⟩, rfl, rfl, fun name => ?_⟩
  have hother : (s.statement verb c).reaper? ≠ some name := by
    simp [Statement.reaper?, statement, hverb]
  exact (htrace name).trans (by rw [if_neg hother, List.append_nil])

theorem change_aside (s : RelationalCache) (now : Time) (verb : Verb) (hverb : verb ≠ .sweep)
    (c : Collection) (parameters : List Parameter) :
    s.Aside (s.change now verb c parameters).state := by
  have haside := run_aside s now verb hverb c parameters
  unfold change
  generalize s.run now verb c parameters = ran at haside ⊢
  obtain ⟨result, s₁⟩ := ran
  cases result <;> exact haside

theorem set_aside (s : RelationalCache) (now : Time) (key : EntryKey) (value : Value) :
    s.Aside (s.set now key value).state := by
  unfold set
  split
  · exact .refl s
  · split
    · exact .refl s
    · exact change_aside s now .upsert nofun _ _

theorem del_aside (s : RelationalCache) (now : Time) (key : EntryKey) :
    s.Aside (s.del now key).state := by
  unfold del
  split
  · exact .refl s
  · exact change_aside s now .delete nofun _ _

theorem get_aside (s : RelationalCache) (now : Time) (key : EntryKey) :
    s.Aside (s.get now key).state := by
  unfold get
  cases s.collections.get key.collection with
  | error e => exact .refl s
  | ok c =>
      dsimp only
      have haside := run_aside s now .select nofun c [.text key.key, lifetime c]
      generalize s.run now .select c [.text key.key, lifetime c] = ran at haside ⊢
      obtain ⟨result, s₁⟩ := ran
      rcases result with e | (count | (found | row)) <;> exact haside

theorem call_aside (s : RelationalCache) (now : Time) {request : Request}
    (hregister : ∀ c, request ≠ .register c) (hclose : request ≠ .close) :
    s.Aside (s.call now request).state := by
  cases request with
  | register c => exact absurd rfl (hregister c)
  | set key value => exact set_aside s now key value
  | get key => exact get_aside s now key
  | del key => exact del_aside s now key
  | close => exact absurd rfl hclose

-- What befalls a cache: a step of a run, other calls that fail from now on,
-- or a connection that dies.
inductive Happening where
  | step (step : Step)
  | fail (outage : Outage)
  | kill

def happen (now : Time) (s : RelationalCache) : Happening → RelationalCache × List LogEvent
  | .step (.call request) => ((s.call now request).state, (s.call now request).log)
  | .step .fire => s.fire now
  | .step (.approve rule) => (s.setApproval rule, [])
  | .fail outage => ({ s with link := { s.link with outage } }, [])
  | .kill => ({ s with link := s.link.kill }, [])

def exchange? (now : Time) (s : RelationalCache) : Happening → Option Exchange
  | .step (.call request) => some ⟨now, request, (s.call now request).answer⟩
  | _ => none

def lived (s : RelationalCache) : List (Time × Happening) → RelationalCache
  | [] => s
  | (now, x) :: run => lived (s.happen now x).1 run

def transcript (s : RelationalCache) : List (Time × Happening) → History
  | [] => []
  | (now, x) :: run => (s.exchange? now x).toList ++ transcript (s.happen now x).1 run

-- The reapers are those of the registered collections whose rows have a lifetime.
structure Staffed (s : RelationalCache) (h : History) : Prop where
  distinct : Distinct s.reapers
  employed : ∀ c, (∃ q ∈ s.reapers, q.collection = c) ↔ h.Registered c ∧ c.ttl ≠ none
  registered : ∀ name c, s.collections.get name = .ok c ↔ c.name = name ∧ h.Registered c
  closed : (∃ x ∈ h, x.request = .close) → s.collections.entries? = none

theorem staffed_opened (naming : Naming) (schema : String) (approve : Option (Collection → Bool))
    (server : Server) : (opened naming schema approve server).Staffed [] where
  distinct := List.nodup_nil
  employed c := by simp [opened, History.Registered]
  registered name c := by simp [opened, History.Registered]
  closed := by simp

theorem staffed_start (schema : String) (approve : Option (Collection → Bool)) (server : Server) :
    (start schema approve server).Staffed [] :=
  staffed_opened .spelled schema approve server

-- Reapers may change places, and be armed anew.
theorem Staffed.same (hs : s.Staffed h) (hcollections : s'.collections = s.collections)
    (hreapers : (s'.reapers.map Reaper.collection).Perm (s.reapers.map Reaper.collection)) :
    s'.Staffed h where
  distinct := hs.distinct.of_collections hreapers
  employed c := by
    rw [← hs.employed]
    simp only [← List.mem_map]
    exact hreapers.mem_iff
  registered := by
    rw [hcollections]
    exact hs.registered
  closed := by
    rw [hcollections]
    exact hs.closed

theorem Staffed.concat {x : Exchange} (hs : s.Staffed h) (hx : ∀ c, ¬ x.Registers c)
    (hclose : x.request ≠ .close) : s.Staffed (h ++ [x]) where
  distinct := hs.distinct
  employed c := by
    rw [hs.employed]
    simp [History.registered_concat, hx, hclose]
  registered name c := by
    rw [hs.registered]
    simp [History.registered_concat, hx, hclose]
  closed hclosed := by
    obtain ⟨y, hy, hreq⟩ := hclosed
    rcases List.mem_append.mp hy with hy | hy
    · exact hs.closed ⟨y, hy, hreq⟩
    · rw [List.mem_singleton.mp hy] at hreq
      exact absurd hreq hclose

theorem Staffed.told {x : Exchange} (hs : s.Staffed h)
    (hcollections : s'.collections = s.collections)
    (hreapers : (s'.reapers.map Reaper.collection).Perm (s.reapers.map Reaper.collection))
    (hx : ∀ c, ¬ x.Registers c) (hclose : x.request ≠ .close) : s'.Staffed (h ++ [x]) :=
  (hs.same hcollections hreapers).concat hx hclose

theorem staffed_closed (hclosed : s.collections.entries? = none) (hgone : s.reapers = [])
    (h : History) (now : Time) : s.Staffed (h ++ [⟨now, .close, .ok none⟩]) where
  distinct := by
    rw [hgone]
    exact List.nodup_nil
  employed c := by simp [hgone, History.registered_concat]
  registered name c := by simp [Registry.get, hclosed, History.registered_concat]
  closed _ := hclosed

theorem Staffed.fire (hs : s.Staffed h) (now : Time) : (s.fire now).1.Staffed h := by
  obtain ⟨hreapers, hcollections⟩ := fire_reapers s now
  have hsame := hreapers.map Reaper.collection
  simp only [List.map_map, Function.comp_def, fired_collection] at hsame
  exact hs.same hcollections hsame

theorem Staffed.isOpen (hs : s.Staffed h) (hvacant : s.collections.ensureVacant name = .ok ()) :
    ∀ x ∈ h, x.request ≠ .close := by
  intro x hx hclose
  have hclosed := hs.closed ⟨x, hx, hclose⟩
  rw [Registry.ensureVacant, hclosed] at hvacant
  cases hvacant

-- No reaper works for a name that is still vacant.
theorem Staffed.vacant (hs : s.Staffed h) (hvacant : s.collections.ensureVacant name = .ok ())
    (hq : q ∈ s.reapers) : q.collection.name ≠ name := by
  intro hname
  have hregistered := ((hs.employed q.collection).mp ⟨q, hq, rfl⟩).1
  have hget := (hs.registered name q.collection).mpr ⟨hname, hregistered⟩
  rw [Registry.get_of_vacant hvacant] at hget
  cases hget

-- A collection is registered, and a reaper is hired for it if its rows have a lifetime.
theorem Staffed.hire (hs : s.Staffed h) (now : Time)
    (hinsert : s.collections.insert c.name c = .ok s'.collections) (hired : Duration → Reaper)
    (hfor : ∀ period, (hired period).collection = c)
    (hreapers : s'.reapers.Perm (s.reapers ++ (c.ttl.map hired).toList)) :
    s'.Staffed (h ++ [⟨now, .register c, .ok none⟩]) := by
  have hvacant := (Registry.insert_eq_ok_iff.mp hinsert).1
  have hopen := hs.isOpen hvacant
  have hregistered (c' : Collection) :
      History.Registered (h ++ [⟨now, .register c, .ok none⟩]) c' ↔ h.Registered c' ∨ c = c' := by
    rw [History.registered_concat, and_iff_left hopen, and_iff_left nofun]
    simp [Exchange.Registers]
  have hmem : ∀ q, q ∈ s'.reapers ↔
      q ∈ s.reapers ∨ ∃ period, c.ttl = some period ∧ hired period = q := by
    simp [hreapers.mem_iff]
  refine ⟨?_, ?_, ?_, ?_⟩
  · refine Distinct.perm ?_ hreapers
    rw [Distinct, List.map_append, List.nodup_append]
    refine ⟨hs.distinct, ?_, ?_⟩
    · cases c.ttl <;> simp
    · intro name hname name' hname'
      obtain ⟨q, hq, rfl⟩ := List.mem_map.mp hname
      obtain ⟨q', hq', rfl⟩ := List.mem_map.mp hname'
      obtain ⟨period, -, rfl⟩ := Option.map_eq_some_iff.mp (Option.mem_toList.mp hq')
      rw [hfor]
      exact hs.vacant hvacant hq
  · intro c'
    simp only [hmem, or_and_right, exists_or, hs.employed, hregistered]
    apply or_congr_right
    constructor
    · rintro ⟨q, ⟨period, httl, rfl⟩, rfl⟩
      rw [hfor]
      exact ⟨rfl, by simp [httl]⟩
    · rintro ⟨rfl, httl⟩
      obtain ⟨period, hperiod⟩ := Option.ne_none_iff_exists'.mp httl
      exact ⟨_, ⟨period, hperiod, rfl⟩, hfor period⟩
  · intro name c'
    rw [Registry.get_insert hinsert, hregistered]
    by_cases hn : name = c.name
    · subst hn
      rw [if_pos rfl, Except.ok.injEq]
      constructor
      · rintro rfl
        exact ⟨rfl, Or.inr rfl⟩
      · rintro ⟨hname, hold | hnew⟩
        · have hget := (hs.registered c.name c').mpr ⟨hname, hold⟩
          rw [Registry.get_of_vacant hvacant] at hget
          cases hget
        · exact hnew
    · rw [if_neg hn, hs.registered]
      constructor
      · exact And.imp_right Or.inl
      · rintro ⟨hname, hold | rfl⟩
        · exact ⟨hname, hold⟩
        · exact absurd hname.symm hn
  · rintro ⟨x, hx, hclose⟩
    rcases List.mem_append.mp hx with hx | hx
    · exact absurd hclose (hopen x hx)
    · rw [List.mem_singleton.mp hx] at hclose
      cases hclose

theorem Staffed.register (hs : s.Staffed h) (now : Time) (c : Collection) :
    (s.register now c).state.Staffed (h ++ [⟨now, .register c, (s.register now c).answer⟩]) := by
  rcases register_cases s now c with ⟨e, hanswer, hfailed⟩ | ⟨hanswer, hsucceeded⟩
  · rw [hanswer]
    refine (hs.same hfailed.collections ?_).concat ?_ nofun
    · rw [hfailed.reapers]
    · rintro c' ⟨-, hok⟩
      cases hok
  · rw [hanswer]
    exact hs.hire now hsucceeded.collections (Reaper.arm now c) (fun _ => rfl)
      (.of_eq hsucceeded.reapers)

theorem Staffed.aside (hs : s.Staffed h) (hs' : s.Aside s') {x : Exchange}
    (hx : ∀ c, x.request ≠ .register c) (hclose : x.request ≠ .close) : s'.Staffed (h ++ [x]) := by
  refine (hs.same hs'.collections ?_).concat (fun c hreg => hx c hreg.1) hclose
  rw [hs'.reapers]

theorem Staffed.untold (hs : s.Staffed h) (hcollections : s'.collections = s.collections)
    (hreapers : s'.reapers = s.reapers) : s'.Staffed (h ++ (none : Option Exchange).toList) := by
  rw [Option.toList_none, List.append_nil]
  apply hs.same hcollections
  rw [hreapers]

theorem Staffed.happen (hs : s.Staffed h) (now : Time) (x : Happening) :
    (s.happen now x).1.Staffed (h ++ (s.exchange? now x).toList) := by
  cases x with
  | step step =>
      cases step with
      | call request =>
          cases request with
          | register c => exact hs.register now c
          | set key value => exact hs.aside (set_aside s now key value) (by simp) (by simp)
          | get key => exact hs.aside (get_aside s now key) (by simp) (by simp)
          | del key => exact hs.aside (del_aside s now key) (by simp) (by simp)
          | close => exact staffed_closed rfl rfl h now
      | fire => exact (hs.fire now).untold rfl rfl
      | approve rule => exact hs.untold rfl rfl
  | fail outage => exact hs.untold rfl rfl
  | kill => exact hs.untold rfl rfl

theorem Staffed.lived (hs : s.Staffed h) (run : List (Time × Happening)) :
    (s.lived run).Staffed (h ++ s.transcript run) := by
  induction run generalizing s h with
  | nil =>
      rw [transcript, List.append_nil]
      exact hs
  | cons first run ih =>
      obtain ⟨now, x⟩ := first
      have hnext := ih (hs.happen now x)
      rw [List.append_assoc] at hnext
      exact hnext

end PolyCache.RelationalCache
