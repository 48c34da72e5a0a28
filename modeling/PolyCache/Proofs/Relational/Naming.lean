import PolyCache.Proofs.Relational.Reapers

-- A run over a server that reads the names of tables in its own way goes as the run of the same
-- steps over a server for which each spelling is a name of its own, as long as no two of the
-- collections that come to be registered have the same table.
namespace PolyCache.Relational

-- The server tells these tables apart. One that it refuses because an index has its name
-- is a statement that fails.
def Naming.Apart (naming : Naming) (names : List String) : Prop :=
  ∀ a ∈ names, ∀ b ∈ names, naming.name a = naming.name b → a = b

instance (naming : Naming) (names : List String) : Decidable (naming.Apart names) :=
  inferInstanceAs (Decidable (∀ a ∈ names, ∀ b ∈ names, naming.name a = naming.name b → a = b))

namespace Link

variable {l l' : Link} {server : Server} {schema : String} {names : List String} {c : Connection}
  {statement : Statement}

-- The same link to a server with these tables, for which each spelling is a name of its own.
def spelled (l : Link) (server : Server) : Link := { l with server, naming := .spelled }

@[simp] theorem outage_spelled (l : Link) (server : Server) :
    (l.spelled server).outage = l.outage := rfl

-- A server of the second kind that holds the same rows of some collections.
structure Renders (schema : String) (names : List String) (l : Link) (server : Server) : Prop where
  apart : l.naming.Apart names
  tables : ∀ name ∈ names, server.table (schema ++ "." ++ name) =
    l.server.table (l.naming.name schema ++ "." ++ l.naming.name name)

theorem Renders.of_eq (h : Renders schema names l server) (hserver : l'.server = l.server)
    (hnaming : l'.naming = l.naming) : Renders schema names l' server := by
  constructor
  · rw [hnaming]
    exact h.apart
  · rw [hserver, hnaming]
    exact h.tables

theorem open?_spelled (l : Link) (server : Server) :
    (l.spelled server).open? = (l.open?.1, l.open?.2.spelled server) := by
  unfold open?
  rw [outage_spelled]
  by_cases hrefused : l.outage.connect = true
  · rw [if_pos hrefused, if_pos hrefused]
    rfl
  · rw [if_neg hrefused, if_neg hrefused]
    rfl

theorem acquire_spelled (l : Link) (server : Server) :
    (l.spelled server).acquire = (l.acquire.1, l.acquire.2.spelled server) := by
  have hopen := open?_spelled l server
  unfold acquire
  rw [show (l.spelled server).connection = l.connection from rfl]
  cases l.connection with
  | none => exact hopen
  | some c =>
      dsimp only
      cases c.isAlive with
      | true => rfl
      | false => exact hopen

theorem prepare_spelled (l : Link) (server : Server) (c : Connection) (statement : Statement) :
    (l.spelled server).prepare c statement =
      ((l.prepare c statement).1, (l.prepare c statement).2.spelled server) := by
  unfold prepare record
  by_cases hknown : c.prepared.contains statement = true
  · rw [if_pos hknown, if_pos hknown]
  · rw [if_neg hknown, if_neg hknown]
    dsimp only
    rw [outage_spelled]
    by_cases hfails : l.outage.prepare.contains statement.verb = true
    · rw [if_pos hfails, if_pos hfails]
      rfl
    · rw [if_neg hfails, if_neg hfails]
      rfl

theorem prepare_server (l : Link) (c : Connection) (statement : Statement) :
    (l.prepare c statement).2.server = l.server ∧ (l.prepare c statement).2.naming = l.naming := by
  unfold prepare
  split
  · exact ⟨rfl, rfl⟩
  · dsimp only
    split <;> exact ⟨rfl, rfl⟩

theorem Renders.execute_spelled (h : Renders statement.schema names l server)
    (htable : statement.table ∈ names) (now : Time) (c : Connection)
    (parameters : List Parameter) :
    ∃ server',
      (l.spelled server).execute now c statement parameters =
        ((l.execute now c statement parameters).1,
          (l.execute now c statement parameters).2.spelled server') ∧
      Renders statement.schema names (l.execute now c statement parameters).2 server' := by
  obtain ⟨hreply, htables⟩ :=
    Server.execute_effect now l.server (l.naming.read statement) parameters
  obtain ⟨hreply', htables'⟩ := Server.execute_effect now server statement parameters
  have hsame : server.table statement.qualified =
      l.server.table (l.naming.read statement).qualified := h.tables _ htable
  unfold execute record
  dsimp only
  rw [outage_spelled]
  by_cases hfails : l.outage.execute.contains statement.verb = true
  · rw [if_pos hfails, if_pos hfails]
    exact ⟨server, rfl, h.apart, h.tables⟩
  · rw [if_neg hfails, if_neg hfails]
    refine ⟨(server.execute now statement parameters).1, ?_, h.apart, fun name hname => ?_⟩
    · rw [hreply]
      show (Except.ok (server.execute now statement parameters).2, _) = _
      rw [hreply', hsame]
      rfl
    · have hown : statement.schema ++ "." ++ name = statement.qualified ↔
          l.naming.name statement.schema ++ "." ++ l.naming.name name =
            (l.naming.read statement).qualified := by
        simp only [Statement.qualified, Naming.read, String.append_right_inj]
        exact ⟨congrArg _, h.apart name hname _ htable⟩
      show (server.execute now statement parameters).1.table _ =
        (l.server.execute now (l.naming.read statement) parameters).1.table _
      simp only [htables, htables', hown, hsame, h.tables name hname]
      rfl

theorem Renders.batch_spelled (h : Renders statement.schema names l server)
    (htable : statement.table ∈ names) (now : Time) :
    ∃ server',
      (l.spelled server).batch now statement =
        ((l.batch now statement).1, (l.batch now statement).2.spelled server') ∧
      Renders statement.schema names (l.batch now statement).2 server' := by
  have hacquired : Renders statement.schema names l.acquire.2 server :=
    h.of_eq (acquire_quiet l).server (acquire_quiet l).steady.naming
  unfold batch
  rw [acquire_spelled]
  generalize l.acquire = acquired at hacquired ⊢
  obtain ⟨result, l'⟩ := acquired
  cases result with
  | error e => exact ⟨server, rfl, hacquired⟩
  | ok c => exact hacquired.execute_spelled htable now c []

theorem Renders.run_spelled (h : Renders statement.schema names l server)
    (htable : statement.table ∈ names) (now : Time) (parameters : List Parameter) :
    ∃ server',
      (l.spelled server).run now statement parameters =
        ((l.run now statement parameters).1, (l.run now statement parameters).2.spelled server') ∧
      Renders statement.schema names (l.run now statement parameters).2 server' := by
  have hacquired : Renders statement.schema names l.acquire.2 server :=
    h.of_eq (acquire_quiet l).server (acquire_quiet l).steady.naming
  unfold run
  rw [acquire_spelled]
  generalize l.acquire = acquired at hacquired ⊢
  obtain ⟨result, l'⟩ := acquired
  cases result with
  | error e => exact ⟨server, rfl, hacquired⟩
  | ok c =>
      obtain ⟨hserver, hnaming⟩ := prepare_server l' c statement
      have hprepared := hacquired.of_eq hserver hnaming
      dsimp only
      rw [prepare_spelled]
      generalize l'.prepare c statement = prepared at hprepared ⊢
      obtain ⟨result, l''⟩ := prepared
      cases result with
      | error e => exact ⟨server, rfl, hprepared⟩
      | ok ready => exact hprepared.execute_spelled htable now c parameters

end Link

end PolyCache.Relational

namespace PolyCache.RelationalCache

open Relational

variable {s r : RelationalCache} {server : Server} {names : List String} {c : Collection}
  {q : Reaper} {queue : List Reaper} {key : EntryKey} {now : Time}

-- The second cache is the first one, but over a server for which each spelling is a name of its
-- own. The rows of these collections are the same.
def Mimics (names : List String) (s r : RelationalCache) : Prop :=
  ∃ server, r = { s with link := s.link.spelled server } ∧
    s.link.Renders s.schema names server

theorem Mimics.collections (h : s.Mimics names r) : r.collections = s.collections := by
  obtain ⟨server, rfl, -⟩ := h
  rfl

theorem Mimics.reapers (h : s.Mimics names r) : r.reapers = s.reapers := by
  obtain ⟨server, rfl, -⟩ := h
  rfl

theorem Mimics.rows (h : s.Mimics names r) {name : String} (hname : name ∈ names) :
    r.rows name = s.rows name := by
  obtain ⟨server, rfl, -, htables⟩ := h
  exact htables name hname

theorem Mimics.consult (h : s.Mimics names r) (c : Collection) :
    (r.consult c).1 = (s.consult c).1 ∧ (s.consult c).2.Mimics names (r.consult c).2 := by
  obtain ⟨server, rfl, hrenders⟩ := h
  obtain ⟨schema, approve, collections, reapers, link⟩ := s
  cases approve with
  | none => exact ⟨rfl, server, rfl, hrenders⟩
  | some approve => exact ⟨rfl, server, rfl, hrenders.of_eq rfl rfl⟩

theorem Mimics.run (h : s.Mimics names r) (hc : c.name ∈ names) (now : Time) (verb : Verb)
    (parameters : List Parameter) :
    (r.run now verb c parameters).1 = (s.run now verb c parameters).1 ∧
      (s.run now verb c parameters).2.Mimics names (r.run now verb c parameters).2 := by
  obtain ⟨server, rfl, hrenders⟩ := h
  have hown : s.link.Renders (s.statement verb c).schema names server := hrenders
  obtain ⟨server', hrun, hrenders'⟩ := hown.run_spelled hc now parameters
  unfold RelationalCache.run
  dsimp only
  rw [show ({ s with link := s.link.spelled server } : RelationalCache).statement verb c =
    s.statement verb c from rfl, hrun]
  exact ⟨rfl, server', rfl, hrenders'⟩

theorem Mimics.change (h : s.Mimics names r) (hc : c.name ∈ names) (now : Time) (verb : Verb)
    (parameters : List Parameter) :
    (r.change now verb c parameters).answer = (s.change now verb c parameters).answer ∧
      (s.change now verb c parameters).state.Mimics names
        (r.change now verb c parameters).state := by
  obtain ⟨hsame, hran⟩ := h.run hc now verb parameters
  unfold RelationalCache.change
  generalize s.run now verb c parameters = ran at hsame hran ⊢
  generalize r.run now verb c parameters = ran' at hsame hran ⊢
  obtain ⟨result, s'⟩ := ran
  obtain ⟨result', r'⟩ := ran'
  dsimp only at hsame hran
  rw [hsame]
  cases result <;> exact ⟨rfl, hran⟩

theorem Mimics.sweep (h : s.Mimics names r) (hc : c.name ∈ names) (now : Time) :
    (s.sweep now c).1.Mimics names (r.sweep now c).1 :=
  (h.run hc now .sweep [lifetime c]).2

theorem Mimics.staff (h : s.Mimics names r) (reapers : List Reaper) :
    { s with reapers }.Mimics names { r with reapers } := by
  obtain ⟨server, rfl, hrenders⟩ := h
  exact ⟨server, rfl, hrenders⟩

theorem Mimics.sleep (h : s.Mimics names r) (now : Time) (q : Reaper) :
    (s.sleep now q).Mimics names (r.sleep now q) := by
  unfold RelationalCache.sleep
  rw [h.reapers]
  exact h.staff _

theorem Mimics.startReaper (h : s.Mimics names r) (hc : c.name ∈ names) (now : Time)
    (period : Duration) :
    (s.startReaper now c period).1.Mimics names (r.startReaper now c period).1 := by
  obtain ⟨hsame, hconsulted⟩ := h.consult c
  unfold RelationalCache.startReaper
  generalize s.consult c = consulted at hsame hconsulted ⊢
  generalize r.consult c = consulted' at hsame hconsulted ⊢
  obtain ⟨approved, s₁⟩ := consulted
  obtain ⟨approved', r₁⟩ := consulted'
  dsimp only at hsame hconsulted ⊢
  rw [hsame]
  cases approved with
  | false => exact hconsulted.sleep now (.arm now c period)
  | true => exact (hconsulted.sweep hc now).sleep now (.arm now c period)

theorem Mimics.enroll (h : s.Mimics names r) (hc : s.checkName c.name = .ok () → c.name ∈ names)
    (now : Time) :
    (r.enroll now c).answer = (s.enroll now c).answer ∧
      (s.enroll now c).state.Mimics names (r.enroll now c).state := by
  obtain ⟨server, rfl, hrenders⟩ := h
  cases hname : s.checkName c.name with
  | error e =>
      rw [enroll_refused hname,
        enroll_refused (s := { s with link := s.link.spelled server }) hname]
      exact ⟨rfl, server, rfl, hrenders⟩
  | ok checked =>
      have hown : s.link.Renders (s.statement .create c).schema names server := hrenders
      obtain ⟨server', hbatch, hrenders'⟩ := hown.batch_spelled (hc hname) now
      unfold RelationalCache.enroll
      rw [hname,
        show ({ s with link := s.link.spelled server } : RelationalCache).checkName c.name =
          .ok () from hname]
      dsimp only
      rw [show ({ s with link := s.link.spelled server } : RelationalCache).statement .create c =
        s.statement .create c from rfl, hbatch]
      generalize s.link.batch now (s.statement .create c) = batched at hrenders' ⊢
      obtain ⟨result, link⟩ := batched
      cases result with
      | error e => exact ⟨rfl, server', rfl, hrenders'⟩
      | ok reply =>
          dsimp only
          cases s.collections.insert c.name c <;> exact ⟨rfl, server', rfl, hrenders'⟩

theorem Mimics.register (h : s.Mimics names r)
    (hc : s.checkName c.name = .ok () → c.name ∈ names) (now : Time) :
    (r.register now c).answer = (s.register now c).answer ∧
      (s.register now c).state.Mimics names (r.register now c).state := by
  have htaken (answer : Option Value) (hanswer : (s.enroll now c).answer = .ok answer) :
      c.name ∈ names := by
    cases hname : s.checkName c.name with
    | ok checked => exact hc hname
    | error e =>
        rw [enroll_refused hname] at hanswer
        cases hanswer
  obtain ⟨hanswer, henrolled⟩ := h.enroll hc now
  unfold RelationalCache.register
  generalize s.enroll now c = enrolled at htaken hanswer henrolled ⊢
  generalize r.enroll now c = enrolled' at hanswer henrolled ⊢
  obtain ⟨s', answer, log⟩ := enrolled
  obtain ⟨r', answer', log'⟩ := enrolled'
  dsimp only at htaken hanswer henrolled
  rw [hanswer]
  cases answer with
  | error e => exact ⟨rfl, henrolled⟩
  | ok taken =>
      cases c.ttl with
      | none => exact ⟨rfl, henrolled⟩
      | some period => exact ⟨rfl, henrolled.startReaper (htaken taken rfl) now period⟩

theorem Mimics.set (h : s.Mimics names r)
    (hknown : ∀ name c, s.collections.get name = .ok c → c.name ∈ names) (now : Time)
    (key : EntryKey) (value : Value) :
    (r.set now key value).answer = (s.set now key value).answer ∧
      (s.set now key value).state.Mimics names (r.set now key value).state := by
  unfold RelationalCache.set
  rw [h.collections]
  cases hget : s.collections.get key.collection with
  | error e => exact ⟨rfl, h⟩
  | ok c =>
      dsimp only
      cases c.type.encode value with
      | error e => exact ⟨rfl, h⟩
      | ok bytes => exact h.change (hknown _ c hget) now .upsert _

theorem Mimics.get (h : s.Mimics names r)
    (hknown : ∀ name c, s.collections.get name = .ok c → c.name ∈ names) (now : Time)
    (key : EntryKey) :
    (r.get now key).answer = (s.get now key).answer ∧
      (s.get now key).state.Mimics names (r.get now key).state := by
  unfold RelationalCache.get
  rw [h.collections]
  cases hget : s.collections.get key.collection with
  | error e => exact ⟨rfl, h⟩
  | ok c =>
      obtain ⟨hsame, hran⟩ := h.run (hknown _ c hget) now .select [.text key.key, lifetime c]
      dsimp only
      generalize s.run now .select c [.text key.key, lifetime c] = ran at hsame hran ⊢
      generalize r.run now .select c [.text key.key, lifetime c] = ran' at hsame hran ⊢
      obtain ⟨result, s'⟩ := ran
      obtain ⟨result', r'⟩ := ran'
      dsimp only at hsame hran
      rw [hsame]
      rcases result with e | count | (none | row) <;> exact ⟨rfl, hran⟩

theorem Mimics.del (h : s.Mimics names r)
    (hknown : ∀ name c, s.collections.get name = .ok c → c.name ∈ names) (now : Time)
    (key : EntryKey) :
    (r.del now key).answer = (s.del now key).answer ∧
      (s.del now key).state.Mimics names (r.del now key).state := by
  unfold RelationalCache.del
  rw [h.collections]
  cases hget : s.collections.get key.collection with
  | error e => exact ⟨rfl, h⟩
  | ok c => exact h.change (hknown _ c hget) now .delete _

theorem Mimics.close (h : s.Mimics names r) :
    r.close.answer = s.close.answer ∧ s.close.state.Mimics names r.close.state := by
  obtain ⟨server, rfl, hrenders⟩ := h
  exact ⟨rfl, server, rfl, hrenders⟩

theorem Mimics.wake (h : s.Mimics names r) (now : Time) (queue : List Reaper) (q : Reaper) :
    (r.wake now queue q).1.1 = (s.wake now queue q).1.1 ∧
      (s.wake now queue q).1.2.Mimics names (r.wake now queue q).1.2 := by
  obtain ⟨hsame, hconsulted⟩ := h.consult q.collection
  unfold RelationalCache.wake
  generalize s.consult q.collection = consulted at hsame hconsulted ⊢
  generalize r.consult q.collection = consulted' at hsame hconsulted ⊢
  obtain ⟨approved, s₁⟩ := consulted
  obtain ⟨approved', r₁⟩ := consulted'
  dsimp only at hsame hconsulted ⊢
  rw [hsame]
  cases approved with
  | false => exact ⟨rfl, hconsulted.sleep now q⟩
  | true =>
      cases queue with
      | cons first rest => exact ⟨rfl, hconsulted⟩
      | nil =>
          obtain ⟨server, rfl, hrenders⟩ := hconsulted
          have hacquired : s₁.link.acquire.2.Renders s₁.schema names server :=
            hrenders.of_eq (Link.acquire_quiet s₁.link).server
              (Link.acquire_quiet s₁.link).steady.naming
          have hsame := Link.acquire_spelled s₁.link server
          simp only [hsame]
          generalize s₁.link.acquire = acquired at hacquired ⊢
          obtain ⟨result, link⟩ := acquired
          cases result <;> exact ⟨rfl, server, rfl, hacquired⟩

theorem Mimics.wakeAll (h : s.Mimics names r) (now : Time) (queue woken : List Reaper) :
    (r.wakeAll now queue woken).1.1 = (s.wakeAll now queue woken).1.1 ∧
      (s.wakeAll now queue woken).1.2.Mimics names (r.wakeAll now queue woken).1.2 := by
  induction woken generalizing s r queue with
  | nil => exact ⟨rfl, h⟩
  | cons q woken ih =>
      obtain ⟨hqueue, hwoken⟩ := h.wake now queue q
      rw [wakeAll_cons, wakeAll_cons, hqueue]
      exact ih hwoken _

theorem Mimics.sweepAll (h : s.Mimics names r)
    (hqueue : ∀ q ∈ queue, q.collection.name ∈ names) (now : Time) :
    (s.sweepAll now queue).1.Mimics names (r.sweepAll now queue).1 := by
  induction queue generalizing s r with
  | nil => exact h
  | cons q queue ih =>
      obtain ⟨hq, hrest⟩ := List.forall_mem_cons.mp hqueue
      rw [sweepAll_cons, sweepAll_cons]
      exact ih ((h.sweep hq now).sleep now q) hrest

theorem Mimics.fire (h : s.Mimics names r) (hr : r.IsSound)
    (hknown : ∀ name c, s.collections.get name = .ok c → c.name ∈ names) (now : Time) :
    (s.fire now).1.Mimics names (r.fire now).1 := by
  have hwaiting : (s.asleep now).Mimics names (r.asleep now) := by
    unfold RelationalCache.asleep RelationalCache.waitingReapers
    rw [h.reapers]
    exact h.staff _
  have hdue : r.dueReapers now = s.dueReapers now := by
    unfold RelationalCache.dueReapers
    rw [h.reapers]
  obtain ⟨hqueue, hwoken⟩ := hwaiting.wakeAll now [] (s.dueReapers now)
  rw [fire_eq, fire_eq]
  dsimp only
  rw [hdue, hqueue]
  -- those in the queue are reapers of registered collections
  have hsome : r.Knows (r.waitingReapers now) := fun q hq => hr.reapers q (List.mem_filter.mp hq).1
  have hasleep : r.Unnoticed now (r.asleep now) := unnoticed_reapers hr hsome now
  have hdues : r.Knows (s.dueReapers now) := by
    rw [← hdue]
    exact fun q hq => hr.reapers q (mem_dueReapers.mp hq).1
  obtain ⟨hwake, hknows⟩ :=
    wakeAll_unnoticed hasleep.sound [] (hasleep.knows hdues) (by simp [Knows]) now
  refine hwoken.sweepAll (fun q hq => ?_) now
  rw [← hqueue] at hq
  have hget := hknows q hq
  rw [← hasleep.alike.collections, h.collections] at hget
  exact hknown _ _ hget

theorem Mimics.call (h : s.Mimics names r)
    (hknown : ∀ name c, s.collections.get name = .ok c → c.name ∈ names) (now : Time)
    {request : Request}
    (htaken : ∀ c, request = .register c → s.checkName c.name = .ok () → c.name ∈ names) :
    (r.call now request).answer = (s.call now request).answer ∧
      (s.call now request).state.Mimics names (r.call now request).state := by
  cases request with
  | register c => exact h.register (htaken c rfl) now
  | set key value => exact h.set hknown now key value
  | get key => exact h.get hknown now key
  | del key => exact h.del hknown now key
  | close => exact h.close

-- The names that these calls come to register, as long as no statement fails.
def taken (collections : Registry Collection) : List (Time × Request) → List String
  | [] => []
  | (_, .register c) :: calls =>
    match checkIdentifier "collection" c.name, collections.insert c.name c with
    | .ok (), .ok collections => c.name :: taken collections calls
    | _, _ => taken collections calls
  | (_, .close) :: calls => taken collections.close.1 calls
  | _ :: calls => taken collections calls

theorem taken_refused {e : Error} (hname : s.checkName c.name = .error e)
    (calls : List (Time × Request)) :
    taken s.collections ((now, .register c) :: calls) = taken s.collections calls := by
  unfold checkName at hname
  rw [taken]
  split at hname
  · rename_i hinvalid
    rw [hinvalid]
  · rw [Registry.insert_eq_error_iff.mpr hname]
    cases checkIdentifier "collection" c.name <;> rfl

theorem taken_registered {collections : Registry Collection} (hname : s.checkName c.name = .ok ())
    (hinsert : s.collections.insert c.name c = .ok collections) (calls : List (Time × Request)) :
    taken s.collections ((now, .register c) :: calls) = c.name :: taken collections calls := by
  unfold checkName at hname
  rw [taken]
  split at hname
  · cases hname
  · rename_i hvalid
    rw [hvalid, hinsert]

-- What is registered after a call was so before, or is one of the names that come to be.
theorem taken_call (hr : r.IsSound) (now : Time) (request : Request)
    (calls : List (Time × Request)) :
    (∀ name c, (r.call now request).state.collections.get name = .ok c →
      r.collections.get name = .ok c ∨ name ∈ taken r.collections ((now, request) :: calls)) ∧
    taken (r.call now request).state.collections calls ⊆
      taken r.collections ((now, request) :: calls) := by
  have haside (hregister : ∀ c, request ≠ .register c) (hclose : request ≠ .close) :
      (r.call now request).state.collections = r.collections :=
    (call_aside r now hregister hclose).collections
  cases request with
  | register c =>
      cases hname : r.checkName c.name with
      | error e =>
          rw [taken_refused hname, RelationalCache.call, register_refused hname]
          exact ⟨fun _ _ => Or.inl, fun _ => id⟩
      | ok checked =>
          obtain ⟨collections, created, hinsert, hcreated, -, hstate⟩ :=
            registered_unnoticed hr hname now
          have hcollections : (r.call now (.register c)).state.collections = collections := by
            obtain ⟨link, rfl, -, -⟩ := hcreated
            exact hstate.alike.collections.symm
          rw [taken_registered hname hinsert, hcollections]
          refine ⟨fun name c' hget => ?_, fun _ => List.mem_cons_of_mem _⟩
          rw [Registry.get_insert hinsert] at hget
          split at hget
          · rename_i hn
            rw [hn]
            exact Or.inr List.mem_cons_self
          · exact Or.inl hget
  | set key value =>
      rw [haside nofun nofun]
      exact ⟨fun _ _ => Or.inl, fun _ => id⟩
  | get key =>
      rw [haside nofun nofun]
      exact ⟨fun _ _ => Or.inl, fun _ => id⟩
  | del key =>
      rw [haside nofun nofun]
      exact ⟨fun _ _ => Or.inl, fun _ => id⟩
  | close => exact ⟨fun _ _ => nofun, fun _ => id⟩

theorem Mimics.steps (h : s.Mimics names r) (hr : r.IsSound)
    (hknown : ∀ name c, r.collections.get name = .ok c → name ∈ names)
    {steps : List (Time × Step)} (htaken : taken r.collections (calls steps) ⊆ names) :
    s.answers steps = r.answers steps ∧ (s.after steps).Mimics names (r.after steps) ∧
      ∀ name c, (r.after steps).collections.get name = .ok c → name ∈ names := by
  induction steps generalizing s r with
  | nil => exact ⟨rfl, h, hknown⟩
  | cons first steps ih =>
      have hnamed (name : String) (c : Collection) (hget : s.collections.get name = .ok c) :
          c.name ∈ names := by
        rw [← h.collections] at hget
        rw [hr.named name c hget]
        exact hknown name c hget
      obtain ⟨now, step⟩ := first
      cases step with
      | call request =>
          -- a name that is vacant here comes to be taken
          have hnew (c : Collection) (heq : request = .register c)
              (hname : s.checkName c.name = .ok ()) : c.name ∈ names := by
            rw [checkName, ← h.collections] at hname
            obtain ⟨collections, -, hinsert, -⟩ := registered_unnoticed hr hname now
            apply htaken
            rw [heq]
            exact taken_registered (s := r) hname hinsert _ ▸ List.mem_cons_self
          obtain ⟨hanswer, hcalled⟩ := h.call hnamed now hnew
          obtain ⟨hold, hrest⟩ := taken_call hr now request (RelationalCache.calls steps)
          have hknown' (name : String) (c : Collection)
              (hget : (r.call now request).state.collections.get name = .ok c) : name ∈ names :=
            (hold name c hget).elim (hknown name c) (htaken ·)
          obtain ⟨hanswers, hafter⟩ :=
            ih hcalled (hr.call now request) hknown' fun _ hm => htaken (hrest hm)
          exact ⟨congrArg₂ List.cons hanswer.symm hanswers, hafter⟩
      | fire =>
          obtain ⟨hsound, halike⟩ := fire_unnoticed hr now
          exact ih (h.fire hr hnamed now) hsound (halike.collections ▸ hknown)
            (halike.collections ▸ htaken)
      | approve rule =>
          obtain ⟨hsound, -⟩ := unnoticed_setApproval hr rule now
          obtain ⟨server, rfl, hrenders⟩ := h
          exact ih (s := s.setApproval rule) ⟨server, rfl, hrenders⟩ hsound hknown htaken

-- The tables of a server, each under the spelling of its collection.
def respelled (naming : Naming) (schema : String) (server : Server) : List String → Server
  | [] => .empty
  | name :: names =>
    (respelled naming schema server names).putTable (schema ++ "." ++ name)
      (server.table (naming.name schema ++ "." ++ naming.name name))

theorem table_respelled (naming : Naming) (schema : String) (server : Server) {name : String}
    (hname : name ∈ names) :
    (respelled naming schema server names).table (schema ++ "." ++ name) =
      server.table (naming.name schema ++ "." ++ naming.name name) := by
  induction names with
  | nil => cases hname
  | cons first names ih =>
      rw [respelled, Server.table_putTable]
      simp only [String.append_right_inj]
      split
      · rename_i heq
        rw [heq]
      · rename_i hne
        exact ih ((List.mem_cons.mp hname).resolve_left hne)

theorem ordered_respelled (naming : Naming) (schema : String) (ho : server.Ordered)
    (names : List String) : (respelled naming schema server names).Ordered := by
  induction names with
  | nil => exact Server.ordered_empty
  | cons first names ih =>
      intro name
      rw [respelled, Server.table_putTable]
      split
      · exact ho _
      · exact ih name

theorem mimics_opened (naming : Naming) (schema : String) (approve : Option (Collection → Bool))
    (server : Server) (hapart : naming.Apart names) :
    (opened naming schema approve server).Mimics names
      (start schema approve (respelled naming schema server names)) :=
  ⟨_, rfl, hapart, fun _ hname => table_respelled naming schema server hname⟩

theorem Mimics.row? (h : s.Mimics names r) {name : String} (hname : name ∈ names) (k : String) :
    r.row? name k = s.row? name k := by
  rw [row?_eq, row?_eq, h.rows hname]

-- Whatever the tables held at first, whoever approves of which sweeps and whenever timers fire: if
-- the clock never goes back and the server tells the collections apart, only the calls decide what
-- is answered. And even if the clock does go back, no sweep, be it due or that of a new
-- collection, deletes a row that a read at the same instant sees.
theorem no_reader_notices_sweeps (naming : Naming) (schema : String) (server : Server)
    (ho : server.Ordered) :
    (∀ approve approve' steps steps', IsChronological steps → IsChronological steps' →
      calls steps = calls steps' → naming.Apart (taken .empty (calls steps)) →
      (opened naming schema approve server).answers steps =
        (opened naming schema approve' server).answers steps') ∧
    (∀ approve steps now c k row, naming.Apart (c.name :: taken .empty (calls steps)) →
      let s := (opened naming schema approve server).after steps
      s.link.server.select now (s.tableName c.name) k c.effectiveTtl.toBinary64 = some row →
      (s.register now c).state.row? c.name k = some row ∧
      ((s.collections.get c.name = .ok c ∨ ∃ q ∈ s.reapers, q.collection = c) →
        (s.sweep now c).1.row? c.name k = some row ∧ (s.fire now).1.row? c.name k = some row)) := by
  constructor
  · intro approve approve' steps steps' hclock hclock' hcalls hapart
    generalize hnames : taken .empty (calls steps) = names at hapart
    have hr (approve : Option (Collection → Bool)) :=
      isSound_start schema approve (ordered_respelled naming schema ho names)
    -- both runs are compared with the plain run of an owner who always refuses
    have hplain (approve : Option (Collection → Bool)) (run : List (Time × Step))
        (hclock : IsChronological run) (hcalls : calls run = calls steps) :
        (opened naming schema approve server).answers run =
          (Backend.history (start schema (some fun _ => false)
            (respelled naming schema server names)) (calls steps)).map Exchange.answer := by
      have htaken : taken .empty (calls run) ⊆ names := by
        rw [hcalls, hnames]
        exact fun _ => id
      obtain ⟨hanswers, -⟩ :=
        (mimics_opened naming schema approve server hapart).steps (hr approve) nofun htaken
      rw [hanswers, ← hcalls]
      exact answers_eq_history (alike_start schema approve _ _) (hr approve) (hr _)
        (fun x _ => Nat.zero_le x.1) hclock
    rw [hplain approve steps hclock rfl, hplain approve' steps' hclock' hcalls.symm]
  · intro approve steps now c k row hapart s hselect
    have hr := isSound_start schema approve
      (ordered_respelled naming schema ho (c.name :: taken .empty (calls steps)))
    obtain ⟨-, hm, hknown⟩ := (mimics_opened naming schema approve server hapart).steps hr nofun
      fun _ => List.mem_cons_of_mem c.name
    have hs := hr.after steps
    generalize (start schema approve _).after steps = r at hm hknown hs
    have hname : c.name ∈ c.name :: taken .empty (calls steps) := List.mem_cons_self
    have hrow : visible now c (r.row? c.name k) = some row := by
      rw [hm.row? hname]
      exact hselect
    constructor
    · rw [← (hm.register (fun _ => hname) now).2.row? hname]
      exact row?_register hs now c hrow
    · intro hc
      have hget : r.collections.get c.name = .ok c := by
        rcases hc with hc | ⟨q, hq, rfl⟩
        · rw [hm.collections]
          exact hc
        · rw [← hm.reapers] at hq
          exact hs.reapers q hq
      rw [← (hm.sweep hname now).row? hname, ← (hm.fire hs ?_ now).row? hname]
      · exact ⟨(sweep_unnoticed hs hget now).row?_eq hget hrow,
          (fire_unnoticed hs now).row?_eq hget hrow⟩
      · intro name c' hc'
        rw [← hm.collections] at hc'
        rw [hs.named name c' hc']
        exact hknown name c' hc'

-- A table with a row of each kind, beside another collection. One cache sweeps the table when its
-- collection is registered, another never does: their servers differ from then on, their answers do
-- not.
theorem swept_and_unswept_answer_alike :
    let c : Collection := ⟨"Users", some ⟨10⟩, .int64, 0⟩
    let other : Collection := ⟨"orders", none, .string, 0⟩
    let live : Row := ⟨some [1, 0, 0, 0, 0, 0, 0, 0], 95⟩
    let null : Row := ⟨none, 200⟩
    let expired : Row := ⟨some [2], 3⟩
    let server : Server :=
      ⟨[("public.users", [("expired", expired), ("live", live), ("null", null)])]⟩
    let steps : List (Time × Step) :=
      [(100, .call (.register c)), (100, .call (.register other)), (101, .fire),
        (102, .call (.get (c.entry "live"))), (103, .call (.get (c.entry "null"))),
        (104, .call (.get (c.entry "expired")))]
    let sweeping := opened .folded "public" none server
    let refusing := opened .folded "public" (some fun _ => false) server
    (sweeping.after steps).row? "Users" "expired" ≠ (refusing.after steps).row? "Users" "expired" ∧
      sweeping.answers steps = refusing.answers steps := by
  intro c other live null expired server steps sweeping refusing
  have ho : server.Ordered := by
    intro name
    by_cases hn : name = "public.users"
    · subst hn
      unfold Entries.Sorted
      decide +kernel
    · simp [Server.table, Server.table?, server, Entries.lookup_cons, hn]
  have hclock : IsChronological steps := by
    unfold IsChronological steps
    decide
  have hapart : Naming.Apart .folded (taken .empty (calls steps)) := by
    unfold steps c other
    decide +kernel
  refine ⟨?_, ?_⟩
  · unfold sweeping refusing steps server expired live null c other
    decide +kernel
  · exact (no_reader_notices_sweeps .folded "public" server ho).1 _ _ steps steps hclock hclock
      rfl hapart

-- Names that differ in the case of a letter are one name to a server that folds them. Then rows of
-- the one collection, which live for ever, end with the lifetime of the other.
theorem folded_names_show_sweeps :
    let users : Collection := ⟨"users", some ⟨5⟩, .int64, 0⟩
    let capital : Collection := ⟨"Users", none, .int64, 0⟩
    let steps : List (Time × Step) :=
      [(1, .call (.register capital)), (1, .call (.set (capital.entry "k") (.int64 7))),
        (10, .call (.register users)), (11, .call (.get (capital.entry "k")))]
    IsChronological steps ∧
      (opened .folded "public" none .empty).answers steps =
        [.ok none, .ok none, .ok none, .ok none] ∧
      (opened .folded "public" (some fun _ => false) .empty).answers steps =
        [.ok none, .ok none, .ok none, .ok (some (.int64 7))] := by
  refine ⟨?_, ?_, ?_⟩
  · unfold IsChronological
    decide
  · decide +kernel
  · decide +kernel

end PolyCache.RelationalCache
