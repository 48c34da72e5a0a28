import PolyCache.Relational.Link

-- What a statement leaves on its way to the server, whatever fails: nothing of it if no connection
-- can be had, and one execution at most. While nothing fails it is executed and gets its reply.
namespace PolyCache.Relational

variable {l l' l'' : Link} {now : Time} {statement : Statement} {parameters : List Parameter}
  {name : String} {e : Error} {c : Connection}

-- The collection for whose reaper a statement is sent.
def Statement.reaper? (s : Statement) : Option String :=
  if s.verb = .sweep then some s.table else none

-- The collection whose reaper is at work.
def Event.reaper? : Event → Option String
  | .consulted c _ => some c.name
  | .prepared statement _ => statement.reaper?
  | .executed statement _ _ => statement.reaper?
  | .connected _ => none
  | .refused => none

namespace Link

-- What has been recorded of the work of one collection's reaper.
def trace (l : Link) (name : String) : List Event := l.events.filter (·.reaper? == some name)

theorem trace_record (event : Event) :
    (l.record event).trace name =
      l.trace name ++ if event.reaper? = some name then [event] else [] := by
  unfold trace record
  rw [List.filter_append]
  congr 1
  by_cases h : event.reaper? = some name <;> simp [h]

def isConnected (l : Link) : Bool := l.connection.any (·.isAlive)

-- What stands in the way of a statement. No connection is needed where there is one.
def obstacles (l : Link) : Outage := { l.outage with connect := l.outage.connect && !l.isConnected }

-- What a statement changes of neither: how names are read, and what fails.
structure Steady (l l' : Link) : Prop where
  naming : l'.naming = l.naming
  outage : l'.outage = l.outage
  obstacles : l'.obstacles = l.obstacles

theorem Steady.refl (l : Link) : Steady l l := ⟨rfl, rfl, rfl⟩

theorem Steady.trans (h : Steady l l') (h' : Steady l' l'') : Steady l l'' :=
  ⟨h'.naming.trans h.naming, h'.outage.trans h.outage, h'.obstacles.trans h.obstacles⟩

-- The server is as it was, and these events have been recorded, of the
-- statement or for one like it.
structure Records (l : Link) (statement : Statement) (events : List Event) (l' : Link) : Prop where
  server : l'.server = l.server
  steady : Steady l l'
  trace : ∀ name,
    l'.trace name = l.trace name ++ if statement.reaper? = some name then events else []

theorem Records.refl (l : Link) : Records l statement [] l := by
  refine ⟨rfl, .refl l, fun name => ?_⟩
  rw [ite_self, List.append_nil]

theorem Records.trans {events events' : List Event} (h : Records l statement events l')
    (h' : Records l' statement events' l'') : Records l statement (events ++ events') l'' := by
  refine ⟨h'.server.trans h.server, h.steady.trans h'.steady, fun name => ?_⟩
  rw [h'.trace, h.trace]
  split <;> simp

theorem records_record {event : Event} (h : event.reaper? = statement.reaper?) :
    Records l statement [event] (l.record event) := by
  refine ⟨rfl, ⟨rfl, rfl, rfl⟩, fun name => ?_⟩
  rw [trace_record, h]

-- What passes on the connection itself is the work of no reaper.
structure Quiet (l l' : Link) : Prop where
  server : l'.server = l.server
  steady : Steady l l'
  trace : ∀ name, l'.trace name = l.trace name

theorem Quiet.refl (l : Link) : Quiet l l := ⟨rfl, .refl l, fun _ => rfl⟩

theorem open?_quiet (h : l.isConnected = false) : Quiet l l.open?.2 := by
  have hquiet (event : Event) (h : event.reaper? = none) (name : String) :
      (l.record event).trace name = l.trace name := by
    rw [trace_record, h, if_neg nofun, List.append_nil]
  unfold open?
  split
  · refine ⟨rfl, ⟨rfl, rfl, ?_⟩, hquiet .refused rfl⟩
    simp only [obstacles, record, h]
    rfl
  · rename_i hconnects
    refine ⟨rfl, ⟨rfl, rfl, ?_⟩, hquiet (.connected _) rfl⟩
    simp [obstacles, record, Bool.not_eq_true _ ▸ hconnects]

-- A live connection is at hand, or a new one is asked for.
theorem acquire_cases (l : Link) :
    (∃ c, l.connection = some c ∧ c.isAlive = true ∧ l.acquire = (.ok c, l)) ∨
      l.isConnected = false ∧ l.acquire = l.open? := by
  unfold acquire isConnected
  cases hc : l.connection with
  | none => exact Or.inr ⟨rfl, rfl⟩
  | some c =>
      dsimp only
      cases halive : c.isAlive with
      | true => exact Or.inl ⟨c, rfl, halive, rfl⟩
      | false => exact Or.inr ⟨halive, rfl⟩

theorem acquire_quiet (l : Link) : Quiet l l.acquire.2 := by
  rcases acquire_cases l with ⟨c, -, -, hsame⟩ | ⟨hnone, hopen⟩
  · rw [hsame]
    exact .refl l
  · rw [hopen]
    exact open?_quiet hnone

theorem records_acquire (l : Link) : Records l statement [] l.acquire.2 := by
  obtain ⟨hserver, hsteady, htrace⟩ := acquire_quiet l
  refine ⟨hserver, hsteady, fun name => ?_⟩
  rw [htrace, ite_self, List.append_nil]

theorem acquire_error (h : l.acquire.1 = .error e) :
    l.obstacles.connect = true ∧ e = .backend .connectionRefused := by
  rcases acquire_cases l with ⟨c, -, -, hsame⟩ | ⟨hnone, hopen⟩
  · rw [hsame] at h
    cases h
  · rw [hopen, open?] at h
    split at h
    · rename_i hrefused
      exact ⟨by simp [obstacles, hrefused, hnone], (Except.error.inj h).symm⟩
    · cases h

theorem acquire_ok (h : l.acquire.1 = .ok c) :
    l.acquire.2.connection = some c ∧ c.isAlive = true := by
  rcases acquire_cases l with ⟨c', hc, halive, hsame⟩ | ⟨-, hopen⟩
  · rw [hsame] at h ⊢
    cases h
    exact ⟨hc, halive⟩
  · rw [hopen] at h ⊢
    unfold open? at h ⊢
    split at h
    · cases h
    · rename_i hconnects
      rw [if_neg hconnects]
      cases h
      exact ⟨rfl, rfl⟩

-- How a statement fares with what stands in its way, and what is recorded of it: that it was
-- prepared, if that was to be done, and that it was executed, once, if it came that far.
inductive Sent (obstacles : Outage) (statement : Statement) (parameters : List Parameter) :
    Except Error Reply → List Event → Prop
  | unreachable (h : obstacles.connect = true) :
      Sent obstacles statement parameters (.error (.backend .connectionRefused)) []
  | unprepared (h : statement.verb ∈ obstacles.prepare) (connection : Nat) :
      Sent obstacles statement parameters (.error (.backend .statementFailed))
        [.prepared statement connection]
  | failed (h : statement.verb ∈ obstacles.execute) (connection : Nat) (before : List Event)
      (hbefore : before.Sublist [.prepared statement connection]) :
      Sent obstacles statement parameters (.error (.backend .statementFailed))
        (before ++ [.executed statement parameters connection])
  | done (h : statement.verb ∉ obstacles.execute) (reply : Reply) (connection : Nat)
      (before : List Event) (hbefore : before.Sublist [.prepared statement connection]) :
      Sent obstacles statement parameters (.ok reply)
        (before ++ [.executed statement parameters connection])

-- What has become of a statement. One that failed has changed nothing.
structure Handled (l : Link) (now : Time) (statement : Statement) (parameters : List Parameter)
    (handled : Except Error Reply × Link) : Prop where
  steady : Steady l handled.2
  failed : ∀ e, handled.1 = .error e → handled.2.server = l.server
  done : ∀ reply, handled.1 = .ok reply →
    handled.2.server = (l.server.execute now (l.naming.read statement) parameters).1 ∧
      reply = (l.server.execute now (l.naming.read statement) parameters).2
  trace : ∃ events, Sent l.obstacles statement parameters handled.1 events ∧ ∀ name,
    handled.2.trace name = l.trace name ++ if statement.reaper? = some name then events else []

theorem Records.failed {events : List Event} (h : Records l statement events l')
    (hsent : Sent l.obstacles statement parameters (.error e) events) :
    Handled l now statement parameters (.error e, l') :=
  ⟨h.steady, fun _ _ => h.server, nofun, events, hsent, h.trace⟩

theorem Records.execute {before : List Event}
    (h : Records l statement before l')
    (hbefore : before.Sublist [.prepared statement c.number]) (now : Time) :
    Handled l now statement parameters (l'.execute now c statement parameters) := by
  have hrecord : Records l' statement [.executed statement parameters c.number]
      (l'.record (.executed statement parameters c.number)) := records_record rfl
  have hrecords := h.trans hrecord
  have houtage : (l'.record (.executed statement parameters c.number)).outage = l.outage :=
    h.steady.outage
  have hsteady := hrecords.steady
  unfold Link.execute
  dsimp only
  split
  · rename_i hfails
    rw [houtage] at hfails
    have hverb : statement.verb ∈ l.obstacles.execute := List.contains_iff_mem.mp hfails
    exact hrecords.failed (.failed hverb c.number before hbefore)
  · rename_i hruns
    rw [houtage] at hruns
    have hverb : statement.verb ∉ l.obstacles.execute := by
      rw [← List.contains_iff_mem]
      exact hruns
    refine ⟨⟨hsteady.naming, hsteady.outage, hsteady.obstacles⟩, nofun, ?_, _,
      .done hverb _ c.number before hbefore, hrecords.trace⟩
    rintro reply ⟨⟩
    show (l'.server.execute now (l'.naming.read statement) parameters).1 = _ ∧
      (l'.server.execute now (l'.naming.read statement) parameters).2 = _
    rw [h.server, h.steady.naming]
    exact ⟨rfl, rfl⟩

-- A statement is prepared unless it has been on this connection.
theorem prepare_cases (hc : l.connection = some c) (halive : c.isAlive = true)
    (statement : Statement) :
    (∃ before l', l.prepare c statement = (.ok (), l') ∧ Records l statement before l' ∧
      before.Sublist [.prepared statement c.number]) ∨
    ∃ l', l.prepare c statement = (.error (.backend .statementFailed), l') ∧
      Records l statement [.prepared statement c.number] l' ∧
      statement.verb ∈ l.outage.prepare := by
  have hrecords : Records l statement [.prepared statement c.number]
      (l.record (.prepared statement c.number)) := records_record rfl
  unfold prepare
  split
  · exact Or.inl ⟨[], l, rfl, .refl l, List.nil_sublist _⟩
  · dsimp only
    split
    · rename_i hfails
      exact Or.inr ⟨_, rfl, hrecords, List.contains_iff_mem.mp hfails⟩
    · refine Or.inl ⟨_, _, rfl, ⟨hrecords.server, ⟨rfl, rfl, ?_⟩, hrecords.trace⟩, .refl _⟩
      simp [obstacles, isConnected, record, hc, halive]

theorem handled_batch (l : Link) (now : Time) (statement : Statement) :
    Handled l now statement [] (l.batch now statement) := by
  have hrecords : Records l statement [] l.acquire.2 := records_acquire l
  have herror (e : Error) : l.acquire.1 = .error e → _ := acquire_error
  unfold batch
  generalize l.acquire = acquired at hrecords herror ⊢
  obtain ⟨result, l'⟩ := acquired
  cases result with
  | error e =>
      obtain ⟨hconnect, rfl⟩ := herror e rfl
      exact hrecords.failed (.unreachable hconnect)
  | ok c => exact hrecords.execute (List.nil_sublist _) now

theorem handled_run (l : Link) (now : Time) (statement : Statement) (parameters : List Parameter) :
    Handled l now statement parameters (l.run now statement parameters) := by
  have hrecords : Records l statement [] l.acquire.2 := records_acquire l
  have herror (e : Error) : l.acquire.1 = .error e → _ := acquire_error
  have hok (c : Connection) : l.acquire.1 = .ok c → _ := acquire_ok
  unfold run
  generalize l.acquire = acquired at hrecords herror hok ⊢
  obtain ⟨result, l'⟩ := acquired
  cases result with
  | error e =>
      obtain ⟨hconnect, rfl⟩ := herror e rfl
      exact hrecords.failed (.unreachable hconnect)
  | ok c =>
      dsimp only
      obtain ⟨hc, halive⟩ := hok c rfl
      rcases prepare_cases hc halive statement with
        ⟨before, l'', hprepare, hbefore, hsublist⟩ | ⟨l'', hprepare, hprepared, hfails⟩
      · rw [hprepare]
        exact (hrecords.trans hbefore).execute hsublist now
      · rw [hprepare]
        have hverb : statement.verb ∈ l.obstacles.prepare := by
          rw [obstacles, ← hrecords.steady.outage]
          exact hfails
        exact (hrecords.trans hprepared).failed (.unprepared hverb c.number)

-- Without an outage a connection can be had.
theorem acquire_served (hl : l.outage = .none) :
    ∃ c l', l.acquire = (.ok c, l') ∧ l'.server = l.server ∧ Steady l l' := by
  obtain ⟨hserver, hsteady, -⟩ := acquire_quiet l
  have herror (e : Error) : l.acquire.1 = .error e → _ := acquire_error
  generalize l.acquire = acquired at hserver hsteady herror ⊢
  obtain ⟨result, l'⟩ := acquired
  cases result with
  | error e =>
      have hconnect := (herror e rfl).1
      rw [obstacles, hl] at hconnect
      cases hconnect
  | ok c => exact ⟨c, l', rfl, hserver, hsteady⟩

theorem obstacles_none (hl : l.outage = .none) : l.obstacles = .none := by
  rw [obstacles, hl]
  rfl

-- And every statement gets its reply.
theorem Sent.ok_of_none {result : Except Error Reply} {events : List Event}
    (h : Sent .none statement parameters result events) : ∃ reply, result = .ok reply := by
  cases h with
  | unreachable h => cases h
  | unprepared h connection => cases h
  | failed h connection before hbefore => cases h
  | done h reply connection before hbefore => exact ⟨reply, rfl⟩

-- The reply to a statement and the server after it. The connection is no matter.
structure Served (l : Link) (now : Time) (statement : Statement) (parameters : List Parameter)
    (result : Except Error Reply × Link) : Prop where
  reply : result.1 = .ok (l.server.execute now (l.naming.read statement) parameters).2
  server : result.2.server = (l.server.execute now (l.naming.read statement) parameters).1
  steady : Steady l result.2

theorem Handled.served {handled : Except Error Reply × Link}
    (h : Handled l now statement parameters handled) (hl : l.outage = .none) :
    Served l now statement parameters handled := by
  obtain ⟨hsteady, -, hdone, events, hsent, -⟩ := h
  rw [obstacles_none hl] at hsent
  obtain ⟨reply, hreply⟩ := hsent.ok_of_none
  obtain ⟨hserver, rfl⟩ := hdone reply hreply
  exact ⟨hreply, hserver, hsteady⟩

theorem batch_served (hl : l.outage = .none) :
    Served l now statement [] (l.batch now statement) :=
  (handled_batch l now statement).served hl

theorem run_served (hl : l.outage = .none) :
    Served l now statement parameters (l.run now statement parameters) :=
  (handled_run l now statement parameters).served hl

end Link

end PolyCache.Relational
