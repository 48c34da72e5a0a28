import Mathlib.Data.List.Basic
import PolyCache.Proofs.Leader.Errors

-- What an elector reports in a run, and what of it is read. The reader takes errors one at
-- a time, whenever it likes, and may be dropped; between two steps of the elector it may
-- do so any number of times.
namespace PolyCache.Leader

-- An elector with the reader of its errors, as long as there is one.
structure Reporter where
  elector : Elector
  hasReader : Bool

namespace Reporter

inductive Event where
  -- a timer fires, or the elector is told to stop; it sees which sessions are closed
  | wake (cause : Wake) (isClosed : SessionId → Bool)
  | reply (reply : Reply)
  -- the reader takes the oldest error, if one is waiting
  | read
  -- the reader is dropped
  | leave

namespace Event

-- Whether it is the elector that goes on, and not its reader.
def isOwn : Event → Bool
  | .wake _ _ | .reply _ => true
  | .read | .leave => false

def wake? : Event → Option Wake
  | .wake cause _ => some cause
  | .reply _ | .read | .leave => none

-- What the elector does.
def step (e : Elector) : Event → Step
  | .wake cause isClosed => e.wake isClosed cause
  | .reply answer => e.resume answer
  | .read | .leave => e.rest

end Event

def new (key : LockKey) (session : SessionId) : Reporter := ⟨.new key session, true⟩

-- Without a reader no error waits.
def keep (r : Reporter) (e : Elector) : Reporter :=
  { r with elector := if r.hasReader then e else e.takeErrors.2 }

def after (r : Reporter) : Event → Reporter
  | .wake cause isClosed => r.keep (r.elector.wake isClosed cause).elector
  | .reply reply => r.keep (r.elector.resume reply).elector
  | .read => { r with elector := { r.elector with errors := r.elector.errors.tail } }
  | .leave => ⟨r.elector.takeErrors.2, false⟩

-- An elector is woken when it waits for nothing else, and gets replies to its own calls. Its reader
-- does what it likes.
def Allowed (r : Reporter) : Event → Prop
  | .wake _ _ => r.elector.phase = .idle
  | .reply reply => r.elector.Expects reply
  | .read | .leave => True

def run (r : Reporter) (events : List Event) : Reporter := events.foldl after r

def Allows (r : Reporter) : List Event → Prop
  | [] => True
  | event :: events => r.Allowed event ∧ (r.after event).Allows events

instance (e : Elector) (reply : Reply) : Decidable (e.Expects reply) :=
  match reply with
  | .session _ => inferInstanceAs (Decidable (_ = _))
  | .answer _ => decidable_of_iff (∃ call ∈ e.call?, call ≠ .acquire) Iff.rfl
  | .failed _ => inferInstanceAs (Decidable (_ = _))

instance (r : Reporter) (event : Event) : Decidable (r.Allowed event) :=
  match event with
  | .wake _ _ => inferInstanceAs (Decidable (_ = _))
  | .reply _ => inferInstanceAs (Decidable (Elector.Expects _ _))
  | .read | .leave => isTrue trivial

instance decidableAllows (r : Reporter) : (events : List Event) → Decidable (r.Allows events)
  | [] => isTrue trivial
  | event :: events =>
    have := decidableAllows (r.after event) events
    inferInstanceAs (Decidable (_ ∧ _))

-- An event with the state before it.
structure Moment where
  reporter : Reporter
  event : Event

def moments (r : Reporter) : List Event → List Moment
  | [] => []
  | event :: events => ⟨r, event⟩ :: (r.after event).moments events

namespace Moment

def effects (m : Moment) : List Effect := (m.event.step m.reporter.elector).effects

def reported (m : Moment) : List Error := (m.event.step m.reporter.elector).reports

-- The error that is to be reported: that of a call that failed, or that of a heartbeat of a leader
-- whose session is closed.
def owed? (m : Moment) : Option Error :=
  match m.event with
  | .wake .heartbeat isClosed =>
    if m.reporter.elector.isLeader && m.reporter.elector.session.any isClosed then
      some ⟨.verifyLock, .sessionLost⟩
    else none
  | .reply (.failed fault) => m.reporter.elector.call?.map fun call => ⟨call.operation, fault⟩
  | .wake _ _ | .reply _ | .read | .leave => none

-- Fewer errors are waiting than there is room for, and somebody to read them.
def hasRoom (m : Moment) : Bool :=
  m.reporter.hasReader && m.reporter.elector.errors.length < errorCapacity

-- What the reader takes.
def taken? (m : Moment) : Option Error :=
  match m.event with
  | .read => m.reporter.elector.errors.head?
  | .wake _ _ | .reply _ | .leave => none

end Moment

variable (r : Reporter) (events : List Event)

def effects : List Effect := (r.moments events).flatMap Moment.effects

def reported : List Error := (r.moments events).flatMap Moment.reported

def owed : List Error := (r.moments events).filterMap Moment.owed?

-- The errors that are reported while there is room for them.
def accepted : List Error := ((r.moments events).filter Moment.hasRoom).flatMap Moment.reported

def taken : List Error := (r.moments events).filterMap Moment.taken?

variable {r events} {event : Event}

theorem accepted_cons :
    r.accepted (event :: events) =
      (if Moment.hasRoom ⟨r, event⟩ then Moment.reported ⟨r, event⟩ else []) ++
        (r.after event).accepted events := by
  rw [accepted, moments, List.filter_cons]
  split <;> rfl

theorem taken_cons :
    r.taken (event :: events) =
      (Moment.taken? ⟨r, event⟩).toList ++ (r.after event).taken events := by
  rw [taken, taken, List.filterMap_eq_flatMap_toList, List.filterMap_eq_flatMap_toList]
  rfl

-- The elector after an event of its own, but for what waits to be read.
theorem takeErrors_after (h : event.isOwn = true) :
    (r.after event).elector.takeErrors.2 = (event.step r.elector).unread.elector := by
  cases event with
  | wake | reply =>
      simp only [after, keep]
      split <;> rfl
  | read | leave => cases h

theorem call?_after (h : event.isOwn = true) :
    (r.after event).elector.call? = (event.step r.elector).elector.call? := by
  have heq := congrArg Elector.call? (takeErrors_after (r := r) h)
  exact heq

theorem hasReader_after (h : event ≠ .leave) : (r.after event).hasReader = r.hasReader := by
  cases event with
  | wake | reply | read => rfl
  | leave => exact absurd rfl h

theorem sound_after (hs : r.elector.IsSound) (h : r.Allowed event) :
    (r.after event).elector.IsSound := by
  cases event with
  | wake cause isClosed =>
      have hsound := (Elector.wake_advances hs h isClosed cause).sound
      simp only [after, keep]
      split <;> exact hsound
  | reply answer =>
      have hsound := (Elector.resume_advances hs h).sound
      simp only [after, keep]
      split <;> exact hsound
  | read | leave => exact hs

theorem step_reports (hs : r.elector.IsSound) (h : r.Allowed event) :
    (event.step r.elector).Reports r.elector (Moment.owed? ⟨r, event⟩).toList := by
  cases event with
  | wake cause isClosed =>
      cases cause with
      | check => exact r.elector.check_reports isClosed
      | stop => exact r.elector.stop_reports
      | heartbeat =>
          have hreports := r.elector.heartbeat_reports isClosed
          rw [Elector.all_isClosed hs h] at hreports
          rw [Moment.owed?, apply_ite Option.toList]
          exact hreports
  | reply answer =>
      have hreports := r.elector.resume_reports answer
      cases answer <;> exact hreports
  | read | leave => exact ⟨rfl, rfl⟩

-- Every error that is owed is reported when it arises, and no other.
theorem reported_eq_owed (hs : r.elector.IsSound) (h : r.Allows events) :
    r.reported events = r.owed events := by
  induction events generalizing r with
  | nil => rfl
  | cons event events ih =>
      have hstep := (step_reports hs h.1).reported
      have hmore := ih (sound_after hs h.1) h.2
      rw [owed, List.filterMap_eq_flatMap_toList] at hmore ⊢
      rw [reported, moments, List.flatMap_cons, List.flatMap_cons]
      exact congrArg₂ (· ++ ·) hstep hmore

-- The call that an elector waits for comes from what has woken it last, which was `before` if it
-- has not been woken since.
theorem cause_of_run {before : Option Wake} (h : r.Allows events)
    (hbefore : ∀ call, r.elector.call? = some call → before = some call.cause) {call : Call}
    (hcall : (r.run events).elector.call? = some call) :
    (before.toList ++ events.filterMap Event.wake?).getLast? = some call.cause := by
  induction events generalizing r before with
  | nil =>
      rw [hbefore call hcall]
      rfl
  | cons event events ih =>
      obtain ⟨hallowed, hmore⟩ := h
      cases event with
      | wake cause isClosed =>
          have hcause : ∀ call, (r.after (.wake cause isClosed)).elector.call? = some call →
              some cause = some call.cause := by
            intro call hcall
            rw [call?_after rfl] at hcall
            rw [Elector.cause_of_wake hallowed isClosed cause hcall]
          have hlast := ih hmore hcause hcall
          have hevents : (Event.wake cause isClosed :: events).filterMap Event.wake? =
              cause :: events.filterMap Event.wake? := rfl
          rw [hevents, List.getLast?_append_of_ne_nil _ (List.cons_ne_nil _ _)]
          exact hlast
      | reply answer =>
          refine ih hmore (fun call hcall => ?_) hcall
          rw [call?_after rfl] at hcall
          obtain ⟨former, hformer, heq⟩ := Elector.cause_of_reply hallowed hcall
          rw [hbefore former hformer, heq]
      | read | leave => exact ih hmore hbefore hcall

section Reading

-- Nobody reads any more, and nothing waits.
def IsUnread (r : Reporter) : Prop := r.hasReader = false ∧ r.elector.errors = []

theorem isUnread_after (h : r.IsUnread) (event : Event) : (r.after event).IsUnread := by
  obtain ⟨hreader, herrors⟩ := h
  cases event with
  | wake | reply => simp [IsUnread, after, keep, hreader, Elector.takeErrors]
  | read => simp [IsUnread, after, hreader, herrors]
  | leave => exact ⟨rfl, rfl⟩

theorem taken_of_isUnread (h : r.IsUnread) (events : List Event) :
    r.taken events = [] ∧ r.accepted events = [] ∧ (r.run events).IsUnread := by
  induction events generalizing r with
  | nil => exact ⟨rfl, rfl, h⟩
  | cons event events ih =>
      obtain ⟨htaken, haccepted, hunread⟩ := ih (isUnread_after h event)
      have hroom : Moment.hasRoom ⟨r, event⟩ = false := by simp [Moment.hasRoom, h.1]
      have hnone : Moment.taken? ⟨r, event⟩ = none := by
        cases event <;> simp [Moment.taken?, h.2]
      rw [taken_cons, accepted_cons, hroom, hnone, htaken, haccepted]
      exact ⟨rfl, rfl, hunread⟩

-- What has been waiting and what finds room is taken or waits afterwards.
theorem balance_after (hs : r.elector.IsSound) (h : r.Allowed event) (hreader : r.hasReader = true)
    (hstay : event ≠ .leave) :
    r.elector.errors ++ (if Moment.hasRoom ⟨r, event⟩ then Moment.reported ⟨r, event⟩ else []) =
      (Moment.taken? ⟨r, event⟩).toList ++ (r.after event).elector.errors := by
  obtain ⟨hreported, hwaiting⟩ := step_reports hs h
  have hown (he : (r.after event).elector.errors = (event.step r.elector).elector.errors) :
      (r.after event).elector.errors = r.elector.errors ++
        (if Moment.hasRoom ⟨r, event⟩ then Moment.reported ⟨r, event⟩ else []) := by
    rw [he, hwaiting, Moment.reported, hreported, Moment.hasRoom, hreader]
    cases Moment.owed? ⟨r, event⟩ with
    | none => simp
    | some error => by_cases hroom : r.elector.errors.length < errorCapacity <;> simp [offer, hroom]
  cases event with
  | wake | reply =>
      rw [hown (by simp [after, keep, hreader, Event.step])]
      rfl
  | read =>
      have hnone : Moment.reported ⟨r, .read⟩ = [] := rfl
      rw [hnone, ite_self, List.append_nil]
      simp only [Moment.taken?, after]
      cases r.elector.errors <;> rfl
  | leave => exact absurd rfl hstay

-- The reader gets the errors that find room, one after another. Those that it has not got by the
-- end are waiting, or were when it was dropped.
theorem taken_append_waiting (hs : r.elector.IsSound) (h : r.Allows events)
    (hreader : r.hasReader = true) :
    ∃ lost, r.elector.errors ++ r.accepted events =
        r.taken events ++ ((r.run events).elector.errors ++ lost) ∧
      ((r.run events).hasReader = true → lost = []) := by
  induction events generalizing r with
  | nil => exact ⟨[], by simp [accepted, taken, moments, run], fun _ => rfl⟩
  | cons event events ih =>
      obtain ⟨hallowed, hmore⟩ := h
      rw [accepted_cons, taken_cons]
      by_cases hstay : event = .leave
      · subst hstay
        obtain ⟨hnone, hnothing, hunread⟩ :=
          taken_of_isUnread (r := r.after .leave) ⟨rfl, rfl⟩ events
        refine ⟨r.elector.errors, ?_, fun hstill => ?_⟩
        · have hreported : Moment.reported ⟨r, .leave⟩ = [] := rfl
          rw [hnone, hnothing, hreported, ite_self]
          have hwaiting : (r.run (.leave :: events)).elector.errors = [] := hunread.2
          rw [hwaiting]
          exact List.append_nil _
        · exact absurd (hunread.1.symm.trans hstill) Bool.false_ne_true
      · obtain ⟨lost, heq, hlost⟩ := ih (sound_after hs hallowed) hmore
          ((hasReader_after hstay).trans hreader)
        refine ⟨lost, ?_, hlost⟩
        rw [← List.append_assoc, balance_after hs hallowed hreader hstay, List.append_assoc, heq,
          List.append_assoc]
        rfl

theorem length_offer {errors : List Error} (h : errors.length ≤ errorCapacity) (error : Error) :
    (offer errors error).length ≤ errorCapacity := by
  unfold offer
  split
  · rw [List.length_append]
    assumption
  · exact h

theorem length_waiting_after (h : r.elector.errors.length ≤ errorCapacity) (hs : r.elector.IsSound)
    (hallowed : r.Allowed event) : (r.after event).elector.errors.length ≤ errorCapacity := by
  have hstep : (event.step r.elector).elector.errors.length ≤ errorCapacity := by
    rw [(step_reports hs hallowed).waiting]
    cases Moment.owed? ⟨r, event⟩ with
    | none => exact h
    | some error => exact length_offer h error
  cases event with
  | wake | reply =>
      simp only [after, keep]
      split
      · exact hstep
      · exact Nat.zero_le _
  | read => exact Nat.le_trans (Nat.le_of_eq List.length_tail) (Nat.le_trans (Nat.sub_le _ _) h)
  | leave => exact Nat.zero_le _

theorem length_waiting_run (h : r.elector.errors.length ≤ errorCapacity) (hs : r.elector.IsSound)
    (hallows : r.Allows events) : (r.run events).elector.errors.length ≤ errorCapacity := by
  induction events generalizing r with
  | nil => exact h
  | cons event events ih =>
      exact ih (length_waiting_after h hs hallows.1) (sound_after hs hallows.1) hallows.2

end Reading

section Undisturbed

theorem unread_step (e : Elector) (event : Event) :
    (event.step e).unread = (event.step e.takeErrors.2).unread := by
  cases event with
  | wake cause isClosed =>
      cases cause with
      | check => exact e.check_unread isClosed
      | heartbeat => exact e.heartbeat_unread isClosed
      | stop => exact e.stop_unread
  | reply answer => exact e.resume_unread answer
  | read | leave => rfl

theorem leave_after (h : event.isOwn = true) :
    (r.after event).after .leave = (r.after .leave).after event := by
  have helector : (r.after event).elector.takeErrors.2 =
      (event.step r.elector.takeErrors.2).unread.elector := by
    rw [takeErrors_after h, unread_step]
  cases event with
  | wake | reply => exact congrArg (Reporter.mk · false) helector
  | read | leave => cases h

theorem leave_after_other (h : event.isOwn = false) :
    (r.after event).after .leave = r.after .leave := by
  cases event with
  | wake | reply => cases h
  | read | leave => rfl

-- An elector goes on as if its reader had been dropped at the beginning.
theorem run_unread (r : Reporter) (events : List Event) :
    (r.Allows events ↔ (r.after .leave).Allows (events.filter Event.isOwn)) ∧
      r.effects events = (r.after .leave).effects (events.filter Event.isOwn) ∧
      (r.run events).after .leave = (r.after .leave).run (events.filter Event.isOwn) := by
  induction events generalizing r with
  | nil => exact ⟨Iff.rfl, rfl, rfl⟩
  | cons event events ih =>
      obtain ⟨hallows, heffects, hrun⟩ := ih (r.after event)
      cases hown : event.isOwn with
      | true =>
          rw [leave_after hown] at hallows heffects hrun
          rw [List.filter_cons_of_pos hown]
          have hallowed : r.Allowed event ↔ (r.after .leave).Allowed event := by
            cases event <;> exact Iff.rfl
          have hstep : Moment.effects ⟨r, event⟩ = Moment.effects ⟨r.after .leave, event⟩ := by
            have heq := congrArg Step.effects (unread_step r.elector event)
            exact heq
          refine ⟨and_congr hallowed hallows, ?_, hrun⟩
          rw [effects, moments, List.flatMap_cons, hstep]
          exact congrArg (Moment.effects ⟨r.after .leave, event⟩ ++ ·) heffects
      | false =>
          rw [leave_after_other hown] at hallows heffects hrun
          rw [List.filter_cons_of_neg (by simp [hown])]
          have hallowed : r.Allowed event := by
            cases event with
            | wake | reply => cases hown
            | read | leave => trivial
          have hnone : Moment.effects ⟨r, event⟩ = [] := by
            cases event with
            | wake | reply => cases hown
            | read | leave => rfl
          refine ⟨Iff.trans (and_iff_right hallowed) hallows, ?_, hrun⟩
          rw [effects, moments, List.flatMap_cons, hnone]
          exact heffects

theorem undisturbed {others : List Event}
    (h : others.filter Event.isOwn = events.filter Event.isOwn) :
    (r.Allows others ↔ r.Allows events) ∧ r.effects others = r.effects events ∧
      (r.run others).elector.takeErrors.2 = (r.run events).elector.takeErrors.2 := by
  obtain ⟨hallows, heffects, hrun⟩ := r.run_unread events
  obtain ⟨hallows', heffects', hrun'⟩ := r.run_unread others
  rw [h] at hallows' heffects' hrun'
  exact ⟨hallows'.trans hallows.symm, heffects'.trans heffects.symm,
    congrArg Reporter.elector (hrun'.trans hrun.symm)⟩

end Undisturbed

-- What holds of a run of an elector and the reader of its errors. The last field compares the run
-- with all those in which the elector meets with the same and the reader does something else.
structure Faithful (r : Reporter) (events : List Event) : Prop where
  reported : r.reported events = r.owed events
  caused : ∀ call, (r.run events).elector.call? = some call →
    (events.filterMap Event.wake?).getLast? = some call.cause
  verifies : ∀ s key, (r.run events).elector.call? = some (.holdsLock s key) →
    (r.run events).elector.isLeader = true
  taken : r.taken events <+: r.accepted events
  waiting : (r.run events).hasReader = true →
    r.taken events ++ (r.run events).elector.errors = r.accepted events
  bounded : (r.run events).elector.errors.length ≤ errorCapacity
  undisturbed : ∀ others, others.filter Event.isOwn = events.filter Event.isOwn →
    r.Allows others ∧ r.effects others = r.effects events ∧
      (r.run others).elector.takeErrors.2 = (r.run events).elector.takeErrors.2

theorem sound_run (hs : r.elector.IsSound) (h : r.Allows events) :
    (r.run events).elector.IsSound := by
  induction events generalizing r with
  | nil => exact hs
  | cons event events ih => exact ih (sound_after hs h.1) h.2

-- An elector reports each failed call, and each heartbeat of a leader whose session is closed,
-- once and when it happens. Its reader gets, in their order, those that were reported while fewer
-- than 16 were waiting. What the reader does has no effect on anything else.
theorem reports_are_faithful (key : LockKey) (session : SessionId) (events : List Event)
    (h : (new key session).Allows events) : (new key session).Faithful events := by
  have hs : (new key session).elector.IsSound := Elector.isSound_new key session
  obtain ⟨lost, hbalance, hlost⟩ := taken_append_waiting hs h rfl
  have hbalance : (new key session).accepted events = (new key session).taken events ++
      (((new key session).run events).elector.errors ++ lost) := hbalance
  have hidle : ∀ call, (new key session).elector.call? = some call →
      (none : Option Wake) = some call.cause := fun _ hcall => nomatch hcall
  exact {
    reported := reported_eq_owed hs h
    caused := fun call hcall => cause_of_run h hidle hcall
    verifies := fun s k hcall => Elector.isLeader_of_holdsLock (sound_run hs h) hcall
    taken := ⟨_, hbalance.symm⟩
    waiting := fun hreader => by rw [hbalance, hlost hreader, List.append_nil]
    bounded := length_waiting_run (Nat.zero_le _) hs h
    undisturbed := fun others hothers => by
      obtain ⟨hallows, hsame⟩ := undisturbed (r := new key session) hothers
      exact ⟨hallows.mpr h, hsame⟩ }

-- Checks that find no session and get none.
def outage (checks : Nat) : List Event :=
  (List.replicate checks
    [.wake .check fun _ => true, .reply (.failed .poolExhausted)]).flatten

-- Of 17 errors the last finds no room. The reader takes two, there is room for two more, and the
-- reader is dropped before one more error.
theorem full_and_dropped_readers :
    let events := outage 17 ++ [.read, .read] ++ outage 2 ++ [.leave] ++ outage 1
    (new 7 1).reported events = .replicate 20 ⟨.acquireSession, .poolExhausted⟩ ∧
      (new 7 1).accepted events = .replicate 18 ⟨.acquireSession, .poolExhausted⟩ ∧
      (new 7 1).taken events <+: (new 7 1).accepted events ∧
      (new 7 1).effects (outage 20) = (new 7 1).effects events := by
  have h := reports_are_faithful 7 1
    (outage 17 ++ [.read, .read] ++ outage 2 ++ [.leave] ++ outage 1) (by decide +kernel)
  refine ⟨h.reported.trans (by decide +kernel), by decide +kernel, h.taken, ?_⟩
  exact (h.undisturbed (outage 20) rfl).2.1

end Reporter

end PolyCache.Leader
