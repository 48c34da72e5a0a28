import PolyCache.Proofs.Leader.Elector

-- What one step of an elector reports, and what it comes from. Whether earlier errors have been
-- read makes no difference to a step, but for the room that there is for another.
namespace PolyCache.Leader

-- The operation that has failed when a call fails.
def Call.operation : Call → Operation
  | .acquire => .acquireSession
  | .tryLock _ _ => .tryLock
  | .holdsLock _ _ => .verifyLock
  | .unlock _ _ => .unlock

-- What makes an elector call.
def Call.cause : Call → Wake
  | .acquire | .tryLock _ _ => .check
  | .holdsLock _ _ => .heartbeat
  | .unlock _ _ => .stop

def Effect.error? : Effect → Option Error
  | .reported error => some error
  | .gaveBack _ | .discarded _ | .logged _ => none

def Step.reports (st : Step) : List Error := st.effects.filterMap Effect.error?

section Steps

variable (st : Step)

@[simp] theorem Elector.reports_rest (e : Elector) : e.rest.reports = [] := rfl

@[simp] theorem Step.reports_did (effect : Effect) :
    (st.did effect).reports = st.reports ++ effect.error?.toList := by
  cases effect <;> simp [Step.did, Step.reports, Effect.error?]

@[simp] theorem Step.reports_enter (phase : Phase) : (st.enter phase).reports = st.reports := rfl

@[simp] theorem Step.reports_setFlag (isLeader : Bool) :
    (st.setFlag isLeader).reports = st.reports := rfl

@[simp] theorem Step.reports_pin (session : Option SessionId) :
    (st.pin session).reports = st.reports := rfl

@[simp] theorem Step.reports_log (level : Level) (message : String)
    (more : List (String × String)) : (st.log level message more).reports = st.reports := by
  simp [Step.log, Effect.error?]

@[simp] theorem Step.reports_finish : st.finish.reports = st.reports := by
  simp [Step.finish]

@[simp] theorem Step.reports_stepDown : st.stepDown.reports = st.reports := by
  unfold Step.stepDown
  cases st.elector.session <;> simp [Effect.error?]

@[simp] theorem Step.reports_queue (error : Error) : (st.queue error).reports = st.reports := by
  unfold Step.queue
  split <;> rfl

@[simp] theorem Step.reports_report (operation : Operation) (fault : Fault) :
    (st.report operation fault).reports = st.reports ++ [⟨operation, fault⟩] := by
  simp [Step.report, Effect.error?]

-- Errors for which there is no room are lost.
def offer (errors : List Error) (error : Error) : List Error :=
  if errors.length < errorCapacity then errors ++ [error] else errors

@[simp] theorem Step.errors_queue (error : Error) :
    (st.queue error).elector.errors = offer st.elector.errors error := by
  unfold Step.queue offer
  split <;> rfl

@[simp] theorem Step.errors_report (operation : Operation) (fault : Fault) :
    (st.report operation fault).elector.errors = offer st.elector.errors ⟨operation, fault⟩ := by
  simp [Step.report]

-- A step without what waits to be read.
def Step.unread : Step := ⟨st.elector.takeErrors.2, st.effects⟩

@[simp] theorem Elector.unread_rest (e : Elector) : e.rest.unread = e.takeErrors.2.rest := rfl

@[simp] theorem Step.unread_did (effect : Effect) :
    (st.did effect).unread = st.unread.did effect := rfl

@[simp] theorem Step.unread_enter (phase : Phase) :
    (st.enter phase).unread = st.unread.enter phase := rfl

@[simp] theorem Step.unread_setFlag (isLeader : Bool) :
    (st.setFlag isLeader).unread = st.unread.setFlag isLeader := rfl

@[simp] theorem Step.unread_pin (session : Option SessionId) :
    (st.pin session).unread = st.unread.pin session := rfl

@[simp] theorem Step.unread_log (level : Level) (message : String)
    (more : List (String × String)) :
    (st.log level message more).unread = st.unread.log level message more := rfl

@[simp] theorem Step.unread_finish : st.finish.unread = st.unread.finish := rfl

@[simp] theorem Step.unread_stepDown : st.stepDown.unread = st.unread.stepDown := by
  unfold Step.stepDown
  cases h : st.elector.session <;> simp [Step.unread, Elector.takeErrors, h] <;> rfl

@[simp] theorem Step.unread_queue (error : Error) : (st.queue error).unread = st.unread := by
  unfold Step.queue
  split <;> rfl

@[simp] theorem Step.unread_report (operation : Operation) (fault : Fault) :
    (st.report operation fault).unread =
      (st.unread.log .error "leader election error"
        [("error", (⟨operation, fault⟩ : Error).message)]).did (.reported ⟨operation, fault⟩) := by
  simp [Step.report]

-- What a step reports beside what has been waiting.
structure Step.Reports (e : Elector) (errors : List Error) : Prop where
  reported : st.reports = errors
  waiting : st.elector.errors = errors.foldl offer e.errors

end Steps

namespace Elector

variable (e : Elector)

theorem check_reports (isClosed : SessionId → Bool) : (e.check isClosed).Reports e [] := by
  unfold check
  split
  · exact ⟨rfl, rfl⟩
  split
  · exact ⟨rfl, rfl⟩
  · split <;> constructor <;> simp [Effect.error?]

theorem stop_reports : e.stop.Reports e [] := by
  unfold stop
  dsimp only
  split
  · constructor <;> simp
  · split <;> constructor <;> simp [Effect.error?]

theorem heartbeat_reports (isClosed : SessionId → Bool) :
    (e.heartbeat isClosed).Reports e
      (if e.isLeader && e.session.all isClosed then [⟨.verifyLock, .sessionLost⟩] else []) := by
  unfold heartbeat
  cases hl : e.isLeader with
  | false => constructor <;> simp
  | true =>
      cases hs : e.session with
      | none => constructor <;> simp
      | some s => cases hc : isClosed s <;> constructor <;> simp [hc]

-- Of the replies only a failure is reported, as one of the call that failed.
theorem resume_reports (reply : Reply) :
    (e.resume reply).Reports e
      (match reply with
        | .failed fault => (e.call?.map fun call => (⟨call.operation, fault⟩ : Error)).toList
        | .session _ | .answer _ => []) := by
  cases hp : e.phase with
  | idle | ended => cases reply <;> constructor <;> simp [resume, call?, hp]
  | acquiring => cases reply <;> constructor <;> simp [resume, call?, hp, Call.operation]
  | trying s | verifying s | releasing s =>
      cases reply with
      | session t => constructor <;> simp [resume, hp]
      | answer yes => cases yes <;> constructor <;> simp [resume, hp, Effect.error?]
      | failed fault => constructor <;> simp [resume, call?, hp, Call.operation, Effect.error?]

-- What waits to be read changes nothing about a step but itself.
theorem check_unread (isClosed : SessionId → Bool) :
    (e.check isClosed).unread = (e.takeErrors.2.check isClosed).unread := by
  obtain ⟨key, session, isLeader, flagWrites, phase, errors⟩ := e
  cases isLeader with
  | true => rfl
  | false =>
      cases session with
      | none => rfl
      | some s => cases hc : isClosed s <;> simp [check, takeErrors, hc]

theorem heartbeat_unread (isClosed : SessionId → Bool) :
    (e.heartbeat isClosed).unread = (e.takeErrors.2.heartbeat isClosed).unread := by
  obtain ⟨key, session, isLeader, flagWrites, phase, errors⟩ := e
  cases isLeader with
  | false => rfl
  | true =>
      cases session with
      | none => simp [heartbeat, takeErrors]
      | some s => cases hc : isClosed s <;> simp [heartbeat, takeErrors, hc]

theorem stop_unread : e.stop.unread = e.takeErrors.2.stop.unread := by
  obtain ⟨key, session, isLeader, flagWrites, phase, errors⟩ := e
  cases session with
  | none => rfl
  | some s => cases isLeader <;> rfl

theorem resume_unread (reply : Reply) :
    (e.resume reply).unread = (e.takeErrors.2.resume reply).unread := by
  obtain ⟨key, session, isLeader, flagWrites, phase, errors⟩ := e
  cases phase with
  | idle | ended => cases reply <;> rfl
  | acquiring | trying s | verifying s | releasing s =>
      cases reply with
      | session t => rfl
      | answer yes => cases yes <;> simp [resume, takeErrors]
      | failed fault => simp [resume, takeErrors]

variable {e}

-- A leader has a session to lose when it is woken.
theorem all_isClosed (hs : e.IsSound) (hi : e.phase = .idle) (isClosed : SessionId → Bool) :
    (e.isLeader && e.session.all isClosed) = (e.isLeader && e.session.any isClosed) := by
  simp only [IsSound, hi] at hs
  cases hl : e.isLeader with
  | false => rfl
  | true =>
      obtain ⟨s, hsession⟩ := Option.isSome_iff_exists.mp (hs hl)
      rw [hsession]
      rfl

variable {call : Call}

theorem cause_of_wake (hi : e.phase = .idle) (isClosed : SessionId → Bool) (cause : Wake)
    (h : (e.wake isClosed cause).elector.call? = some call) : call.cause = cause := by
  obtain ⟨key, session, isLeader, flagWrites, phase, errors⟩ := e
  obtain rfl : phase = .idle := hi
  cases cause with
  | check =>
      cases isLeader with
      | true => cases h
      | false =>
          cases session with
          | none =>
              cases h
              rfl
          | some s =>
              cases hc : isClosed s <;> simp [wake, check, hc, call?] at h <;> subst h <;> rfl
  | heartbeat =>
      cases isLeader with
      | false => cases h
      | true =>
          cases session with
          | none => simp [wake, heartbeat, call?] at h
          | some s =>
              cases hc : isClosed s <;> simp [wake, heartbeat, hc, call?] at h
              subst h
              rfl
  | stop =>
      cases session with
      | none => cases h
      | some s =>
          cases isLeader with
          | false => cases h
          | true =>
              cases h
              rfl

theorem cause_of_reply {reply : Reply} (hx : e.Expects reply)
    (h : (e.resume reply).elector.call? = some call) :
    ∃ former, e.call? = some former ∧ former.cause = call.cause := by
  cases hp : e.phase with
  | idle | ended => cases reply <;> simp [Expects, call?, hp] at hx
  | acquiring =>
      cases reply with
      | answer yes => simp [Expects, call?, hp] at hx
      | failed fault => simp [resume, hp, call?] at h
      | session s =>
          simp [resume, hp, call?] at h
          exact ⟨.acquire, by simp [call?, hp], h ▸ rfl⟩
  | trying s | verifying s | releasing s =>
      cases reply with
      | session t => simp [Expects, call?, hp] at hx
      | answer yes => cases yes <;> simp [resume, hp, call?] at h
      | failed fault => simp [resume, hp, call?] at h

theorem isLeader_of_holdsLock (hs : e.IsSound) {s : SessionId} {key : LockKey}
    (h : e.call? = some (.holdsLock s key)) : e.isLeader = true := by
  cases hp : e.phase <;> simp [call?, hp] at h
  simp only [IsSound, hp] at hs
  exact hs.1

end Elector

end PolyCache.Leader
