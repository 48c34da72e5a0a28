import PolyCache.Leader.Error
import PolyCache.Log

-- One candidate for leadership. It pins a session, seeks the lock on it, and as leader verifies
-- that the session still holds it. Between two calls to the server an elector is in a phase that
-- names the call it waits for, so that the steps of several electors may come in any order.
namespace PolyCache.Leader

abbrev SessionId := Nat

abbrev LockKey := Int64

inductive Call where
  | acquire
  | tryLock (session : SessionId) (key : LockKey)
  | holdsLock (session : SessionId) (key : LockKey)
  | unlock (session : SessionId) (key : LockKey)
deriving DecidableEq

inductive Reply where
  | session (session : SessionId)
  | answer (yes : Bool)
  | failed (fault : Fault)
deriving DecidableEq

-- What wakes an elector: its two timers, and the order to stop.
inductive Wake where
  | check
  | heartbeat
  | stop
deriving DecidableEq, Repr

inductive Phase where
  | idle
  | acquiring
  | trying (session : SessionId)
  | verifying (session : SessionId)
  -- no longer leader; the session has been taken out and is given up after the reply
  | releasing (session : SessionId)
  | ended
deriving DecidableEq, Repr

-- What an elector does beside its calls.
inductive Effect where
  -- a session that is in order is given back, another is discarded
  | gaveBack (session : SessionId)
  | discarded (session : SessionId)
  | reported (error : Error)
  | logged (event : LogEvent)
deriving DecidableEq

structure Elector where
  key : LockKey
  session : Option SessionId
  isLeader : Bool
  -- how often the flag has been written, with whatever value
  flagWrites : Nat
  phase : Phase
  -- errors that nobody has read yet, oldest first
  errors : List Error
deriving DecidableEq

structure Step where
  elector : Elector
  effects : List Effect
deriving DecidableEq

-- Errors beyond this many unread ones are lost.
def errorCapacity : Nat := 16

namespace Step

def did (st : Step) (effect : Effect) : Step := { st with effects := st.effects ++ [effect] }

def enter (st : Step) (phase : Phase) : Step :=
  { st with elector := { st.elector with phase } }

def setFlag (st : Step) (isLeader : Bool) : Step :=
  { st with
    elector := { st.elector with isLeader, flagWrites := st.elector.flagWrites + 1 } }

def pin (st : Step) (session : Option SessionId) : Step :=
  { st with elector := { st.elector with session } }

def log (st : Step) (level : Level) (message : String) (more : List (String × String)) : Step :=
  st.did (.logged
    ⟨level, message, ("leader.lock_key", toString st.elector.key.toInt) :: more⟩)

-- Puts an error where it can be read, if there is room.
def queue (st : Step) (error : Error) : Step :=
  if st.elector.errors.length < errorCapacity then
    { st with elector := { st.elector with errors := st.elector.errors ++ [error] } }
  else st

def report (st : Step) (operation : Operation) (fault : Fault) : Step :=
  let error : Error := ⟨operation, fault⟩
  ((st.log .error "leader election error" [("error", error.message)]).did
    (.reported error)).queue error

-- Gives up leadership and the session.
def stepDown (st : Step) : Step :=
  let session := st.elector.session
  let st := (st.setFlag false).pin none
  let st :=
    match session with
    | some s => st.did (.discarded s)
    | none => st
  st.log .warn "lost leadership" []

def finish (st : Step) : Step := (st.enter .ended).log .info "leader elector stopped" []

end Step

namespace Elector

def new (key : LockKey) (session : SessionId) : Elector :=
  ⟨key, some session, false, 0, .idle, []⟩

def rest (e : Elector) : Step := ⟨e, []⟩

-- A follower seeks the lock. A session that has ended is given up before a new one is asked for.
def check (isClosed : SessionId → Bool) (e : Elector) : Step :=
  if e.isLeader then e.rest
  else
    match e.session with
    | none => e.rest.enter .acquiring
    | some s =>
      if isClosed s then ((e.rest.pin none).did (.gaveBack s)).enter .acquiring
      else e.rest.enter (.trying s)

def heartbeat (isClosed : SessionId → Bool) (e : Elector) : Step :=
  if e.isLeader then
    let lost := e.rest.stepDown.report .verifyLock .sessionLost
    match e.session with
    | none => lost
    | some s => if isClosed s then lost else e.rest.enter (.verifying s)
  else e.rest

-- A leader frees the lock before its session is given up.
def stop (e : Elector) : Step :=
  let st := (e.rest.setFlag false).pin none
  match e.session with
  | none => st.finish
  | some s => if e.isLeader then st.enter (.releasing s) else (st.did (.gaveBack s)).finish

def wake (isClosed : SessionId → Bool) (e : Elector) : Wake → Step
  | .check => e.check isClosed
  | .heartbeat => e.heartbeat isClosed
  | .stop => e.stop

def call? (e : Elector) : Option Call :=
  match e.phase with
  | .idle | .ended => none
  | .acquiring => some .acquire
  | .trying s => some (.tryLock s e.key)
  | .verifying s => some (.holdsLock s e.key)
  | .releasing s => some (.unlock s e.key)

def resume (e : Elector) (reply : Reply) : Step :=
  let idle := e.rest.enter .idle
  match e.phase, reply with
  | .acquiring, .session s => (e.rest.pin (some s)).enter (.trying s)
  | .acquiring, .failed fault => idle.report .acquireSession fault
  | .trying _, .answer true => (idle.setFlag true).log .info "acquired leadership" []
  | .trying _, .answer false => idle.log .debug "advisory lock is held elsewhere" []
  | .trying _, .failed fault => idle.report .tryLock fault
  | .verifying _, .answer true => idle
  | .verifying _, .answer false =>
    (idle.log .warn "advisory lock no longer held" []).stepDown
  | .verifying _, .failed fault => idle.stepDown.report .verifyLock fault
  | .releasing s, .answer _ => (e.rest.did (.gaveBack s)).finish
  | .releasing s, .failed fault => ((e.rest.did (.discarded s)).report .unlock fault).finish
  | _, _ => e.rest

-- The errors waiting to be read, which are then gone.
def takeErrors (e : Elector) : List Error × Elector := (e.errors, { e with errors := [] })

def hasEnded (e : Elector) : Bool := e.phase = .ended

end Elector

end PolyCache.Leader
