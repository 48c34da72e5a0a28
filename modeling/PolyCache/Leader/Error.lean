import PolyCache.Error

-- What goes wrong while a lock is held or sought.
namespace PolyCache.Leader

inductive Operation where
  | acquireSession
  | tryLock
  | verifyLock
  | unlock
deriving DecidableEq, Repr

inductive Fault where
  | poolExhausted
  -- a call on a session failed
  | callFailed (name : String)
  -- the session ended while the lock was held
  | sessionLost
  | database (cause : Cause)
deriving DecidableEq

structure Error where
  operation : Operation
  fault : Fault
deriving DecidableEq

def Operation.debugText : Operation → String
  | .acquireSession => "AcquireSession"
  | .tryLock => "TryLock"
  | .verifyLock => "VerifyLock"
  | .unlock => "Unlock"

def Operation.text : Operation → String
  | .acquireSession => "acquire a database session"
  | .tryLock => "acquire the advisory lock"
  | .verifyLock => "verify advisory lock ownership"
  | .unlock => "release the advisory lock"

def Fault.text : Fault → String
  | .poolExhausted => "pool exhausted"
  | .callFailed name => name ++ " query failed"
  | .sessionLost => "database session was lost"
  | .database cause => cause.text

namespace Error

def message (e : Error) : String :=
  causedBy ("leader election failed to " ++ e.operation.text) e.fault.text

def recovery (_ : Error) : Recovery := .retry

end Error

end PolyCache.Leader
