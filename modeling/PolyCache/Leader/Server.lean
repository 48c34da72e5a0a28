import PolyCache.Leader.Locks

-- Where electors get sessions and locks. A server may take several rounds for a call; all calls
-- that wait are carried on round by round. Here is the server that answers at once.
namespace PolyCache.Leader

-- A call is answered, or some work on it is left.
inductive Progress (π : Type) where
  | reply (reply : Reply)
  | pending (work : π)

class LockServer (σ : Type) where
  Work : Type
  -- sets a place for one more session aside, if one is free
  admit? : σ → Option σ
  -- begins with a call; one for a session needs a place that has been set aside
  start : σ → Call → Progress Work × σ
  proceed : σ → Work → Progress Work × σ
  isClosed : σ → SessionId → Bool
  giveBack : σ → SessionId → σ
  discard : σ → SessionId → σ
  -- what the server does once the calls of a round have been carried on
  endRound : σ → σ

inductive CallName where
  | acquire
  | tryLock
  | holdsLock
  | unlock
deriving DecidableEq, Repr

def CallName.text : CallName → String
  | .acquire => "acquire"
  | .tryLock => "try_lock"
  | .holdsLock => "holds_lock"
  | .unlock => "unlock"

inductive LocalEvent where
  | acquired (session : SessionId)
  | acquireFailed
  -- nothing is the answer of a call that failed
  | called (session : SessionId) (name : CallName) (key : LockKey) (answer : Option Bool)
  | ended (session : SessionId)
deriving DecidableEq

def sessionText (session : SessionId) : String := "session " ++ toString session

def LocalEvent.text : LocalEvent → String
  | .acquired session => "acquire: " ++ sessionText session
  | .acquireFailed => "acquire: error"
  | .called session name key answer =>
    sessionText session ++ ": " ++ name.text ++ " " ++ toString key.toInt ++ ": " ++
      (match answer with
        | some true => "true"
        | some false => "false"
        | none => "error")
  | .ended session => sessionText session ++ ": ended"

-- A lock server in the same process. Sessions are numbered from one.
structure LocalServer where
  locks : Locks
  opened : Nat
  -- sessions in use, and those among them that have been ended from outside
  inUse : List SessionId
  closed : List SessionId
  failing : List CallName
  events : List LocalEvent
deriving DecidableEq

namespace LocalServer

def new : LocalServer := ⟨.empty, 0, [], [], [], []⟩

def record (s : LocalServer) (event : LocalEvent) : LocalServer :=
  { s with events := s.events ++ [event] }

def acquire (s : LocalServer) : Reply × LocalServer :=
  if s.failing.contains .acquire then (.failed .poolExhausted, s.record .acquireFailed)
  else
    let session := s.opened + 1
    (.session session,
      { s with opened := session, inUse := s.inUse ++ [session] }.record (.acquired session))

-- A call on a session: it fails, or answers with the locks changed.
def onSession (s : LocalServer) (name : CallName) (session : SessionId) (key : LockKey)
    (act : Locks → Bool × Locks) : Reply × LocalServer :=
  if s.failing.contains name then
    (.failed (.callFailed name.text), s.record (.called session name key none))
  else
    let (answer, locks) := act s.locks
    (.answer answer, { s with locks }.record (.called session name key (some answer)))

def call (s : LocalServer) : Call → Reply × LocalServer
  | .acquire => s.acquire
  | .tryLock session key => s.onSession .tryLock session key fun l =>
    let l := l.take key session
    (l.isHeldBy key session, l)
  | .holdsLock session key => s.onSession .holdsLock session key fun l =>
    (l.isHeldBy key session, l)
  | .unlock session key => s.onSession .unlock session key fun l =>
    (l.isHeldBy key session, l.release key session)

-- A session that is given up, in whatever way, ends.
def finish (s : LocalServer) (session : SessionId) : LocalServer :=
  { s with
    locks := s.locks.releaseAll (· == session)
    inUse := s.inUse.filter fun other => !(other == session)
    closed := s.closed.filter fun other => !(other == session) }.record (.ended session)

-- Ends all sessions in use behind their owners' backs.
def kill (s : LocalServer) : LocalServer :=
  { s with locks := s.locks.releaseAll s.inUse.contains, closed := s.inUse }

def takeEvents (s : LocalServer) : List LocalEvent × LocalServer :=
  (s.events, { s with events := [] })

instance : LockServer LocalServer where
  Work := Empty
  admit? s := some s
  start s c :=
    let (reply, s) := s.call c
    (.reply reply, s)
  proceed _ work := nomatch work
  isClosed s session := s.closed.contains session
  giveBack := finish
  discard := finish
  endRound s := s

end LocalServer

end PolyCache.Leader
