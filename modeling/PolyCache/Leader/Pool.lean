import PolyCache.Leader.Server

-- The lock server behind a pool of database connections. A session is a connection; one that is
-- given back waits to be used again, the longest waiting first, and one that is discarded is
-- closed. The pool has a fixed number of places; a session has one until it is given up, and also
-- keeps it when its connection has ended meanwhile. A connection that is refused is refused at
-- once. Connecting takes one round, a query two: it is prepared, then executed. The server notices
-- that a connection was closed after the queries of the next round.
namespace PolyCache.Leader

inductive PoolEvent where
  | refused
  | connected (connection : SessionId)
  | prepared (query : String) (connection : SessionId)
  | executed (query : String) (key : LockKey) (connection : SessionId)
deriving DecidableEq

-- Refused connections come first, all else by the number of the connection.
def PoolEvent.rank : PoolEvent → Nat
  | .refused => 0
  | .connected n => n
  | .prepared _ n => n
  | .executed _ _ n => n

inductive PoolWork where
  | connecting (connection : SessionId)
  | preparing (name : CallName) (connection : SessionId) (key : LockKey)
  | executing (name : CallName) (connection : SessionId) (key : LockKey)
deriving DecidableEq

structure Pool where
  locks : Locks
  opened : Nat
  -- places that are in use or set aside
  taken : Nat
  -- connections that the server has not ended
  alive : List SessionId
  -- connections that wait, the longest waiting first
  idle : List SessionId
  -- connections that have been closed, while the server still keeps their locks
  closing : List SessionId
  -- new connections are refused
  isRefusing : Bool
  failing : List CallName
  events : List PoolEvent
deriving DecidableEq

def query : CallName → String
  | .acquire => ""
  | .tryLock => "SELECT pg_try_advisory_lock($1)"
  | .unlock => "SELECT pg_advisory_unlock($1)"
  | .holdsLock =>
    "SELECT COUNT(*) FROM pg_locks WHERE locktype = 'advisory'" ++
      " AND classid::bigint = (($1::bigint >> 32) & 4294967295)" ++
      " AND objid::bigint = ($1::bigint & 4294967295)" ++
      " AND objsubid = 1 AND granted AND pid = pg_backend_pid()"

namespace Pool

def capacity : Nat := 8

def new : Pool := ⟨.empty, 0, 0, [], [], [], false, [], []⟩

def record (p : Pool) (event : PoolEvent) : Pool := { p with events := p.events ++ [event] }

def isAlive (p : Pool) (connection : SessionId) : Bool := p.alive.contains connection

def admit? (p : Pool) : Option Pool :=
  if p.taken < capacity then some { p with taken := p.taken + 1 } else none

def leave (p : Pool) : Pool := { p with taken := p.taken - 1 }

-- Opens a connection. The place of one that is refused becomes free.
def connect (p : Pool) : Progress PoolWork × Pool :=
  if p.isRefusing then
    (.reply (.failed (.database .connectionRefused)), (p.record .refused).leave)
  else
    let c := p.opened + 1
    (.pending (.connecting c),
      { p with opened := c, alive := p.alive ++ [c] }.record (.connected c))

-- Takes the longest waiting living connection; dead ones are dropped on the way. Without one a new
-- connection is opened.
def acquire (p : Pool) : Progress PoolWork × Pool :=
  match p.idle.dropWhile fun c => !p.isAlive c with
  | c :: idle => (.reply (.session c), { p with idle })
  | [] => { p with idle := [] }.connect

def startQuery (p : Pool) (name : CallName) (connection : SessionId) (key : LockKey) :
    Progress PoolWork × Pool :=
  if p.isAlive connection then (.pending (.preparing name connection key), p)
  else (.reply (.failed (.database .connectionClosed)), p)

def start (p : Pool) : Call → Progress PoolWork × Pool
  | .acquire => p.acquire
  | .tryLock connection key => p.startQuery .tryLock connection key
  | .holdsLock connection key => p.startQuery .holdsLock connection key
  | .unlock connection key => p.startQuery .unlock connection key

-- What a query answers, and the locks after it.
def answer (l : Locks) (connection : SessionId) (key : LockKey) : CallName → Bool × Locks
  | .tryLock =>
    let l := l.take key connection
    (l.isHeldBy key connection, l)
  | .holdsLock => (0 < Locks.countHeld l.rows key connection, l)
  | .unlock => (l.isHeldBy key connection, l.release key connection)
  | .acquire => (false, l)

def execute (p : Pool) (name : CallName) (connection : SessionId) (key : LockKey) :
    Reply × Pool :=
  let p := p.record (.executed (query name) key connection)
  if p.failing.contains name then (.failed (.database .statementFailed), p)
  else
    let (yes, locks) := answer p.locks connection key name
    (.answer yes, { p with locks })

def proceed (p : Pool) : PoolWork → Progress PoolWork × Pool
  | .connecting connection => (.reply (.session connection), p)
  | .preparing name connection key =>
    (.pending (.executing name connection key), p.record (.prepared (query name) connection))
  | .executing name connection key =>
    let (reply, p) := p.execute name connection key
    (.reply reply, p)

def giveBack (p : Pool) (connection : SessionId) : Pool :=
  { p.leave with idle := p.idle ++ [connection] }

def discard (p : Pool) (connection : SessionId) : Pool :=
  { p.leave with
    alive := p.alive.filter fun c => !(c == connection)
    closing := p.closing ++ [connection] }

-- The server frees the locks of closed connections.
def endRound (p : Pool) : Pool :=
  { p with locks := p.locks.releaseAll p.closing.contains, closing := [] }

def kill (p : Pool) : Pool :=
  { p with locks := p.locks.releaseAll p.alive.contains, alive := [] }

-- The events since the last time they were taken, by connection.
def takeEvents (p : Pool) : List PoolEvent × Pool :=
  (p.events.mergeSort fun a b => a.rank ≤ b.rank, { p with events := [] })

instance : LockServer Pool where
  Work := PoolWork
  admit? := admit?
  start := start
  proceed := proceed
  isClosed p connection := !p.isAlive connection
  giveBack := giveBack
  discard := discard
  endRound := endRound

end Pool

end PolyCache.Leader
