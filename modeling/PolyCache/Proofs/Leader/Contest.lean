import PolyCache.Leader.Locks

-- Electors that compete for one key, with their acts in any order. Between two acts of an elector
-- anything may happen: the server carries out a call at one moment, the elector learns of it at
-- another, and a session that the elector lets go of reaches the pool at a third.
namespace PolyCache.Leader

-- A session that an elector has let go of, in order or discarded.
structure Parting where
  session : SessionId
  isIntact : Bool
deriving DecidableEq

def Effect.parting? : Effect → Option Parting
  | .gaveBack session => some ⟨session, true⟩
  | .discarded session => some ⟨session, false⟩
  | .reported _ | .logged _ => none

def Step.partings (st : Step) : List Parting := st.effects.filterMap Effect.parting?

structure Contender where
  elector : Elector
  -- sessions on their way out, first the one let go of first
  partings : List Parting
  -- the answer to the elector's call, on its way in
  reply : Option Reply
deriving DecidableEq

-- What becomes of a call. A failed call may have been carried out all the same.
inductive Fate where
  | granted (session : SessionId)
  | answered (yes : Bool)
  | unheard (fault : Fault)
  | failed (fault : Fault)
deriving DecidableEq

abbrev ContenderId := Nat

inductive Act where
  -- an elector starts with its first session
  | start (session : SessionId)
  -- a timer fires, or the elector is told to stop or dropped; it may see that its session is closed
  | wake (contender : ContenderId) (cause : Wake) (notices : Bool)
  | serve (contender : ContenderId) (fate : Fate)
  | deliver (contender : ContenderId)
  -- a session let go of arrives; one given back in order may be kept for later use
  | part (contender : ContenderId) (keeps : Bool)
  | read (contender : ContenderId)
  -- the server ends a session that has been closed on purpose
  | retire (session : SessionId)
  | disconnect (session : SessionId)
  -- the key goes to an outsider, or to nobody, whoever had it
  | usurp (outsider : Option SessionId)
deriving DecidableEq

-- Whose act it is, if it is that of a contender.
def Act.contender? : Act → Option ContenderId
  | .wake i _ _ | .serve i _ | .deliver i | .part i _ | .read i => some i
  | .start _ | .retire _ | .disconnect _ | .usurp _ => none

structure Contest where
  key : LockKey
  locks : Locks
  -- how often the holder has taken the key
  depth : Nat
  -- all sessions there have been, and those that the server has not ended
  opened : List SessionId
  alive : List SessionId
  -- sessions in the pool, and closed ones that the server still has
  idle : List SessionId
  closing : List SessionId
  contenders : List Contender
deriving DecidableEq

namespace Contender

def new (key : LockKey) (session : SessionId) : Contender := ⟨.new key session, [], none⟩

def IsSettled (c : Contender) : Prop := c.partings = [] ∧ c.reply = none

def after (st : Step) : Contender := ⟨st.elector, st.partings, none⟩

end Contender

namespace Contest

def new (key : LockKey) : Contest := ⟨key, .empty, 0, [], [], [], [], []⟩

def put (w : Contest) (i : ContenderId) (c : Contender) : Contest :=
  { w with contenders := w.contenders.set i c }

def holder? (w : Contest) : Option SessionId := w.locks.holder? w.key

-- The sessions that are seen to be closed: only such as are.
def isSeenClosed (w : Contest) (notices : Bool) (session : SessionId) : Bool :=
  notices && !w.alive.contains session

-- Hands out a session from the pool, or one that is new.
def handOut? (w : Contest) (session : SessionId) : Option Contest :=
  if session ∈ w.idle then some { w with idle := w.idle.erase session }
  else if session ∈ w.opened then none
  else some { w with opened := session :: w.opened, alive := session :: w.alive }

-- What the server does on a session, unless it has ended it. Its answer comes with it. A key that
-- is taken twice is to be freed twice.
def perform? (w : Contest) : Call → Option (Bool × Contest)
  | .acquire => none
  | .tryLock session key =>
    if session ∈ w.alive then
      let locks := w.locks.take key session
      let yes := locks.isHeldBy key session
      some (yes, { w with locks, depth := if yes then w.depth + 1 else w.depth })
    else none
  | .holdsLock session key =>
    if session ∈ w.alive then some (w.locks.isHeldBy key session, w) else none
  | .unlock session key =>
    if session ∈ w.alive then
      some (w.locks.isHeldBy key session,
        if !w.locks.isHeldBy key session then w
        else if w.depth ≤ 1 then { w with locks := w.locks.release key session, depth := 0 }
        else { w with depth := w.depth - 1 })
    else none

def finish (w : Contest) (session : SessionId) : Contest :=
  { w with
    locks := w.locks.releaseAll (· == session)
    depth := if w.holder? = some session then 0 else w.depth
    alive := w.alive.filter (· ≠ session) }

-- Gives the key to an outsider or frees it.
def yieldTo (w : Contest) : Option SessionId → Contest
  | none => { w with locks := w.locks.free w.key, depth := 0 }
  | some session =>
    { w with
      locks := w.locks.give w.key session
      depth := 1
      opened := session :: w.opened
      alive := session :: w.alive }

-- Where a session goes that has been let go of.
def dispose (w : Contest) (p : Parting) (keeps : Bool) : Contest :=
  if p.isIntact && keeps then { w with idle := w.idle ++ [p.session] }
  else { w with closing := w.closing ++ [p.session] }

inductive Next : Contest → Act → Contest → Prop where
  | start {w u : Contest} {s : SessionId} (grant : w.handOut? s = some u) :
      Next w (.start s) { u with contenders := u.contenders ++ [.new w.key s] }
  | wake {w : Contest} {i : ContenderId} {c : Contender} (found : w.contenders[i]? = some c)
      (settled : c.IsSettled) (idle : c.elector.phase = .idle) (cause : Wake) (notices : Bool) :
      Next w (.wake i cause notices)
        (w.put i (.after (c.elector.wake (w.isSeenClosed notices) cause)))
  | grant {w u : Contest} {i : ContenderId} {c : Contender} (found : w.contenders[i]? = some c)
      (settled : c.IsSettled) (call : c.elector.call? = some .acquire) {s : SessionId}
      (grant : w.handOut? s = some u) :
      Next w (.serve i (.granted s)) (u.put i { c with reply := some (.session s) })
  | answer {w u : Contest} {i : ContenderId} {c : Contender} (found : w.contenders[i]? = some c)
      (settled : c.IsSettled) {call : Call} (calls : c.elector.call? = some call) {yes : Bool}
      (done : w.perform? call = some (yes, u)) :
      Next w (.serve i (.answered yes)) (u.put i { c with reply := some (.answer yes) })
  | unheard {w u : Contest} {i : ContenderId} {c : Contender} (found : w.contenders[i]? = some c)
      (settled : c.IsSettled) {call : Call} (calls : c.elector.call? = some call) {yes : Bool}
      (done : w.perform? call = some (yes, u)) (fault : Fault) :
      Next w (.serve i (.unheard fault)) (u.put i { c with reply := some (.failed fault) })
  | fail {w : Contest} {i : ContenderId} {c : Contender} (found : w.contenders[i]? = some c)
      (settled : c.IsSettled) {call : Call} (calls : c.elector.call? = some call) (fault : Fault) :
      Next w (.serve i (.failed fault)) (w.put i { c with reply := some (.failed fault) })
  | deliver {w : Contest} {i : ContenderId} {c : Contender} (found : w.contenders[i]? = some c)
      (gone : c.partings = []) {reply : Reply} (replied : c.reply = some reply) :
      Next w (.deliver i) (w.put i (.after (c.elector.resume reply)))
  | part {w : Contest} {i : ContenderId} {c : Contender} (found : w.contenders[i]? = some c)
      {p : Parting} {partings : List Parting} (first : c.partings = p :: partings) (keeps : Bool) :
      Next w (.part i keeps) ((w.put i { c with partings }).dispose p keeps)
  | read {w : Contest} {i : ContenderId} {c : Contender} (found : w.contenders[i]? = some c) :
      Next w (.read i) (w.put i { c with elector := c.elector.takeErrors.2 })
  | retire {w : Contest} {s : SessionId} (closed : s ∈ w.closing) : Next w (.retire s) (w.finish s)
  | disconnect {w : Contest} (s : SessionId) : Next w (.disconnect s) (w.finish s)
  | usurp {w : Contest} {outsider : Option SessionId} (fresh : ∀ s ∈ outsider, s ∉ w.opened) :
      Next w (.usurp outsider) (w.yieldTo outsider)

-- The acts of a run, the latest first, each with the state before it.
abbrev History := List (Contest × Act)

inductive Run (start : Contest) : History → Contest → Prop where
  | rest : Run start [] start
  | step {h : History} {w u : Contest} {a : Act} (before : Run start h w) (next : w.Next a u) :
      Run start ((w, a) :: h) u

def Leads (w : Contest) (i : ContenderId) : Prop :=
  ∃ c, w.contenders[i]? = some c ∧ c.elector.isLeader = true

def Pins (w : Contest) (i : ContenderId) (s : SessionId) : Prop :=
  ∃ c, w.contenders[i]? = some c ∧ c.elector.session = some s

def call? (w : Contest) (i : ContenderId) : Option Call :=
  w.contenders[i]?.bind fun c => c.elector.call?

-- The server tells a contender that it holds the lock.
def TakesLock (i : ContenderId) (s : SessionId) (w : Contest) (a : Act) : Prop :=
  a = .serve i (.answered true) ∧ ∃ key, w.call? i = some (.tryLock s key)

def VerifiesLock (i : ContenderId) (s : SessionId) (w : Contest) (a : Act) : Prop :=
  a = .serve i (.answered true) ∧ ∃ key, w.call? i = some (.holdsLock s key)

def Confirms (i : ContenderId) (w : Contest) (a : Act) : Prop :=
  ∃ s, TakesLock i s w a ∨ VerifiesLock i s w a

-- A session loses its connection, or the lock that it holds.
def Loses (s : SessionId) (w : Contest) (a : Act) : Prop :=
  a = .disconnect s ∨ w.holder? = some s ∧ ∃ outsider, a = .usurp outsider

-- The session has lost its connection or its lock, and since then the contender has not been told
-- that it holds the lock.
def Stale (i : ContenderId) (s : SessionId) : History → Prop
  | [] => False
  | (w, a) :: h => ¬Confirms i w a ∧ (Loses s w a ∨ Stale i s h)

-- The contender waits for the answer to a heartbeat.
def Beats (i : ContenderId) (w : Contest) : Prop :=
  ∃ c s, w.contenders[i]? = some c ∧ c.elector.phase = .verifying s

-- A heartbeat of the contender from its beginning to its end.
def Heartbeat (i : ContenderId) (w u : Contest) : Prop :=
  ∃ notices v h, w.Next (.wake i .heartbeat notices) v ∧ Run v h u ∧
    (∀ x ∈ h, Beats i x.1) ∧ ¬Beats i u

-- The contender has obtained a session, and then the lock on it.
def Regains (i : ContenderId) (h : History) : Prop :=
  ∃ s later x earlier, h = later ++ x :: earlier ∧ TakesLock i s x.1 x.2 ∧
    ∃ y ∈ earlier, y.2 = .serve i (.granted s)

-- From now on the contender leads only with a lock that it has yet to take on a session that it has
-- yet to obtain.
def StaysDown (i : ContenderId) (w : Contest) : Prop :=
  ∀ h u, Run w h u → u.Leads i → Regains i h

end Contest

end PolyCache.Leader
