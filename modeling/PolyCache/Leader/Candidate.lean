import PolyCache.Backend
import PolyCache.Leader.Elector

-- An elector on a clock. One timer tells it to check and one to send a heartbeat; a timer that has
-- fired is armed again when the candidate next looks at it, after what it did about the firing.
namespace PolyCache.Leader

structure Timer where
  period : Duration
  -- nothing while the timer is not armed
  due : Option Time
  -- timers due together fire in the order in which they were armed
  armed : Nat
deriving DecidableEq

-- No timer fires twice within a millisecond.
def leastPeriod : Nat := 1000000

namespace Timer

def unarmed (period : Duration) : Timer := ⟨period, none, 0⟩

def arm (now : Time) (armed : Nat) (t : Timer) : Timer :=
  { t with due := some (now + max t.period.nanoseconds leastPeriod), armed }

-- Whether a timer that is looked at has fired. It is seen to do so once,
-- and armed at the next look.
def look (now : Time) (armed : Nat) (t : Timer) : Bool × Timer :=
  match t.due with
  | none => (false, t.arm now armed)
  | some due => if due ≤ now then (true, { t with due := none }) else (false, t)

end Timer

-- Candidates are numbered from zero in the order in which they are started.
abbrev CandidateId := Nat

structure Firing where
  time : Time
  armed : Nat
  candidate : CandidateId
deriving DecidableEq

-- Earlier timers first, then those armed first.
def Firing.before (f g : Firing) : Bool :=
  f.time < g.time || (f.time == g.time && f.armed ≤ g.armed)

inductive Standing (π : Type) where
  | free
  -- it waits in line for a place for its session
  | inLine
  -- it has been let in and has a place
  | admitted
  -- the server works on the call
  | served (work : π)
  | answered (reply : Reply)

structure Candidate (π : Type) where
  elector : Elector
  check : Timer
  heartbeat : Timer
  -- the candidate has been told to stop
  isDismissed : Bool
  standing : Standing π
  -- how many writes of the flag its observer has seen
  seenWrites : Nat

namespace Candidate

variable {π : Type}

def new (key : LockKey) (session : SessionId) (check heartbeat : Duration) : Candidate π :=
  ⟨.new key session, .unarmed check, .unarmed heartbeat, false, .free, 0⟩

-- What a candidate with nothing else to do finds to attend to. The order to stop comes first, then
-- the check, then the heartbeat.
def attend (now : Time) (armings : Nat) (c : Candidate π) : Option Wake × Candidate π :=
  if c.elector.hasEnded then (none, c)
  else if c.isDismissed then (some .stop, c)
  else
    let (fires, check) := c.check.look now armings
    if fires then (some .check, { c with check })
    else
      let (fires, heartbeat) := c.heartbeat.look now (armings + 1)
      (if fires then some .heartbeat else none, { c with check, heartbeat })

-- The timers that come due after one time and not after another.
def firings (since now : Time) (candidate : CandidateId) (c : Candidate π) : List Firing :=
  [c.check, c.heartbeat].filterMap fun t =>
    match t.due with
    | some due => if since < due && due ≤ now then some ⟨due, t.armed, candidate⟩ else none
    | none => none

end Candidate

end PolyCache.Leader
