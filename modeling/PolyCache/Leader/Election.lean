import PolyCache.Leader.Candidate
import PolyCache.Leader.Server

-- Several candidates on one lock server and one clock. A candidate becomes ready when one of its
-- timers fires, when it is told to stop, when its call is answered, and when there is a place for
-- the session it waits for. The ready ones are looked at in turn, and each goes on until it waits.
-- Calls that the server does not answer at once are carried on in rounds, in each of which the
-- server works on every call before the candidates go on.
namespace PolyCache.Leader

structure Election (σ : Type) [LockServer σ] where
  server : σ
  now : Time
  -- timers armed later get higher numbers, from this one on
  armings : Nat
  -- in the order of their numbers
  candidates : List (Candidate (LockServer.Work σ))
  -- the latest candidate of each name, in the order of the names
  names : List (String × CandidateId)
  -- the candidates to look at, without repeats
  ready : List CandidateId
  -- those that wait for a place, the longest waiting first
  line : List CandidateId
  -- those whose calls the server works on, in the order of its work
  calls : List CandidateId
  log : List LogEvent

def defaultCheckPeriod : Duration := .ofParts 5 0

def defaultHeartbeatPeriod : Duration := .ofParts 10 0

namespace Election

variable {σ : Type} [LockServer σ]

def new (server : σ) : Election σ := ⟨server, 0, 0, [], [], [], [], [], []⟩

def candidate? (e : Election σ) (id : CandidateId) : Option (Candidate (LockServer.Work σ)) :=
  e.candidates[id]?

def named? (e : Election σ) (name : String) :
    Option (CandidateId × Candidate (LockServer.Work σ)) :=
  (e.names.lookup name).bind fun id => (e.candidate? id).map fun c => (id, c)

def adjust (e : Election σ) (id : CandidateId)
    (change : Candidate (LockServer.Work σ) → Candidate (LockServer.Work σ)) : Election σ :=
  { e with candidates := e.candidates.modify id change }

def stand (e : Election σ) (id : CandidateId) (standing : Standing (LockServer.Work σ)) :
    Election σ :=
  e.adjust id fun c => { c with standing }

def schedule (e : Election σ) (id : CandidateId) : Election σ :=
  if e.ready.contains id then e else { e with ready := e.ready ++ [id] }

-- Lets in candidates in the order of the line for as long as there are places.
def admitFrom : List CandidateId → Election σ → Election σ
  | [], e => { e with line := [] }
  | id :: line, e =>
    match LockServer.admit? e.server with
    | some server => admitFrom line (({ e with server }.stand id .admitted).schedule id)
    | none => { e with line := id :: line }

-- Takes over the server after a change. A place that has become free goes to the line at once.
def setServer (e : Election σ) (server : σ) : Election σ := admitFrom e.line { e with server }

-- Lets a candidate in that asks for a session, or has it wait.
def enterLine (e : Election σ) (id : CandidateId) : Election σ :=
  match LockServer.admit? e.server with
  | some server => { e with server }.stand id .admitted
  | none => { e with line := e.line ++ [id] }.stand id .inLine

-- Takes over what the server has come to with the call of a candidate.
def receive (e : Election σ) (id : CandidateId)
    (result : Progress (LockServer.Work σ) × σ) : Election σ :=
  let (progress, server) := result
  (e.setServer server).stand id
    (match progress with
      | .pending work => .served work
      | .reply reply => .answered reply)

def apply (e : Election σ) : Effect → Election σ
  | .gaveBack session => e.setServer (LockServer.giveBack e.server session)
  | .discarded session => e.setServer (LockServer.discard e.server session)
  | .reported _ => e
  | .logged event => { e with log := e.log ++ [event] }

def take (e : Election σ) (id : CandidateId) (st : Step) : Election σ :=
  st.effects.foldl apply
    (e.adjust id fun c => { c with elector := st.elector, standing := .free })

-- Has a candidate with nothing else to do attend to its timers and the order to stop. The result
-- tells whether there was something.
def attend (e : Election σ) (id : CandidateId) (c : Candidate (LockServer.Work σ)) :
    Bool × Election σ :=
  let (wake, c) := c.attend e.now e.armings
  let e := { e with armings := e.armings + 2 }.adjust id fun _ => c
  match wake with
  | some wake => (true, e.take id (c.elector.wake (LockServer.isClosed e.server) wake))
  | none => (false, e)

def goOn (id : CandidateId) : (fuel : Nat) → Election σ → Election σ
  | 0, e => e
  | fuel + 1, e =>
    match e.candidate? id with
    | none => e
    | some c =>
      match c.standing with
      | .inLine => e
      | .served _ => { e with calls := e.calls ++ [id] }
      | .admitted => goOn id fuel (e.receive id (LockServer.start e.server .acquire))
      | .answered reply => goOn id fuel (e.take id (c.elector.resume reply))
      | .free =>
        match c.elector.call? with
        | some .acquire => goOn id fuel (e.enterLine id)
        | some call => goOn id fuel (e.receive id (LockServer.start e.server call))
        | none =>
          match e.attend id c with
          | (true, e) => goOn id fuel e
          | (false, e) => e

-- A candidate does not go on for more steps than this: it attends to three things at most, and each
-- takes it two calls at most.
def stepBound : Nat := 32

-- Looks at the candidates that are ready, and at those that become ready meanwhile.
def goOnAll : (fuel : Nat) → Election σ → Election σ
  | 0, e => e
  | fuel + 1, e =>
    match e.ready with
    | [] => e
    | id :: ready => goOnAll fuel (goOn id stepBound { e with ready })

-- The candidates' part of a round. None is looked at more than twice: once it may join the
-- line, and then it is let in.
def react (e : Election σ) : Election σ := goOnAll (2 * e.candidates.length) e

def proceed (e : Election σ) (id : CandidateId) : Election σ :=
  match e.candidate? id with
  | none => e
  | some c =>
    match c.standing with
    | .served work => (e.receive id (LockServer.proceed e.server work)).schedule id
    | _ => e

def endRound (e : Election σ) : Election σ := { e with server := LockServer.endRound e.server }

def serve (e : Election σ) : Election σ := (e.calls.foldl proceed { e with calls := [] }).endRound

-- Rounds until the server has no calls to work on.
def rounds : (fuel : Nat) → Election σ → Election σ
  | 0, e => e.endRound
  | fuel + 1, e => if e.calls.isEmpty then e.endRound else rounds fuel e.serve.react

-- What one candidate does at one time takes no more rounds than this.
def roundBound : Nat := 8

-- Lets the ready candidates run until all wait for the clock or for a place.
def run (e : Election σ) : Election σ := rounds (roundBound * e.candidates.length) e.react

def firings (e : Election σ) (since : Time) : List Firing :=
  let all := e.candidates.zipIdx.flatMap fun (c, id) => c.firings since e.now id
  all.mergeSort Firing.before

def advance (e : Election σ) (span : Duration) : Election σ :=
  let since := e.now
  let e := { e with now := e.now + span.nanoseconds }
  ((e.firings since).foldl (fun e firing => e.schedule firing.candidate) e).run

-- Brings a call to its end, with nothing else going on.
def finishCall : (fuel : Nat) → Progress (LockServer.Work σ) × σ → Reply × σ
  | _, (.reply reply, s) => (reply, s)
  | 0, (.pending _, s) => (.failed .poolExhausted, s)
  | fuel + 1, (.pending work, s) => finishCall fuel (LockServer.proceed s work)

-- A session for a candidate to begin with. There is no waiting for a place.
def firstSession (server : σ) : Reply × σ :=
  match LockServer.admit? server with
  | some server => finishCall 2 (LockServer.start server .acquire)
  | none => (.failed .poolExhausted, server)

def started (key : LockKey) : LogEvent :=
  ⟨.info, "leader elector started", [("leader.lock_key", toString key.toInt)]⟩

def dismiss (e : Election σ) (id : CandidateId) : Election σ :=
  (e.adjust id fun c => { c with isDismissed := true }).schedule id

-- Starts a candidate. One that has had the name so far is told to stop.
def start (e : Election σ) (name : String) (key : LockKey) (check heartbeat : Duration) :
    Except Error Unit × Election σ :=
  let (reply, server) := firstSession e.server
  let e := e.setServer server
  match reply with
  | .session session =>
    let id := e.candidates.length
    let former := e.names.lookup name
    let e :=
      { e with
        candidates := e.candidates ++ [Candidate.new key session check heartbeat]
        names := Entries.insert Entries.stringLess name id e.names
        log := e.log ++ [started key] }.schedule id
    (.ok (), (former.elim e e.dismiss).run)
  | .failed fault => (.error ⟨.acquireSession, fault⟩, e)
  | .answer _ => (.error ⟨.acquireSession, .poolExhausted⟩, e)

def stop (e : Election σ) (name : String) : Election σ :=
  ((e.names.lookup name).elim e e.dismiss).run

def isLeader (e : Election σ) (name : String) : Bool :=
  (e.named? name).any fun (_, c) => c.elector.isLeader

-- Who leads, by name, but for those that have been told to stop.
def leaders (e : Election σ) : List (String × Option Bool) :=
  e.names.map fun (name, id) =>
    (name, ((e.candidate? id).filter fun c => !c.isDismissed).map fun c => c.elector.isLeader)

def takeErrors (e : Election σ) (name : String) : List Error × Election σ :=
  match e.named? name with
  | none => ([], e)
  | some (id, c) =>
    let (errors, elector) := c.elector.takeErrors
    (errors, e.adjust id fun c => { c with elector })

-- What the observer of a flag finds: whether it has been written since the last look, which cannot
-- be said once the elector has ended, and its value.
structure Observation where
  changed : Option Bool
  value : Bool
deriving DecidableEq

def observe (e : Election σ) (name : String) : Option Observation × Election σ :=
  match e.named? name with
  | none => (none, e)
  | some (id, c) =>
    let writes := c.elector.flagWrites
    let changed := if c.elector.hasEnded then none else some (writes != c.seenWrites)
    (some ⟨changed, c.elector.isLeader⟩, e.adjust id fun c => { c with seenWrites := writes })

def takeLog (e : Election σ) : List LogEvent × Election σ := (e.log, { e with log := [] })

end Election

end PolyCache.Leader
