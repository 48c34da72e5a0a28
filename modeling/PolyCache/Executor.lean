import PolyCache.Backend

-- Calls that take more than a moment, and work in the background. Whoever makes a call polls its
-- future until it is ready, or drops it and never learns what became of it. Tasks are polled by the
-- executor, and nobody can drop them.
namespace PolyCache

inductive Polled (φ : Type) where
  | ready (answer : Answer)
  -- what is left to do
  | pending (rest : φ)

-- What one poll does: the state that everyone shares, the tasks that it spawns, what has become of
-- the future, and what it logs.
structure Turn (σ φ : Type) where
  state : σ
  spawned : List φ
  polled : Polled φ
  log : List LogEvent

-- How futures behave. A poll sees the answers of all tasks so far, so their number is the number of
-- the next one.
abbrev Behavior (σ φ : Type) := List (Option Answer) → Time → σ → φ → Turn σ φ

-- What a caller has in hands.
inductive Call (φ : Type) where
  | future (polled : Polled φ)
  -- of a task, by its number
  | handle (task : Nat)
  | dropped

structure Executor (σ φ : Type) where
  now : Time
  state : σ
  -- in the order in which they were spawned, those that are ready included
  tasks : List (Polled φ)
  calls : List (Call φ)
  log : List LogEvent

variable {σ φ ψ : Type}

namespace Polled

def answer? : Polled φ → Option Answer
  | .ready answer => some answer
  | .pending _ => none

def map (f : φ → ψ) : Polled φ → Polled ψ
  | .ready answer => .ready answer
  | .pending rest => .pending (f rest)

end Polled

namespace Turn

-- All is done in one go.
def whole (o : Outcome σ) : Turn σ φ := ⟨o.state, [], .ready o.answer, o.log⟩

def map (f : φ → ψ) (turn : Turn σ φ) : Turn σ ψ :=
  ⟨turn.state, turn.spawned.map f, turn.polled.map f, turn.log⟩

-- Waits for a task.
def join (s : σ) (answers : List (Option Answer)) (task : Nat) (waiting : φ) : Turn σ φ :=
  match answers[task]? with
  | some (some answer) => ⟨s, [], .ready answer, []⟩
  | _ => ⟨s, [], .pending waiting, []⟩

end Turn

-- The futures of a backend whose calls never wait.
def atOnce [Backend σ] : Behavior σ Request :=
  fun _ now s request => .whole (Backend.call now s request)

namespace Executor

-- What happens: a call is made, or a task is spawned whose handle the caller gets; a caller polls
-- or drops what he has; a task is polled; someone else changes the state; time passes.
inductive Event (σ φ : Type) where
  | enter (future : φ)
  | launch (future : φ)
  | poll (call : Nat)
  | drop (call : Nat)
  | run (task : Nat)
  | happen (change : Time → σ → σ)
  | tick (now : Time)

-- Nobody does anything but poll.
def Event.isPoll : Event σ φ → Bool
  | .poll _ => true
  | .run _ => true
  | _ => false

def start (now : Time) (s : σ) : Executor σ φ := ⟨now, s, [], [], []⟩

def answers (r : Executor σ φ) : List (Option Answer) := r.tasks.map Polled.answer?

def enter (r : Executor σ φ) (future : φ) : Executor σ φ :=
  { r with calls := r.calls ++ [.future (.pending future)] }

def launch (r : Executor σ φ) (future : φ) : Executor σ φ :=
  { r with
    tasks := r.tasks ++ [.pending future]
    calls := r.calls ++ [.handle r.tasks.length] }

-- Takes up what a poll did.
def take (r : Executor σ φ) (turn : Turn σ φ) : Executor σ φ :=
  { r with
    state := turn.state
    tasks := r.tasks ++ turn.spawned.map .pending
    log := r.log ++ turn.log }

def putCall (r : Executor σ φ) (call : Nat) (c : Call φ) : Executor σ φ :=
  { r with calls := r.calls.set call c }

def putTask (r : Executor σ φ) (task : Nat) (polled : Polled φ) : Executor σ φ :=
  { r with tasks := r.tasks.set task polled }

def turn (b : Behavior σ φ) (r : Executor σ φ) (future : φ) : Turn σ φ :=
  b r.answers r.now r.state future

-- A future that is ready, a handle and a call that was dropped have nothing to do.
def poll (b : Behavior σ φ) (r : Executor σ φ) (call : Nat) : Executor σ φ :=
  match r.calls[call]? with
  | some (.future (.pending future)) =>
    let turn := r.turn b future
    (r.take turn).putCall call (.future turn.polled)
  | _ => r

def drop (r : Executor σ φ) (call : Nat) : Executor σ φ := r.putCall call .dropped

def run (b : Behavior σ φ) (r : Executor σ φ) (task : Nat) : Executor σ φ :=
  match r.tasks[task]? with
  | some (.pending future) =>
    let turn := r.turn b future
    (r.take turn).putTask task turn.polled
  | _ => r

def step (b : Behavior σ φ) (r : Executor σ φ) : Event σ φ → Executor σ φ
  | .enter future => r.enter future
  | .launch future => r.launch future
  | .poll call => r.poll b call
  | .drop call => r.drop call
  | .run task => r.run b task
  | .happen change => { r with state := change r.now r.state }
  | .tick now => { r with now }

def after (b : Behavior σ φ) (r : Executor σ φ) (events : List (Event σ φ)) : Executor σ φ :=
  events.foldl (step b) r

-- What the caller has learned.
def answer? (r : Executor σ φ) (call : Nat) : Option Answer :=
  match r.calls[call]? with
  | some (.future polled) => polled.answer?
  | some (.handle task) => r.answers[task]?.join
  | _ => none

-- Polls each task once, those that are spawned meanwhile excepted.
def round (b : Behavior σ φ) (r : Executor σ φ) : Executor σ φ :=
  (List.range r.tasks.length).foldl (run b) r

def isSettled (r : Executor σ φ) : Bool := r.answers.all (·.isSome)

-- Runs tasks until none is left, for so many rounds.
def settle (b : Behavior σ φ) : Nat → Executor σ φ → Executor σ φ
  | 0, r => r
  | rounds + 1, r => if r.isSettled then r else settle b rounds (r.round b)

end Executor

end PolyCache
