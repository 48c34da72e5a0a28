import PolyCache.Codec
import PolyCache.Registry
import PolyCache.Relational.Identifier
import PolyCache.Relational.Link

-- The cache that keeps each collection in a table of a relational database. Reads leave out rows
-- that have reached the end of their lifetime; reapers delete them, each for one collection, once
-- when it is registered and then whenever its timer fires, if the owner approves.
namespace PolyCache

open Relational

structure Reaper where
  collection : Collection
  -- between two sweeps
  period : Duration
  -- when the timer fires next
  due : Time
deriving DecidableEq

-- A timer never fires twice within a millisecond.
def Reaper.leastPeriod : Nat := 1000000

def Reaper.arm (now : Time) (c : Collection) (period : Duration) : Reaper :=
  ⟨c, period, now + max period.nanoseconds Reaper.leastPeriod⟩

structure RelationalCache where
  schema : String
  -- asked before each sweep; without it every sweep is approved
  approve : Option (Collection → Bool)
  collections : Registry Collection
  -- in the order in which their timers were armed
  reapers : List Reaper
  link : Link

namespace RelationalCache

def defaultSchema : String := "public"

def new (schema : String) (approve : Option (Collection → Bool)) : Except Error RelationalCache :=
  match checkIdentifier "schema" schema with
  | .error e => .error e
  | .ok () => .ok ⟨schema, approve, .empty, [], .new⟩

def statement (s : RelationalCache) (verb : Verb) (c : Collection) : Statement :=
  ⟨verb, s.schema, c.name⟩

-- The lifetime of a collection's rows, as the server takes it.
def lifetime (c : Collection) : Parameter := .real c.effectiveTtl.toBinary64

def aboutCollection (c : Collection) : String × String := ("cache.collection", c.name)

def consult (s : RelationalCache) (c : Collection) : Bool × RelationalCache :=
  match s.approve with
  | none => (true, s)
  | some approve =>
    let answer := approve c
    (answer, { s with link := s.link.record (.consulted c answer) })

def sweepLog (c : Collection) : Except Error Reply → LogEvent
  | .ok reply =>
    let deleted := match reply with
      | .changed count => count
      | .found _ => 0
    ⟨.debug, "swept expired rows", [aboutCollection c, ("reaper.deleted", toString deleted)]⟩
  | .error e =>
    ⟨.error, "failed to sweep expired rows", [aboutCollection c, ("error", e.message)]⟩

def sweep (now : Time) (s : RelationalCache) (c : Collection) : RelationalCache × List LogEvent :=
  let (result, link) := s.link.run now (s.statement .sweep c) [lifetime c]
  ({ s with link }, [sweepLog c result])

def skipped (c : Collection) : LogEvent :=
  ⟨.debug, "sweep not authorized, skipping", [aboutCollection c]⟩

def started (c : Collection) (period : Duration) : LogEvent :=
  ⟨.info, "reaper started", [aboutCollection c, ("reaper.period", period.text)]⟩

def stopped (r : Reaper) : LogEvent :=
  ⟨.info, "reaper stopped", [aboutCollection r.collection]⟩

-- A sweep now if it is approved; then the timer is armed.
def startReaper (now : Time) (s : RelationalCache) (c : Collection) (period : Duration) :
    RelationalCache × List LogEvent :=
  let (approved, s) := s.consult c
  let (s, log) := if approved then s.sweep now c else (s, [skipped c])
  ({ s with reapers := s.reapers ++ [.arm now c period] }, started c period :: log)

def registered (s : RelationalCache) (c : Collection) : LogEvent :=
  ⟨.info, "registered relational collection",
    [("cache.schema", s.schema), ("cache.collection", c.text)]⟩

def checkName (s : RelationalCache) (name : String) : Except Error Unit :=
  match checkIdentifier "collection" name with
  | .error e => .error e
  | .ok () => s.collections.ensureVacant name

-- Creates the table of a collection and registers it. No reaper works for it yet.
def enroll (now : Time) (s : RelationalCache) (c : Collection) : Outcome RelationalCache :=
  match s.checkName c.name with
  | .error e => .refuse s e
  | .ok () =>
    match s.link.batch now (s.statement .create c) with
    | (.error e, link) => .refuse { s with link } e
    | (.ok _, link) =>
      let s := { s with link }
      match s.collections.insert c.name c with
      | .error e => ⟨s, .error e, [s.registered c]⟩
      | .ok collections => ⟨{ s with collections }, .ok none, [s.registered c]⟩

def register (now : Time) (s : RelationalCache) (c : Collection) : Outcome RelationalCache :=
  let o := s.enroll now c
  match o.answer, c.ttl with
  | .ok _, some period =>
    let (s, more) := o.state.startReaper now c period
    ⟨s, o.answer, o.log ++ more⟩
  | _, _ => o

def run (now : Time) (s : RelationalCache) (verb : Verb) (c : Collection)
    (parameters : List Parameter) : Except Error Reply × RelationalCache :=
  let (result, link) := s.link.run now (s.statement verb c) parameters
  (result, { s with link })

def change (now : Time) (s : RelationalCache) (verb : Verb) (c : Collection)
    (parameters : List Parameter) : Outcome RelationalCache :=
  match s.run now verb c parameters with
  | (.error e, s) => .refuse s e
  | (.ok _, s) => .done s

def set (now : Time) (s : RelationalCache) (key : EntryKey) (value : Value) :
    Outcome RelationalCache :=
  match s.collections.get key.collection with
  | .error e => .refuse s e
  | .ok c =>
    match c.type.encode value with
    | .error e => .refuse s e
    | .ok bytes => s.change now .upsert c [.text key.key, .bytes bytes]

-- The value of a row. A null is no value.
def rowValue (c : Collection) (row : Row) : Answer :=
  match row.bytes with
  | none => .error (.backend .nullValue)
  | some bytes => (c.type.decode bytes).map some

def get (now : Time) (s : RelationalCache) (key : EntryKey) : Outcome RelationalCache :=
  match s.collections.get key.collection with
  | .error e => .refuse s e
  | .ok c =>
    match s.run now .select c [.text key.key, lifetime c] with
    | (.error e, s) => .refuse s e
    | (.ok (.found (some row)), s) => ⟨s, rowValue c row, []⟩
    | (.ok _, s) => .done s

def del (now : Time) (s : RelationalCache) (key : EntryKey) : Outcome RelationalCache :=
  match s.collections.get key.collection with
  | .error e => .refuse s e
  | .ok c => s.change now .delete c [.text key.key]

-- Closing stops all reapers, in the order of their collections.
def close (s : RelationalCache) : Outcome RelationalCache :=
  let (collections, closed) := s.collections.close
  let log := closed.filterMap fun c => (s.reapers.find? (·.collection.name == c.name)).map stopped
  ⟨{ s with collections, reapers := [] }, .ok none, log⟩

def call (now : Time) (s : RelationalCache) : Request → Outcome RelationalCache
  | .register c => s.register now c
  | .set key value => s.set now key value
  | .get key => s.get now key
  | .del key => s.del now key
  | .close => s.close

instance : Backend RelationalCache := ⟨call⟩

def sleep (now : Time) (s : RelationalCache) (r : Reaper) : RelationalCache :=
  { s with reapers := s.reapers ++ [.arm now r.collection r.period] }

-- Wakes one reaper. If it is approved it queues for the connection, and at the head of the queue it
-- sees to it that there is one. Otherwise, or if no connection can be had, it sleeps again at once.
def wake (now : Time) (s : RelationalCache) (queue : List Reaper) (r : Reaper) :
    (List Reaper × RelationalCache) × List LogEvent :=
  let (approved, s) := s.consult r.collection
  if !approved then ((queue, s.sleep now r), [skipped r.collection])
  else if !queue.isEmpty then ((queue ++ [r], s), [])
  else
    match s.link.acquire with
    | (.ok _, link) => (([r], { s with link }), [])
    | (.error e, link) => (([], { s with link }.sleep now r), [sweepLog r.collection (.error e)])

def wakeAll (now : Time) (s : RelationalCache) (queue : List Reaper) :
    List Reaper → (List Reaper × RelationalCache) × List LogEvent
  | [] => ((queue, s), [])
  | r :: rs =>
    let ((queue, s), log) := s.wake now queue r
    let (woken, more) := s.wakeAll now queue rs
    (woken, log ++ more)

def sweepAll (now : Time) (s : RelationalCache) : List Reaper →
    RelationalCache × List LogEvent
  | [] => (s, [])
  | r :: rs =>
    let (s, log) := s.sweep now r.collection
    let (s, more) := (s.sleep now r).sweepAll now rs
    (s, log ++ more)

-- Fires the timers that have come due, each once, in the order of their times. All are woken before
-- the first one sweeps.
def fire (now : Time) (s : RelationalCache) : RelationalCache × List LogEvent :=
  let (due, waiting) := s.reapers.partition fun r => r.due ≤ now
  let due := due.mergeSort fun q r => q.due ≤ r.due
  let ((queue, s), log) := { s with reapers := waiting }.wakeAll now [] due
  let (s, more) := s.sweepAll now queue
  (s, log ++ more)

-- Gives the callback, if there is one, another rule.
def setApproval (s : RelationalCache) (rule : Collection → Bool) : RelationalCache :=
  { s with approve := s.approve.map fun _ => rule }

-- The events since the last time they were taken.
def takeEvents (s : RelationalCache) : List Event × RelationalCache :=
  (s.link.events, { s with link := { s.link with events := [] } })

def builderText (schema : String) (hasApproval : Bool) : String :=
  "PgCacheBuilder \x7b schema: " ++ Quoted.text schema ++ ", approve_deletion: " ++
    (if hasApproval then "true" else "false") ++ ", spawner: Some(Spawner(\"tokio\")), .. \x7d"

def debugText (s : RelationalCache) : String :=
  "PgCache \x7b schema: " ++ Quoted.text s.schema ++ ", collections: " ++
    toString s.collections.size ++ ", .. \x7d"

end RelationalCache

end PolyCache
