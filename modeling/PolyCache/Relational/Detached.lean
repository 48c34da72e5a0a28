import PolyCache.Relational.Cache
import PolyCache.Executor

-- The futures of a relational cache. A write is checked by its caller, and the statement is sent
-- by a task, so it is sent even if the caller is gone by then.
namespace PolyCache.RelationalCache

open Relational

-- A statement that writes.
structure Write where
  verb : Verb
  collection : Collection
  parameters : List Parameter

inductive Future where
  -- not polled yet
  | call (request : Request)
  | send (write : Write)
  -- waits for the task that sends
  | join (task : Nat)

def planSet (s : RelationalCache) (key : EntryKey) (value : Value) : Except Error Write :=
  match s.collections.get key.collection with
  | .error e => .error e
  | .ok c =>
    match c.type.encode value with
    | .error e => .error e
    | .ok bytes => .ok ⟨.upsert, c, [.text key.key, .bytes bytes]⟩

def planDel (s : RelationalCache) (key : EntryKey) : Except Error Write :=
  match s.collections.get key.collection with
  | .error e => .error e
  | .ok c => .ok ⟨.delete, c, [.text key.key]⟩

-- What a request writes, or why not. Other requests do not write to a collection.
def plan? (s : RelationalCache) : Request → Option (Except Error Write)
  | .set key value => some (s.planSet key value)
  | .del key => some (s.planDel key)
  | _ => none

def send (now : Time) (s : RelationalCache) (write : Write) : Outcome RelationalCache :=
  s.change now write.verb write.collection write.parameters

def behavior : Behavior RelationalCache Future := fun answers now s future =>
  match future with
  | .call request =>
    match s.plan? request with
    | none => .whole (s.call now request)
    | some (.error e) => .whole (.refuse s e)
    | some (.ok write) => ⟨s, [.send write], .pending (.join answers.length), []⟩
  | .send write => .whole (s.send now write)
  | .join task => .join s answers task (.join task)

end PolyCache.RelationalCache
