import PolyCache.ReadThrough
import PolyCache.Executor

-- Typed writes in the background, over a backend with futures of its own.
namespace PolyCache

inductive Background (φ : Type) where
  -- of the backend itself
  | backend (future : φ)
  -- a write or a deletion on its way, and what is logged if it fails
  | write (failed : Error → LogEvent) (future : φ)
  -- a value that has no stored form
  | unwritten (failed : Error → LogEvent) (e : Error)

namespace Background

variable {σ φ α : Type}

-- What a background task says of its result.
def report (failed : Error → LogEvent) : Polled φ → List LogEvent
  | .ready (.error e) => [failed e]
  | _ => []

def behavior (b : Behavior σ φ) : Behavior σ (Background φ) := fun answers now s future =>
  match future with
  | .backend future => (b answers now s future).map .backend
  | .write failed future =>
    let turn := b answers now s future
    ⟨turn.state, turn.spawned.map .backend, turn.polled.map (.write failed),
      turn.log ++ report failed turn.polled⟩
  | .unwritten failed e => ⟨s, [], .ready (.error e), [failed e]⟩

-- The task that writes a value, where `set` is the backend's future.
def set [Storable α] (set : EntryKey → Value → φ) (key : EntryKey) (a : α) : Background φ :=
  match Storable.toValue a with
  | .error e => .unwritten (ReadThrough.writeFailed key) e
  | .ok value => .write (ReadThrough.writeFailed key) (set key value)

def del (del : EntryKey → φ) (key : EntryKey) : Background φ :=
  .write (ReadThrough.deleteFailed key) (del key)

end Background

end PolyCache
