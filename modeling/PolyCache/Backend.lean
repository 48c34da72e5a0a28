import PolyCache.Collection
import PolyCache.Error
import PolyCache.Log

-- What every cache answers. A backend is a state on which requests act, one after the
-- other, each at some time.
namespace PolyCache

-- Nanoseconds since the epoch.
abbrev Time := Nat

inductive Request where
  | register (collection : Collection)
  | set (key : EntryKey) (value : Value)
  | get (key : EntryKey)
  | del (key : EntryKey)
  | close
deriving DecidableEq

-- The value found by a `get`. All other requests answer nothing when they succeed.
abbrev Answer := Except Error (Option Value)

structure Outcome (σ : Type) where
  state : σ
  answer : Answer
  log : List LogEvent

class Backend (σ : Type) where
  call : Time → σ → Request → Outcome σ

namespace Outcome

variable {σ : Type}

-- Nothing changes.
def refuse (state : σ) (e : Error) : Outcome σ := ⟨state, .error e, []⟩

def done (state : σ) : Outcome σ := ⟨state, .ok none, []⟩

end Outcome

end PolyCache
