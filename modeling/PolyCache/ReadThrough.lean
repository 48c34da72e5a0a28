import PolyCache.Backend
import PolyCache.Storable

-- Typed access to any backend: reads that load what is missing, and writes in the background whose
-- failures are only logged.
namespace PolyCache.ReadThrough

variable {σ : Type} [Backend σ] {α : Type} [Storable α]

def readFailed (key : EntryKey) (e : Error) : LogEvent :=
  ⟨.warn, "cache read failed, fetching instead", [("cache.key", key.text), ("error", e.message)]⟩

def writeFailed (key : EntryKey) (e : Error) : LogEvent :=
  ⟨.warn, "failed to write to cache", [("cache.key", key.text), ("error", e.message)]⟩

def deleteFailed (key : EntryKey) (e : Error) : LogEvent :=
  ⟨.warn, "failed to delete from cache", [("cache.key", key.text), ("error", e.message)]⟩

def warned (event : Error → LogEvent) (o : Outcome σ) : Outcome σ :=
  match o.answer with
  | .ok _ => o
  | .error e => { o with log := o.log ++ [event e] }

-- Writes a value. One that has no stored form is not written.
def write (now : Time) (s : σ) (key : EntryKey) (a : α) : Outcome σ :=
  warned (writeFailed key) <|
    match Storable.toValue a with
    | .error e => .refuse s e
    | .ok value => Backend.call now s (.set key value)

def delete (now : Time) (s : σ) (key : EntryKey) : Outcome σ :=
  warned (deleteFailed key) (Backend.call now s (.del key))

-- A read through the cache: what it answers, whether the value was loaded, and the state once the
-- write in the background has run.
structure Reading (σ α : Type) where
  state : σ
  answer : Except Error α
  fetched : Bool
  log : List LogEvent

-- Loads a value that is missing or cannot be read, and writes it in the background,
-- at a later time. Whatever becomes of the write, the value is the answer. Loading
-- may have effects of its own.
def loadIn {m : Type → Type} [Monad m] (later : Time) (s : σ) (key : EntryKey)
    (log : List LogEvent) (fetch : EntryKey → m (Except Cause α)) : m (Reading σ α) := do
  match ← fetch key with
  | .error cause => return ⟨s, .error (.fetch cause), true, log⟩
  | .ok a =>
    let o := write later s key a
    return ⟨o.state, .ok a, true, log ++ o.log⟩

-- A value that is there is converted; a broken rule is answered; all else loads the value.
def getOrSetIn {m : Type → Type} [Monad m] (now later : Time) (s : σ) (key : EntryKey)
    (fetch : EntryKey → m (Except Cause α)) : m (Reading σ α) :=
  let o := Backend.call now s (.get key)
  match o.answer with
  | .ok (some value) => return ⟨o.state, Storable.ofValue value, false, o.log⟩
  | .ok none => loadIn later o.state key o.log fetch
  | .error e =>
    if e.kind = .usage then return ⟨o.state, .error e, false, o.log⟩
    else loadIn later o.state key (o.log ++ [readFailed key e]) fetch

-- Loading without effects and in no time.
def getOrSet (now : Time) (s : σ) (key : EntryKey) (fetch : EntryKey → Except Cause α) :
    Reading σ α :=
  Id.run (getOrSetIn now now s key fun key => pure (fetch key))

def backendText : String := "DynamicCache \x7b .. \x7d"

def debugText : String :=
  "Cache \x7b backend: " ++ backendText ++ ", spawner: Spawner(\"tokio\") \x7d"

end PolyCache.ReadThrough
