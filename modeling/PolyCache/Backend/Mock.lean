import PolyCache.Backend
import PolyCache.Codec
import PolyCache.Registry

-- The cache for tests: it keeps plain values, records every request, and fails the requests that a
-- predicate picks.
namespace PolyCache

structure MockCache where
  collections : Registry Collection
  data : List (EntryKey × Value)
  operations : List Request
  failing : Option (Request → Bool)

-- Entries are kept by collection, then by key.
def EntryKey.less (j k : EntryKey) : Bool :=
  Entries.stringLess j.collection k.collection ||
    (j.collection == k.collection && Entries.stringLess j.key k.key)

namespace Request

def name : Request → String
  | .register _ => "register"
  | .set _ _ => "set"
  | .get _ => "get"
  | .del _ => "del"
  | .close => "close"

def debugText : Request → String
  | .register c => "Register(" ++ c.debugText ++ ")"
  | .set key value =>
    "Set \x7b key: " ++ key.debugText ++ ", value: " ++ value.debugText ++ " \x7d"
  | .get key => "Get(" ++ key.debugText ++ ")"
  | .del key => "Del(" ++ key.debugText ++ ")"
  | .close => "Close"

end Request

namespace MockCache

def new : MockCache := ⟨.empty, [], [], none⟩

def failWhen (s : MockCache) (predicate : Request → Bool) : MockCache :=
  { s with failing := some predicate }

def clearFailures (s : MockCache) : MockCache := { s with failing := none }

def clearOperations (s : MockCache) : MockCache := { s with operations := [] }

def entryCount (s : MockCache) : Nat := s.data.length

def contains (s : MockCache) (key : EntryKey) : Bool := Entries.contains key s.data

def fails (s : MockCache) (request : Request) : Bool :=
  match s.failing with
  | some predicate => predicate request
  | none => false

def record (s : MockCache) (request : Request) : MockCache :=
  { s with operations := s.operations ++ [request] }

def register (s : MockCache) (c : Collection) : Outcome MockCache :=
  match s.collections.insert c.name c with
  | .error e => .refuse s e
  | .ok collections => .done { s with collections }

def set (s : MockCache) (key : EntryKey) (value : Value) : Outcome MockCache :=
  match s.collections.get key.collection with
  | .error e => .refuse s e
  | .ok c =>
    match c.type.encode value with
    | .error e => .refuse s e
    | .ok _ => .done { s with data := Entries.insert EntryKey.less key value s.data }

def get (s : MockCache) (key : EntryKey) : Outcome MockCache :=
  match s.collections.get key.collection with
  | .error e => .refuse s e
  | .ok _ => ⟨s, .ok (s.data.lookup key), []⟩

def del (s : MockCache) (key : EntryKey) : Outcome MockCache :=
  match s.collections.get key.collection with
  | .error e => .refuse s e
  | .ok _ => .done { s with data := Entries.erase key s.data }

def close (s : MockCache) : Outcome MockCache :=
  .done { s with collections := s.collections.close.1, data := [] }

def perform (s : MockCache) : Request → Outcome MockCache
  | .register c => s.register c
  | .set key value => s.set key value
  | .get key => s.get key
  | .del key => s.del key
  | .close => s.close

def call (_ : Time) (s : MockCache) (request : Request) : Outcome MockCache :=
  if s.fails request then .refuse (s.record request) (.backend (.injected request.name))
  else (s.record request).perform request

instance : Backend MockCache := ⟨call⟩

def mapText (entries : List String) : String := "\x7b" ++ ", ".intercalate entries ++ "\x7d"

def registryText (r : Registry Collection) : String :=
  "Registry \x7b entries: RwLock \x7b data: " ++
    (match r.entries? with
      | none => "None"
      | some entries =>
        "Some(" ++ mapText (entries.map fun (n, c) => Quoted.text n ++ ": " ++ c.debugText) ++
          ")") ++ " \x7d \x7d"

def mutexText (data : String) : String := "Mutex \x7b data: " ++ data ++ " \x7d"

def debugText (s : MockCache) : String :=
  "MockBackend \x7b collections: " ++ registryText s.collections ++
    ", data: " ++
    mutexText (mapText (s.data.map fun (k, v) => k.debugText ++ ": " ++ v.debugText)) ++
    ", operations: " ++
    mutexText ("[" ++ ", ".intercalate (s.operations.map Request.debugText) ++ "]") ++
    ", fail_when: " ++ (if s.failing.isSome then "true" else "false") ++ " \x7d"

end MockCache

end PolyCache
