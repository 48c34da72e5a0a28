import PolyCache.Backend
import PolyCache.Codec
import PolyCache.Registry

-- The cache that stores nothing. It knows which collections are registered and refuses what every
-- cache refuses, and misses every value.
namespace PolyCache

structure NullCache where
  collections : Registry Collection

namespace NullCache

def new : NullCache := ⟨.empty⟩

def registered (c : Collection) : LogEvent :=
  ⟨.debug, "registered collection without storage", [("cache.collection", c.text)]⟩

def register (s : NullCache) (c : Collection) : Outcome NullCache :=
  match s.collections.insert c.name c with
  | .error e => ⟨s, .error e, [registered c]⟩
  | .ok collections => ⟨⟨collections⟩, .ok none, [registered c]⟩

-- A value is checked, and then dropped.
def set (s : NullCache) (key : EntryKey) (value : Value) : Outcome NullCache :=
  match s.collections.get key.collection with
  | .error e => .refuse s e
  | .ok c =>
    match c.type.encode value with
    | .error e => .refuse s e
    | .ok _ => .done s

def lookup (s : NullCache) (key : EntryKey) : Outcome NullCache :=
  match s.collections.get key.collection with
  | .error e => .refuse s e
  | .ok _ => .done s

def close (s : NullCache) : Outcome NullCache := .done ⟨s.collections.close.1⟩

def call (_ : Time) (s : NullCache) : Request → Outcome NullCache
  | .register c => s.register c
  | .set key value => s.set key value
  | .get key => s.lookup key
  | .del key => s.lookup key
  | .close => s.close

instance : Backend NullCache := ⟨call⟩

end NullCache

end PolyCache
