import PolyCache.Backend
import PolyCache.Backend.Shelf
import PolyCache.Codec
import PolyCache.Registry

-- The cache that keeps encoded entries in memory, a shelf for each collection. An entry is dropped
-- when it is read at or after the end of its lifetime.
namespace PolyCache

structure StoredEntry where
  bytes : Bytes
  storedAt : Time
deriving DecidableEq

structure Partition where
  collection : Collection
  shelf : Shelf StoredEntry
deriving DecidableEq

structure MemoryCache where
  name : Option String
  partitions : Registry Partition

namespace Partition

def new (c : Collection) : Partition := ⟨c, .empty c.bound?⟩

-- An entry from the future has no age.
def isExpired (p : Partition) (now : Time) (entry : StoredEntry) : Bool :=
  p.collection.effectiveTtl.nanoseconds ≤ now - entry.storedAt

-- What a read finds, and the partition after it.
def read (p : Partition) (now : Time) (key : String) : Option StoredEntry × Partition :=
  match p.shelf.read key with
  | (none, shelf) => (none, { p with shelf })
  | (some entry, shelf) =>
    if p.isExpired now entry then (none, { p with shelf := shelf.erase key })
    else (some entry, { p with shelf })

end Partition

namespace MemoryCache

def new (name : Option String) : MemoryCache := ⟨name, .empty⟩

def registered (s : MemoryCache) (c : Collection) : LogEvent :=
  ⟨.info, "registered in-memory collection",
    [("cache.name", s.name.getD ""), ("cache.collection", c.text)]⟩

def register (s : MemoryCache) (c : Collection) : Outcome MemoryCache :=
  match s.partitions.insert c.name (.new c) with
  | .error e => .refuse s e
  | .ok partitions => ⟨{ s with partitions }, .ok none, [s.registered c]⟩

def put (s : MemoryCache) (name : String) (p : Partition) : MemoryCache :=
  { s with partitions := s.partitions.adjust name fun _ => p }

def set (now : Time) (s : MemoryCache) (key : EntryKey) (value : Value) : Outcome MemoryCache :=
  match s.partitions.get key.collection with
  | .error e => .refuse s e
  | .ok p =>
    match p.collection.type.encode value with
    | .error e => .refuse s e
    | .ok bytes =>
      .done (s.put key.collection { p with shelf := p.shelf.write key.key ⟨bytes, now⟩ })

def get (now : Time) (s : MemoryCache) (key : EntryKey) : Outcome MemoryCache :=
  match s.partitions.get key.collection with
  | .error e => .refuse s e
  | .ok p =>
    let (found, p) := p.read now key.key
    let s := s.put key.collection p
    match found with
    | none => .done s
    | some entry => ⟨s, (p.collection.type.decode entry.bytes).map some, []⟩

def del (s : MemoryCache) (key : EntryKey) : Outcome MemoryCache :=
  match s.partitions.get key.collection with
  | .error e => .refuse s e
  | .ok p => .done (s.put key.collection { p with shelf := p.shelf.erase key.key })

def close (s : MemoryCache) : Outcome MemoryCache :=
  .done { s with partitions := s.partitions.close.1 }

def call (now : Time) (s : MemoryCache) : Request → Outcome MemoryCache
  | .register c => s.register c
  | .set key value => s.set now key value
  | .get key => s.get now key
  | .del key => s.del key
  | .close => s.close

instance : Backend MemoryCache := ⟨call⟩

-- How many entries a collection has, expired ones that have not been read included.
def entryCount (s : MemoryCache) (name : String) : Except Error Nat :=
  (s.partitions.get name).map fun p => p.shelf.size

end MemoryCache

end PolyCache
