import PolyCache.Value
import PolyCache.Duration

-- Collections: named sets of entries of one type, with a lifetime and, for local stores, a bound on
-- their number.
namespace PolyCache

structure Collection where
  name : String
  ttl : Option Duration
  type : ValueType
  -- zero is no bound
  maxItems : Nat
deriving DecidableEq

structure EntryKey where
  collection : String
  key : String
deriving DecidableEq

namespace Collection

def new (name : String) (type : ValueType) : Collection := ⟨name, none, type, 0⟩

-- A span of zero is no lifetime at all: the entries stay forever.
def withTtl (c : Collection) (ttl : Duration) : Collection :=
  { c with ttl := if ttl.nanoseconds = 0 then none else some ttl }

def withMaxItems (c : Collection) (maxItems : Nat) : Collection := { c with maxItems }

-- A hundred years of 365 days.
def forever : Duration := .ofParts (100 * 365 * 24 * 60 * 60) 0

def effectiveTtl (c : Collection) : Duration := c.ttl.getD forever

def bound? (c : Collection) : Option Nat := if c.maxItems = 0 then none else some c.maxItems

def entry (c : Collection) (key : String) : EntryKey := ⟨c.name, key⟩

def ttlText (c : Collection) : String :=
  match c.ttl with
  | some ttl => ttl.text
  | none => "forever"

def text (c : Collection) : String :=
  "\x7bname=" ++ c.name ++ " ttl=" ++ c.ttlText ++ " valueType=" ++ c.type.name ++
    " localMaxItems=" ++ toString c.maxItems ++ "\x7d"

def debugText (c : Collection) : String :=
  "Collection \x7b name: " ++ Quoted.text c.name ++ ", ttl: " ++
    (match c.ttl with
      | some ttl => "Some(" ++ ttl.text ++ ")"
      | none => "None") ++
    ", value_type: " ++ c.type.debugText ++ ", local_max_items: " ++ toString c.maxItems ++ " \x7d"

end Collection

namespace EntryKey

def text (k : EntryKey) : String := "\x7bName=" ++ k.collection ++ " Key=" ++ k.key ++ "\x7d"

def debugText (k : EntryKey) : String :=
  "CollectionKey \x7b name: " ++ Quoted.text k.collection ++ ", key: " ++ Quoted.text k.key ++
    " \x7d"

end EntryKey

end PolyCache
