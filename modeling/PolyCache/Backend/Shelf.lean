import PolyCache.Entries

-- A store of bounded size. Keys stand in the order of their last use, and each has a frequency of
-- reads. A new key enters a full shelf only in the place of the least recently used one, and only
-- if it is read more often; otherwise it is turned away.
namespace PolyCache

structure Shelf (α : Type) where
  -- nothing if the size is not bounded
  bound? : Option Nat
  -- least recently used first
  entries : List (String × α)
  -- how often each key has been read, whether it was there or not
  frequencies : List (String × Nat)
  -- reads count once the shelf has been half full
  counting : Bool
deriving DecidableEq

namespace Shelf

variable {α : Type}

def isHalfFull (bound : Nat) (entries : List (String × α)) : Bool := bound / 2 ≤ entries.length

def empty (bound? : Option Nat) : Shelf α :=
  ⟨bound?, [], [], bound?.any fun bound => isHalfFull bound ([] : List (String × α))⟩

def size (s : Shelf α) : Nat := s.entries.length

def contains (s : Shelf α) (key : String) : Bool := Entries.contains key s.entries

def maxFrequency : Nat := 15

def frequency (s : Shelf α) (key : String) : Nat := (s.frequencies.lookup key).getD 0

def countRead (s : Shelf α) (key : String) : Shelf α :=
  if s.counting && s.frequency key < maxFrequency then
    { s with
      frequencies :=
        Entries.insert Entries.stringLess key (s.frequency key + 1) s.frequencies }
  else s

-- Puts a key at the most recently used end.
def moveToEnd (key : String) (value : α) (entries : List (String × α)) : List (String × α) :=
  Entries.erase key entries ++ [(key, value)]

def erase (s : Shelf α) (key : String) : Shelf α :=
  { s with entries := Entries.erase key s.entries }

-- A read counts, and uses the key if it is there.
def read (s : Shelf α) (key : String) : Option α × Shelf α :=
  let s := s.countRead key
  match s.entries.lookup key with
  | none => (none, s)
  | some value => (some value, { s with entries := moveToEnd key value s.entries })

def isFull (s : Shelf α) : Bool := s.bound?.any fun bound => bound ≤ s.size

-- The entries after a key that was not there has been offered.
def offer (s : Shelf α) (key : String) (value : α) : List (String × α) :=
  if s.isFull then
    match s.entries with
    | [] => []
    | (oldest, kept) :: entries =>
      if s.frequency oldest < s.frequency key then entries ++ [(key, value)]
      else (oldest, kept) :: entries
  else s.entries ++ [(key, value)]

-- Once the shelf has been half full, reads count for good.
def settle (s : Shelf α) : Shelf α :=
  { s with counting := s.counting || s.bound?.any fun bound => isHalfFull bound s.entries }

def write (s : Shelf α) (key : String) (value : α) : Shelf α :=
  let entries := if s.contains key then moveToEnd key value s.entries else s.offer key value
  { s with entries }.settle

end Shelf

end PolyCache
