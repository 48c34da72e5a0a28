-- Tables as lists of keys with their values, in ascending order of the keys and without repeats.
-- `List.lookup` finds a value; the functions here keep the order.
namespace PolyCache.Entries

variable {κ ν : Type}

-- Puts a value into its place. An older value of the key is replaced.
def insert (less : κ → κ → Bool) (key : κ) (value : ν) : List (κ × ν) → List (κ × ν)
  | [] => [(key, value)]
  | (k, v) :: entries =>
    if less key k then (key, value) :: (k, v) :: entries
    else if less k key then (k, v) :: insert less key value entries
    else (key, value) :: entries

def erase [BEq κ] (key : κ) (entries : List (κ × ν)) : List (κ × ν) :=
  entries.filter fun (k, _) => !(k == key)

def contains [BEq κ] (key : κ) (entries : List (κ × ν)) : Bool := (entries.lookup key).isSome

-- Changes the value of a key that has one.
def adjust [BEq κ] (key : κ) (change : ν → ν) (entries : List (κ × ν)) : List (κ × ν) :=
  entries.map fun (k, v) => if k == key then (k, change v) else (k, v)

-- Strings are ordered by their characters' numbers, which is also the order of their bytes.
def stringLess (s t : String) : Bool := s < t

def intLess (m n : Int) : Bool := m < n

end PolyCache.Entries
