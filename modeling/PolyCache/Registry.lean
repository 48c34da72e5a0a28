import PolyCache.Entries
import PolyCache.Error

-- The names that have been registered, each with an entry. A name is never taken twice; once
-- closed, a registry is empty for good.
namespace PolyCache

structure Registry (α : Type) where
  -- in the order of the names; nothing once closed
  entries? : Option (List (String × α))

namespace Registry

variable {α : Type}

def empty : Registry α := ⟨some []⟩

-- Why a name may not be taken, if it may not.
def checkVacant (entries : List (String × α)) (name : String) : Except Error Unit :=
  if name = "" then .error (.usage .emptyName)
  else if Entries.contains name entries then .error (.usage (.alreadyRegistered name))
  else .ok ()

def ensureVacant (r : Registry α) (name : String) : Except Error Unit :=
  match r.entries? with
  | none => .error (.usage .closed)
  | some entries => checkVacant entries name

def insert (r : Registry α) (name : String) (entry : α) : Except Error (Registry α) :=
  match r.entries? with
  | none => .error (.usage .closed)
  | some entries =>
    match checkVacant entries name with
    | .error e => .error e
    | .ok () => .ok ⟨some (Entries.insert Entries.stringLess name entry entries)⟩

def get (r : Registry α) (name : String) : Except Error α :=
  match r.entries? with
  | none => .error (.usage .closed)
  | some entries =>
    match entries.lookup name with
    | some entry => .ok entry
    | none => .error (.usage (.notRegistered name))

def entries (r : Registry α) : List (String × α) := r.entries?.getD []

def contains (r : Registry α) (name : String) : Bool := Entries.contains name r.entries

def size (r : Registry α) : Nat := r.entries.length

def isEmpty (r : Registry α) : Bool := r.size == 0

def isClosed (r : Registry α) : Bool := r.entries?.isNone

-- Changes the entry of a registered name.
def adjust (r : Registry α) (name : String) (change : α → α) : Registry α :=
  ⟨r.entries?.map (Entries.adjust name change)⟩

-- The closed registry, and what was registered.
def close (r : Registry α) : Registry α × List α := (⟨none⟩, r.entries.map (·.2))

end Registry

end PolyCache
