import PolyCache.Json.Form

-- Settings that choose a backend, and their JSON form.
namespace PolyCache

inductive CacheKind where
  | none
  | memory
deriving DecidableEq, Repr

-- `name` precedes the names of the stores of local collections, `initialCapacity` is the room they
-- start with.
structure Config where
  kind : CacheKind
  name : Option String
  initialCapacity : Option Nat
deriving DecidableEq

namespace CacheKind

def name : CacheKind → String
  | .none => "none"
  | .memory => "memory"

def debugText : CacheKind → String
  | .none => "None"
  | .memory => "Memory"

end CacheKind

namespace Config

def new (kind : CacheKind) : Config := ⟨kind, none, none⟩

-- Without settings nothing is cached.
def default : Config := new .none

def debugText (c : Config) : String :=
  "CacheConfig \x7b kind: " ++ c.kind.debugText ++ ", name: " ++
    (match c.name with
      | some name => "Some(" ++ Quoted.text name ++ ")"
      | none => "None") ++
    ", initial_capacity: " ++
    (match c.initialCapacity with
      | some n => "Some(" ++ toString n ++ ")"
      | none => "None") ++ " \x7d"

end Config

end PolyCache

namespace PolyCache.Json

def kindNames : List String := ["none", "inmem", "memory"]

def kindOfName? (name : String) : Option CacheKind :=
  if name = "none" then some .none
  else if name = "inmem" || name = "memory" then some .memory
  else none

def readKindName : Reader CacheKind := fun bytes =>
  match readStringAs "variant identifier" bytes with
  | .error fault => .error fault
  | .ok (name, rest) =>
    match kindOfName? name with
    | some kind => .ok (kind, rest)
    | none => .error (.here (.unknownVariant name kindNames) rest)

-- The object form of a kind, after its opening brace: one member, whose value is null.
def readKindObject : Reader CacheKind := fun bytes =>
  match nextMember true bytes with
  | .error fault => .error fault
  | .ok (false, rest) => .error (.next .expectedValue rest)
  | .ok (true, rest) =>
    match readKindName rest with
    | .error fault => .error fault
    | .ok (kind, rest) =>
      match readColon rest with
      | .error fault => .error fault
      | .ok rest =>
        match readUnit rest with
        | .error fault => .error fault
        | .ok ((), rest) =>
          match dropSpace rest with
          | [] => .error (.here .endInObject [])
          | b :: rest =>
            if b = 0x7D then .ok (kind, rest) else .error (.here .expectedValue (b :: rest))

-- A kind is given by its name, or by an object whose only member has that name and the value null.
def readKind (depth : Nat) : Reader CacheKind := atValue fun b rest =>
  if b = 0x22 then readKindName (b :: rest)
  else if b = 0x7B then deeper depth (b :: rest) fun _ => readKindObject rest
  else .error (.next .expectedValue (b :: rest))

def maxSize : Int := Int.pow 2 64 - 1

def readSize : Reader Nat := fun bytes =>
  (readIntegerWithin "usize" 0 maxSize bytes).map fun (n, rest) => (n.toNat, rest)

def configFields : List String := ["kind", "name", "initial_capacity"]

-- The settings read so far. An optional setting may be given as null, which is not the same as its
-- being absent: it may not be given again.
structure PartialConfig where
  kind : Option CacheKind
  name : Option (Option String)
  initialCapacity : Option (Option Nat)

def PartialConfig.enter (depth : Nat) (c : PartialConfig) (name : String) :
    Except Reason (Reader PartialConfig) :=
  if name = "kind" then
    fillOnce name c.kind (readKind depth) fun kind => { c with kind := some kind }
  else if name = "name" then
    fillOnce name c.name (readOption (readStringAs "a string")) fun s => { c with name := some s }
  else if name = "initial_capacity" then
    fillOnce name c.initialCapacity (readOption readSize) fun n =>
      { c with initialCapacity := some n }
  else .error (.unknownField name configFields)

-- Absent settings have their defaults.
def PartialConfig.complete (c : PartialConfig) : Config :=
  ⟨c.kind.getD .none, c.name.getD none, c.initialCapacity.getD none⟩

def readConfigMembers (depth : Nat) : Reader Config := fun bytes =>
  (readAllMembers readStringKey (PartialConfig.enter depth) ⟨none, none, none⟩ bytes).map
    fun (c, rest) => (c.complete, rest)

def readConfigFields (depth : Nat) : Reader Config := fun bytes =>
  match readField? true (readKind depth) bytes with
  | .error fault => .error fault
  | .ok (kind, rest) =>
    match readField? false (readOption (readStringAs "a string")) rest with
    | .error fault => .error fault
    | .ok (name, rest) =>
      match readField? false (readOption readSize) rest with
      | .error fault => .error fault
      | .ok (capacity, rest) => .ok (PartialConfig.complete ⟨kind, name, capacity⟩, rest)

def readConfig : (depth : Nat) → Reader Config :=
  readRecord "struct CacheConfig" readConfigFields readConfigMembers

def parseConfig (bytes : Bytes) : Except Fault Config := readWhole (readConfig maxDepth) bytes

end PolyCache.Json
