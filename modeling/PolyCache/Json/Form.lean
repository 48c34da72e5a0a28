import PolyCache.Json.Tree

namespace PolyCache

-- The example record of the library: an integer and a string.
structure Sample where
  a : Int64
  b : String
deriving DecidableEq

-- A table with keys in ascending order, each once.
structure OrderedMap (κ ν : Type) where
  entries : List (κ × ν)
deriving DecidableEq

end PolyCache

-- Types that have a form in JSON: a reader, told how deep it may go, and a printer, which may find
-- that a value has no JSON form.
namespace PolyCache.Json

class JsonForm (α : Type) where
  read : (depth : Nat) → Reader α
  print : α → Except Reason Bytes

def parse {α : Type} [JsonForm α] (bytes : Bytes) : Except Fault α :=
  readWhole (JsonForm.read maxDepth) bytes

instance : JsonForm Tree where
  read := readTree
  print tree := .ok tree.print

instance : JsonForm Bool where
  read _ := readBool
  print b := .ok (printBool b)

def minInt64 : Int := -Int.pow 2 63

def maxInt64 : Int := Int.pow 2 63 - 1

def readInt64 : Reader Int64 := fun bytes =>
  (readIntegerWithin "i64" minInt64 maxInt64 bytes).map fun (n, rest) => (Int64.ofInt n, rest)

instance : JsonForm Int64 where
  read _ := readInt64
  print n := .ok (printInt n.toInt)

instance : JsonForm UInt8 where
  read _ := fun bytes =>
    (readIntegerWithin "u8" 0 255 bytes).map fun (n, rest) => (n.toNat.toUInt8, rest)
  print n := .ok (printInt n.toNat)

-- Numbers that are not finite are printed as `null`.
instance : JsonForm Binary64 where
  read _ := readBinary64
  print x := .ok (printBinary64 x)

instance : JsonForm String where
  read _ := readStringAs "a string"
  print s := .ok (printString s)

def printList {α : Type} (print : α → Except Reason Bytes) (items : List α) :
    Except Reason Bytes :=
  (items.mapM print).map bracketed

instance {α : Type} [JsonForm α] : JsonForm (List α) where
  read := readListOf JsonForm.read
  print := printList JsonForm.print

instance {α : Type} [JsonForm α] : JsonForm (Option α) where
  read depth := readOption (JsonForm.read depth)
  print
    | none => .ok nullText
    | some a => JsonForm.print a

structure PartialSample where
  a : Option Int64
  b : Option String

def PartialSample.enter (s : PartialSample) (name : String) :
    Except Reason (Reader PartialSample) :=
  if name = "a" then fillOnce name s.a readInt64 fun a => { s with a := some a }
  else if name = "b" then
    fillOnce name s.b (readStringAs "a string") fun b => { s with b := some b }
  else .ok fun bytes => (skipValue bytes).map (s, ·)

def PartialSample.complete (s : PartialSample) : Except Reason Sample :=
  match s.a, s.b with
  | none, _ => .error (.missingField "a")
  | _, none => .error (.missingField "b")
  | some a, some b => .ok ⟨a, b⟩

-- Members may come in any order; those with other names are passed over.
def readSampleMembers : Reader Sample := fun bytes =>
  match readAllMembers readStringKey PartialSample.enter ⟨none, none⟩ bytes with
  | .error fault => .error fault
  | .ok (s, rest) =>
    match s.complete with
    | .error reason => .error (.floating reason rest)
    | .ok sample => .ok (sample, rest)

def readSampleFields : Reader Sample := fun bytes =>
  match readField? true readInt64 bytes with
  | .error fault => .error fault
  | .ok (none, rest) => .error (.floating (.wrongLength 0 "struct Sample with 2 elements") rest)
  | .ok (some a, rest) =>
    match readField? false (readStringAs "a string") rest with
    | .error fault => .error fault
    | .ok (none, rest) => .error (.floating (.wrongLength 1 "struct Sample with 2 elements") rest)
    | .ok (some b, rest) => .ok (⟨a, b⟩, rest)

instance : JsonForm Sample where
  read := readRecord "struct Sample" (fun _ => readSampleFields) (fun _ => readSampleMembers)
  print s :=
    .ok (braced
      [printMember (printString "a") (printInt s.a.toInt),
        printMember (printString "b") (printString s.b)])

def int64Less (m n : Int64) : Bool := Entries.intLess m.toInt n.toInt

-- Pairs are ordered by their first parts, then by their second.
def pairLess (p q : Int64 × Int64) : Bool :=
  int64Less p.1 q.1 || (p.1 = q.1 && int64Less p.2 q.2)

def quoted (bytes : Bytes) : Bytes := 0x22 :: bytes ++ [0x22]

def readInt64Key : Reader Int64 := fun bytes =>
  (readIntegerKey "i64" minInt64 maxInt64 bytes).map fun (n, rest) => (Int64.ofInt n, rest)

-- Integer keys are written as strings.
instance {ν : Type} [JsonForm ν] : JsonForm (OrderedMap Int64 ν) where
  read depth bytes :=
    (readObjectInto readInt64Key (fun depth => addEntry int64Less (JsonForm.read depth)) [] depth
      bytes).map fun (entries, rest) => (⟨entries⟩, rest)
  print m :=
    (m.entries.mapM fun ((k, v) : Int64 × ν) =>
      (JsonForm.print v).map (printMember (quoted (printInt k.toInt)))).map braced

-- A name cannot hold a pair, so such a table is written and read only when it is empty.
def readPairKey : Reader (Int64 × Int64) := fun bytes =>
  match readStringKey bytes with
  | .error fault => .error fault
  | .ok (s, rest) => .error (.floating (.wrongType (.string s) "a tuple of size 2") rest)

instance {ν : Type} [JsonForm ν] : JsonForm (OrderedMap (Int64 × Int64) ν) where
  read depth bytes :=
    (readObjectInto readPairKey (fun depth => addEntry pairLess (JsonForm.read depth)) [] depth
      bytes).map fun (entries, rest) => (⟨entries⟩, rest)
  print m := if m.entries.isEmpty then .ok (braced []) else .error .expectedStringKey

end PolyCache.Json
