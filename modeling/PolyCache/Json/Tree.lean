import PolyCache.Entries
import PolyCache.Json.Reader

-- JSON as a value of its own: reading any text into a tree and printing a tree without spaces.
-- The members of an object are kept in the order of their names; of several members with one name
-- the last is kept.
namespace PolyCache.Json

inductive Tree where
  | null
  | boolean (b : Bool)
  | number (n : Number)
  | string (s : String)
  | list (items : List Tree)
  | object (members : List (String × Tree))

-- One member of an object whose members have values of one type.
def addEntry {κ ν : Type} (less : κ → κ → Bool) (value : Reader ν) (entries : List (κ × ν))
    (key : κ) : Except Reason (Reader (List (κ × ν))) :=
  .ok fun bytes => (value bytes).map fun (v, rest) => (Entries.insert less key v entries, rest)

-- A value of any kind, with the readers for lists and objects given.
def readTreeWith (list object : UInt8 → Bytes → Except Fault (Tree × Bytes)) : Reader Tree :=
  atValue fun b rest =>
    if b = 0x5B then list b rest
    else if b = 0x7B then object b rest
    else if b = 0x22 then (readString rest).map fun (s, rest) => (.string s, rest)
    else if startsNumber b then (readNumber (b :: rest)).map fun (n, rest) => (.number n, rest)
    else if b = 0x6E then (readLiteral nullTail rest).map (.null, ·)
    else if b = 0x74 then (readLiteral trueTail rest).map (.boolean true, ·)
    else if b = 0x66 then (readLiteral falseTail rest).map (.boolean false, ·)
    else .error (.next .expectedValue (b :: rest))

def refuseDeeper (b : UInt8) (rest : Bytes) : Except Fault (Tree × Bytes) :=
  .error (.next .tooDeep (b :: rest))

-- A value with at most `depth` lists and objects inside one another.
def readTree : (depth : Nat) → Reader Tree
  | 0 => readTreeWith refuseDeeper refuseDeeper
  | depth + 1 =>
    readTreeWith
      (fun _ rest =>
        (inList (readAllItems (readTree depth)) rest).map fun (items, rest) => (.list items, rest))
      (fun _ rest =>
        (inObject (readAllMembers readStringKey (addEntry Entries.stringLess (readTree depth)) [])
            rest).map
          fun (members, rest) => (.object members, rest))

def printInt (n : Int) : Bytes := Utf8.ofString (toString n)

def printBinary64 (x : Binary64) : Bytes := Utf8.ofString (x.text .json)

def Number.print : Number → Bytes
  | .integer n => printInt n
  | .real x => printBinary64 x

def nullText : Bytes := 0x6E :: nullTail

def printBool (b : Bool) : Bytes := if b then 0x74 :: trueTail else 0x66 :: falseTail

def commaSeparated : List Bytes → Bytes
  | [] => []
  | [item] => item
  | item :: items => item ++ 0x2C :: commaSeparated items

def bracketed (items : List Bytes) : Bytes := 0x5B :: commaSeparated items ++ [0x5D]

def braced (members : List Bytes) : Bytes := 0x7B :: commaSeparated members ++ [0x7D]

def printMember (name value : Bytes) : Bytes := name ++ 0x3A :: value

mutual

def Tree.print : Tree → Bytes
  | .null => nullText
  | .boolean b => printBool b
  | .number n => n.print
  | .string s => printString s
  | .list items => bracketed (printItems items)
  | .object members => braced (printMembers members)

def printItems : List Tree → List Bytes
  | [] => []
  | t :: ts => t.print :: printItems ts

def printMembers : List (String × Tree) → List Bytes
  | [] => []
  | (name, t) :: members => printMember (printString name) t.print :: printMembers members

end

end PolyCache.Json
