import PolyCache.Json.Number
import PolyCache.Json.Text

-- Readers of typed values. A reader takes the bytes at a value and returns the value with the bytes
-- behind it. Lists and objects are walked item by item; what an item means is the caller's.
namespace PolyCache.Json

abbrev Reader (α : Type) := Bytes → Except Fault (α × Bytes)

-- How many lists and objects may stand inside one another.
def maxDepth : Nat := 127

-- The rest of a literal whose first byte has been read.
def readLiteral : (tail : Bytes) → Bytes → Except Fault Bytes
  | [], bytes => .ok bytes
  | _ :: _, [] => .error (.here .endInValue [])
  | expected :: tail, b :: rest =>
    if b = expected then readLiteral tail rest else .error (.here .expectedLiteral rest)

-- What kind of value begins with `b`. Literals, numbers and strings are read, lists and objects are
-- left where they are.
def readFound (b : UInt8) (rest : Bytes) : Except Fault (Found × Bytes) :=
  if b = 0x6E then (readLiteral nullTail rest).map (.null, ·)
  else if b = 0x74 then (readLiteral trueTail rest).map (.boolean true, ·)
  else if b = 0x66 then (readLiteral falseTail rest).map (.boolean false, ·)
  else if startsNumber b then (readNumber (b :: rest)).map fun (n, rest) => (n.found, rest)
  else if b = 0x22 then (readString rest).map fun (s, rest) => (.string s, rest)
  else if b = 0x5B then .ok (.list, b :: rest)
  else if b = 0x7B then .ok (.object, b :: rest)
  else .error (.next .expectedValue (b :: rest))

def mismatch (expected : String) (b : UInt8) (rest : Bytes) : Fault :=
  match readFound b rest with
  | .error fault => fault
  | .ok (found, rest) => .here (.wrongType found expected) rest

-- Passes white space; something has to follow. `read` gets the next byte and the bytes after it.
def atValue {α : Type} (read : UInt8 → Bytes → Except Fault (α × Bytes)) : Reader α := fun bytes =>
  match dropSpace bytes with
  | [] => .error (.next .endInValue [])
  | b :: rest => read b rest

def readUnit : Reader Unit := atValue fun b rest =>
  if b = 0x6E then (readLiteral nullTail rest).map ((), ·)
  else .error (mismatch "unit" b rest)

def readBool : Reader Bool := atValue fun b rest =>
  if b = 0x74 then (readLiteral trueTail rest).map (true, ·)
  else if b = 0x66 then (readLiteral falseTail rest).map (false, ·)
  else .error (mismatch "a boolean" b rest)

def integerWithin (expected : String) (low high : Int) (n : Number) (rest : Bytes) :
    Except Fault (Int × Bytes) :=
  match n with
  | .integer n =>
    if low ≤ n && n ≤ high then .ok (n, rest)
    else .error (.here (.wrongValue (.integer n) expected) rest)
  | .real x => .error (.here (.wrongType (.real x) expected) rest)

def readIntegerWithin (expected : String) (low high : Int) : Reader Int := atValue fun b rest =>
  if startsNumber b then
    match readNumber (b :: rest) with
    | .error fault => .error fault
    | .ok (n, rest) => integerWithin expected low high n rest
  else .error (mismatch expected b rest)

def Number.toBinary64 : Number → Binary64
  | .integer n => .ofInt n
  | .real x => x

def readBinary64 : Reader Binary64 := atValue fun b rest =>
  if startsNumber b then (readNumber (b :: rest)).map fun (n, rest) => (n.toBinary64, rest)
  else .error (mismatch "f64" b rest)

def readStringAs (expected : String) : Reader String := atValue fun b rest =>
  if b = 0x22 then readString rest else .error (mismatch expected b rest)

-- `null` is no value.
def readOption {α : Type} (read : Reader α) : Reader (Option α) := atValue fun b rest =>
  if b = 0x6E then (readLiteral nullTail rest).map (none, ·)
  else (read (b :: rest)).map fun (a, rest) => (some a, rest)

-- Whether another item of a list follows. The bytes returned are those at the item, or at the
-- bracket that ends the list.
def nextItem (first : Bool) (bytes : Bytes) : Except Fault (Bool × Bytes) :=
  match dropSpace bytes with
  | [] => .error (.next .endInList [])
  | b :: rest =>
    if b = 0x5D then .ok (false, b :: rest)
    else if first then .ok (true, b :: rest)
    else if b = 0x2C then
      match dropSpace rest with
      | [] => .error (.next .endInValue [])
      | c :: rest =>
        if c = 0x5D then .error (.next .trailingComma (c :: rest)) else .ok (true, c :: rest)
    else .error (.next .expectedCommaInList (b :: rest))

-- The end of a list all of whose expected items have been read.
def closeList (bytes : Bytes) : Except Fault Bytes :=
  match dropSpace bytes with
  | [] => .error (.next .endInList [])
  | b :: rest =>
    if b = 0x5D then .ok rest
    else if b = 0x2C then
      match dropSpace rest with
      | [] => .error (.next .trailingCharacters [])
      | c :: rest =>
        if c = 0x5D then .error (.next .trailingComma (c :: rest))
        else .error (.next .trailingCharacters (c :: rest))
    else .error (.next .trailingCharacters (b :: rest))

-- How far an attempt to close a list gets.
def passListEnd (bytes : Bytes) : Bytes :=
  match dropSpace bytes with
  | [] => []
  | b :: rest =>
    if b = 0x5D then rest else if b = 0x2C then dropSpace rest else b :: rest

-- A list after its opening bracket, with its closing bracket.
def inList {α : Type} (body : Reader α) : Reader α := fun bytes =>
  match body bytes with
  | .error fault => .error (fault.settle passListEnd)
  | .ok (a, rest) =>
    match closeList rest with
    | .error fault => .error fault
    | .ok rest => .ok (a, rest)

-- All items of a list. Each takes a byte at least.
def readItems {α : Type} (item : Reader α) : (fuel : Nat) → (first : Bool) → Reader (List α)
  | 0, _ => fun bytes => .error (.next .endInList bytes)
  | fuel + 1, first => fun bytes =>
    match nextItem first bytes with
    | .error fault => .error fault
    | .ok (false, rest) => .ok ([], rest)
    | .ok (true, rest) =>
      match item rest with
      | .error fault => .error fault
      | .ok (a, rest) =>
        match readItems item fuel false rest with
        | .error fault => .error fault
        | .ok (as, rest) => .ok (a :: as, rest)

def readAllItems {α : Type} (item : Reader α) : Reader (List α) := fun bytes =>
  readItems item (bytes.length + 1) true bytes

-- Whether another member of an object follows. The bytes returned are those at its name, or at the
-- brace that ends the object.
def nextMember (first : Bool) (bytes : Bytes) : Except Fault (Bool × Bytes) :=
  let atName (b : UInt8) (rest : Bytes) : Except Fault (Bool × Bytes) :=
    if b = 0x22 then .ok (true, b :: rest) else .error (.next .expectedStringKey (b :: rest))
  match dropSpace bytes with
  | [] => .error (.next .endInObject [])
  | b :: rest =>
    if b = 0x7D then .ok (false, b :: rest)
    else if first then atName b rest
    else if b = 0x2C then
      match dropSpace rest with
      | [] => .error (.next .endInValue [])
      | c :: rest =>
        if c = 0x7D then .error (.next .trailingComma (c :: rest)) else atName c rest
    else .error (.next .expectedCommaInObject (b :: rest))

def readColon (bytes : Bytes) : Except Fault Bytes :=
  match dropSpace bytes with
  | [] => .error (.next .endInObject [])
  | b :: rest => if b = 0x3A then .ok rest else .error (.next .expectedColon (b :: rest))

def closeObject (bytes : Bytes) : Except Fault Bytes :=
  match dropSpace bytes with
  | [] => .error (.next .endInObject [])
  | b :: rest =>
    if b = 0x7D then .ok rest
    else if b = 0x2C then .error (.next .trailingComma (b :: rest))
    else .error (.next .trailingCharacters (b :: rest))

-- How far an attempt to close an object gets.
def passObjectEnd (bytes : Bytes) : Bytes :=
  match dropSpace bytes with
  | [] => []
  | b :: rest => if b = 0x7D then rest else b :: rest

-- An object after its opening brace, with its closing brace.
def inObject {α : Type} (body : Reader α) : Reader α := fun bytes =>
  match body bytes with
  | .error fault => .error (fault.settle passObjectEnd)
  | .ok (a, rest) =>
    match closeObject rest with
    | .error fault => .error fault
    | .ok rest => .ok (a, rest)

-- All members of an object, folded into a state. `enter` sees a member's name before its colon and
-- either refuses it or says how its value changes the state.
def readMembers {κ σ : Type} (key : Reader κ) (enter : σ → κ → Except Reason (Reader σ)) :
    (fuel : Nat) → (first : Bool) → σ → Reader σ
  | 0, _, _ => fun bytes => .error (.next .endInObject bytes)
  | fuel + 1, first, state => fun bytes =>
    match nextMember first bytes with
    | .error fault => .error fault
    | .ok (false, rest) => .ok (state, rest)
    | .ok (true, rest) =>
      match key rest with
      | .error fault => .error fault
      | .ok (k, rest) =>
        match enter state k with
        | .error reason => .error (.floating reason rest)
        | .ok value =>
          match readColon rest with
          | .error fault => .error fault
          | .ok rest =>
            match value rest with
            | .error fault => .error fault
            | .ok (state, rest) => readMembers key enter fuel false state rest

def readAllMembers {κ σ : Type} (key : Reader κ) (enter : σ → κ → Except Reason (Reader σ))
    (state : σ) : Reader σ := fun bytes =>
  readMembers key enter (bytes.length + 1) true state bytes

def readStringKey : Reader String := fun bytes => readString (bytes.drop 1)

-- A member name that is an integer in quotes, at its opening quote.
def readIntegerKey (expected : String) (low high : Int) : Reader Int := fun bytes =>
  match bytes.drop 1 with
  | [] => .error (.here .expectedNumericKey [])
  | b :: rest =>
    if startsNumber b then
      match readNumber (b :: rest) with
      | .error fault => .error fault
      | .ok (n, rest) =>
        match integerWithin expected low high n rest with
        | .error fault => .error fault
        | .ok (n, rest) =>
          match rest with
          | [] => .error (.next .expectedQuote [])
          | c :: rest' => if c = 0x22 then .ok (n, rest') else .error (.next .expectedQuote rest)
    else .error (.here .expectedNumericKey (b :: rest))

def deeper {α : Type} (depth : Nat) (bytes : Bytes) (read : Nat → Except Fault (α × Bytes)) :
    Except Fault (α × Bytes) :=
  match depth with
  | 0 => .error (.next .tooDeep bytes)
  | depth + 1 => read depth

-- A list, all of whose items have one type.
def readListOf {α : Type} (item : Nat → Reader α) (depth : Nat) : Reader (List α) :=
  atValue fun b rest =>
    if b = 0x5B then
      deeper depth (b :: rest) fun depth => inList (readAllItems (item depth)) rest
    else .error (mismatch "a sequence" b rest)

-- An object, folded into a state.
def readObjectInto {κ σ : Type} (key : Reader κ)
    (enter : (depth : Nat) → σ → κ → Except Reason (Reader σ)) (state : σ) (depth : Nat) :
    Reader σ :=
  atValue fun b rest =>
    if b = 0x7B then
      deeper depth (b :: rest) fun depth => inObject (readAllMembers key (enter depth) state) rest
    else .error (mismatch "a map" b rest)

-- A record, written as an object or as the list of its fields in order.
def readRecord {α : Type} (expected : String) (fields : (depth : Nat) → Reader α)
    (members : (depth : Nat) → Reader α) (depth : Nat) : Reader α :=
  atValue fun b rest =>
    if b = 0x5B then deeper depth (b :: rest) fun depth => inList (fields depth) rest
    else if b = 0x7B then deeper depth (b :: rest) fun depth => inObject (members depth) rest
    else .error (mismatch expected b rest)

-- The next field of a record written as a list, if there is one.
def readField? {α : Type} (first : Bool) (read : Reader α) : Reader (Option α) := fun bytes =>
  match nextItem first bytes with
  | .error fault => .error fault
  | .ok (false, rest) => .ok (none, rest)
  | .ok (true, rest) => (read rest).map fun (a, rest) => (some a, rest)

-- Fills a field that may be given once. `set` puts the value into the record.
def fillOnce {α σ : Type} (name : String) (old : Option α) (read : Reader α) (set : α → σ) :
    Except Reason (Reader σ) :=
  if old.isSome then .error (.duplicateField name)
  else .ok fun bytes => (read bytes).map fun (a, rest) => (set a, rest)

-- A whole text: one value and white space.
def readWhole {α : Type} (read : Reader α) (bytes : Bytes) : Except Fault α :=
  match read bytes with
  | .error fault => .error fault
  | .ok (a, rest) => (finish rest).map fun _ => a

end PolyCache.Json
