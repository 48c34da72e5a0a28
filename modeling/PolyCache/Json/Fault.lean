import PolyCache.Text.Quoted
import PolyCache.Binary64.Decimal

-- What can be wrong with JSON text, where it is wrong, and how both are told.
namespace PolyCache.Json

-- What stands in a text where something else was expected.
inductive Found where
  | null
  | boolean (b : Bool)
  | integer (n : Int)
  | real (x : Binary64)
  | string (s : String)
  | list
  | object
deriving DecidableEq

def Found.text : Found → String
  | .null => "null"
  | .boolean b => "boolean `" ++ (if b then "true" else "false") ++ "`"
  | .integer n => "integer `" ++ toString n ++ "`"
  | .real x => "floating point `" ++ x.text .json ++ "`"
  | .string s => "string " ++ Quoted.text s
  | .list => "sequence"
  | .object => "map"

inductive Reason where
  -- the text ends too early
  | endInValue
  | endInString
  | endInList
  | endInObject
  -- the text breaks the grammar
  | expectedValue
  | expectedLiteral
  | expectedColon
  | expectedCommaInList
  | expectedCommaInObject
  | expectedQuote
  | expectedNumericKey
  | expectedStringKey
  | trailingComma
  | trailingCharacters
  | malformedNumber
  | malformedEscape
  | unfinishedSurrogate
  | loneSurrogate
  | controlCharacter
  | notUtf8
  -- the text is well formed but cannot be taken
  | numberOutOfRange
  | tooDeep
  | wrongType (found : Found) (expected : String)
  | wrongValue (found : Found) (expected : String)
  | wrongLength (length : Nat) (expected : String)
  | missingField (name : String)
  | duplicateField (name : String)
  | unknownField (name : String) (known : List String)
  | unknownVariant (name : String) (known : List String)
deriving DecidableEq

def namesText (names : List String) : String :=
  ", ".intercalate (names.map fun name => "`" ++ name ++ "`")

def Reason.text : Reason → String
  | .endInValue => "EOF while parsing a value"
  | .endInString => "EOF while parsing a string"
  | .endInList => "EOF while parsing a list"
  | .endInObject => "EOF while parsing an object"
  | .expectedValue => "expected value"
  | .expectedLiteral => "expected ident"
  | .expectedColon => "expected `:`"
  | .expectedCommaInList => "expected `,` or `]`"
  | .expectedCommaInObject => "expected `,` or `\x7d`"
  | .expectedQuote => "expected `\"`"
  | .expectedNumericKey => "invalid value: expected key to be a number in quotes"
  | .expectedStringKey => "key must be a string"
  | .trailingComma => "trailing comma"
  | .trailingCharacters => "trailing characters"
  | .malformedNumber => "invalid number"
  | .malformedEscape => "invalid escape"
  | .unfinishedSurrogate => "unexpected end of hex escape"
  | .loneSurrogate => "lone leading surrogate in hex escape"
  | .controlCharacter => "control character (\\u0000-\\u001F) found while parsing a string"
  | .notUtf8 => "invalid unicode code point"
  | .numberOutOfRange => "number out of range"
  | .tooDeep => "recursion limit exceeded"
  | .wrongType found expected => "invalid type: " ++ found.text ++ ", expected " ++ expected
  | .wrongValue found expected => "invalid value: " ++ found.text ++ ", expected " ++ expected
  | .wrongLength length expected =>
    "invalid length " ++ toString length ++ ", expected " ++ expected
  | .missingField name => "missing field `" ++ name ++ "`"
  | .duplicateField name => "duplicate field `" ++ name ++ "`"
  | .unknownField name known =>
    "unknown field `" ++ name ++ "`, expected one of " ++ namesText known
  | .unknownVariant name known =>
    "unknown variant `" ++ name ++ "`, expected one of " ++ namesText known

-- A reason with its place. The place is kept as the number of bytes not yet read. A `floating`
-- fault was found in what a list or an object holds as a whole; it keeps the unread bytes, and the
-- container gives it a place.
inductive Fault where
  | placed (reason : Reason) (left : Nat)
  | floating (reason : Reason) (rest : Bytes)
deriving DecidableEq

def Fault.here (reason : Reason) (rest : Bytes) : Fault := .placed reason rest.length

-- A fault found at the next byte, which is counted in if there is one.
def Fault.next (reason : Reason) (rest : Bytes) : Fault := .placed reason (rest.length - 1)

-- Gives a floating fault its place: what is left after `close` has passed over the unread bytes.
def Fault.settle (close : Bytes → Bytes) : Fault → Fault
  | .placed reason left => .placed reason left
  | .floating reason rest => .here reason (close rest)

def Fault.reason : Fault → Reason
  | .placed reason _ => reason
  | .floating reason _ => reason

def Fault.left : Fault → Nat
  | .placed _ left => left
  | .floating _ rest => rest.length

-- Lines count from one, columns are the bytes of the current line already read.
structure Position where
  line : Nat
  column : Nat
deriving DecidableEq, Repr

def Position.step (p : Position) (b : UInt8) : Position :=
  if b = 0x0A then ⟨p.line + 1, 0⟩ else ⟨p.line, p.column + 1⟩

def Position.after (bytes : Bytes) : Position := bytes.foldl Position.step ⟨1, 0⟩

-- What is told of a fault in the given text.
def Fault.message (whole : Bytes) (fault : Fault) : String :=
  let p := Position.after (whole.take (whole.length - fault.left))
  fault.reason.text ++ " at line " ++ toString p.line ++ " column " ++ toString p.column

end PolyCache.Json
