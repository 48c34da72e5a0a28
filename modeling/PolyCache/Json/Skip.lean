import PolyCache.Json.Fault

-- Passing over one JSON value without building it. The text is read one byte at a time by a machine
-- with a mode and the stack of lists and objects that are still open, so nesting has no limit. The
-- grammar is checked, the contents are not: numbers of any size, any bytes and any escaped
-- surrogates in strings pass.
namespace PolyCache.Json

def isSpace (b : UInt8) : Bool := b = 0x20 || b = 0x0A || b = 0x0D || b = 0x09

def isDigit (b : UInt8) : Bool := 0x30 ≤ b && b ≤ 0x39

def hexValue? (b : UInt8) : Option Nat :=
  if 0x30 ≤ b && b ≤ 0x39 then some (b.toNat - 0x30)
  else if 0x61 ≤ b && b ≤ 0x66 then some (b.toNat - 0x57)
  else if 0x41 ≤ b && b ≤ 0x46 then some (b.toNat - 0x37)
  else none

-- The bytes that may follow a backslash on their own: `" \ / b f n r t`.
def isShortEscape (b : UInt8) : Bool :=
  b = 0x22 || b = 0x5C || b = 0x2F || b = 0x62 || b = 0x66 || b = 0x6E || b = 0x72 || b = 0x74

-- What a literal consists of after its first byte.
def nullTail : Bytes := [0x75, 0x6C, 0x6C]
def trueTail : Bytes := [0x72, 0x75, 0x65]
def falseTail : Bytes := [0x61, 0x6C, 0x73, 0x65]

end PolyCache.Json

namespace PolyCache.Json.Skip

inductive Frame where
  | list
  | object
deriving DecidableEq, Repr

inductive Mode where
  | value
  -- the innermost container has just been opened
  | opened
  -- a member name has to follow
  | key
  | colon
  -- a value inside a container has been read
  | after
  -- inside `null`, `true` or `false`, with the bytes that have to follow
  | literal (left : Bytes)
  -- inside a string, which is a member name or a value; after its backslash; inside `\u`
  | text (isKey : Bool)
  | escape (isKey : Bool)
  | hex (isKey : Bool) (left : Nat) (wellFormed : Bool)
  -- inside a number: after its sign, a leading zero, other digits, the point, digits after it, the
  -- exponent letter, the exponent sign, exponent digits
  | minus
  | zero
  | digits
  | point
  | decimals
  | exponentMark
  | exponentSign
  | exponent
deriving DecidableEq, Repr

inductive Move where
  | go (mode : Mode) (frames : List Frame)
  -- the byte is the last one of the outermost value
  | finish
  -- the outermost value, a number, ended before the byte
  | stop
  -- the byte cannot stand here; the fault lies after it
  | refuse (reason : Reason)
  -- the byte cannot stand here; the fault lies before it
  | refuseBefore (reason : Reason)

-- A value has been completed inside the given containers.
def completed : List Frame → Move
  | [] => .finish
  | frames => .go .after frames

def startValue (frames : List Frame) (b : UInt8) : Move :=
  if b = 0x6E then .go (.literal nullTail) frames
  else if b = 0x74 then .go (.literal trueTail) frames
  else if b = 0x66 then .go (.literal falseTail) frames
  else if b = 0x2D then .go .minus frames
  else if b = 0x30 then .go .zero frames
  else if isDigit b then .go .digits frames
  else if b = 0x22 then .go (.text false) frames
  else if b = 0x5B then .go .opened (.list :: frames)
  else if b = 0x7B then .go .opened (.object :: frames)
  else .refuse .expectedValue

def startKey (frames : List Frame) (b : UInt8) : Move :=
  if b = 0x22 then .go (.text true) frames else .refuse .expectedStringKey

def Frame.closer : Frame → UInt8
  | .list => 0x5D
  | .object => 0x7D

-- After a value inside a container: a comma, or the end of the container.
def continueFrame (frame : Frame) (frames : List Frame) (b : UInt8) : Move :=
  if isSpace b then .go .after (frame :: frames)
  else if b = frame.closer then completed frames
  else if b = 0x2C then
    match frame with
    | .list => .go .value (frame :: frames)
    | .object => .go .key (frame :: frames)
  else
    match frame with
    | .list => .refuse .expectedCommaInList
    | .object => .refuse .expectedCommaInObject

-- A byte that does not belong to the number before it.
def afterNumber (frames : List Frame) (b : UInt8) : Move :=
  match frames with
  | [] => .stop
  | frame :: frames => continueFrame frame frames b

def isExponentMark (b : UInt8) : Bool := b = 0x65 || b = 0x45

def isSign (b : UInt8) : Bool := b = 0x2B || b = 0x2D

def advance (mode : Mode) (frames : List Frame) (b : UInt8) : Move :=
  match mode with
  | .value => if isSpace b then .go .value frames else startValue frames b
  | .opened =>
    match frames with
    | [] => .refuse .expectedValue
    | frame :: outer =>
      if isSpace b then .go .opened frames
      else if b = frame.closer then completed outer
      else
        match frame with
        | .list => startValue frames b
        | .object => startKey frames b
  | .key => if isSpace b then .go .key frames else startKey frames b
  | .colon =>
    if isSpace b then .go .colon frames
    else if b = 0x3A then .go .value frames
    else .refuse .expectedColon
  | .after =>
    match frames with
    | [] => .stop
    | frame :: outer => continueFrame frame outer b
  | .literal [] => .refuse .expectedLiteral
  | .literal (expected :: left) =>
    if b = expected then
      match left with
      | [] => completed frames
      | _ => .go (.literal left) frames
    else .refuse .expectedLiteral
  | .text isKey =>
    if b = 0x22 then if isKey then .go .colon frames else completed frames
    else if b = 0x5C then .go (.escape isKey) frames
    else if b < 0x20 then .refuseBefore .controlCharacter
    else .go (.text isKey) frames
  | .escape isKey =>
    if isShortEscape b then .go (.text isKey) frames
    else if b = 0x75 then .go (.hex isKey 4 true) frames
    else .refuse .malformedEscape
  | .hex isKey left wellFormed =>
    let wellFormed := wellFormed && (hexValue? b).isSome
    if left ≤ 1 then
      if wellFormed then .go (.text isKey) frames else .refuse .malformedEscape
    else .go (.hex isKey (left - 1) wellFormed) frames
  | .minus =>
    if b = 0x30 then .go .zero frames
    else if isDigit b then .go .digits frames
    else .refuse .malformedNumber
  | .zero =>
    if isDigit b then .refuse .malformedNumber
    else if b = 0x2E then .go .point frames
    else if isExponentMark b then .go .exponentMark frames
    else afterNumber frames b
  | .digits =>
    if isDigit b then .go .digits frames
    else if b = 0x2E then .go .point frames
    else if isExponentMark b then .go .exponentMark frames
    else afterNumber frames b
  | .point => if isDigit b then .go .decimals frames else .refuse .malformedNumber
  | .decimals =>
    if isDigit b then .go .decimals frames
    else if isExponentMark b then .go .exponentMark frames
    else afterNumber frames b
  | .exponentMark =>
    if isSign b then .go .exponentSign frames
    else if isDigit b then .go .exponent frames
    else .refuse .malformedNumber
  | .exponentSign => if isDigit b then .go .exponent frames else .refuse .malformedNumber
  | .exponent => if isDigit b then .go .exponent frames else afterNumber frames b

-- A number may end with the text.
def Mode.endsNumber : Mode → Bool
  | .zero | .digits | .decimals | .exponent => true
  | _ => false

-- Why the text may not end here.
def Mode.endReason (frames : List Frame) : Mode → Reason
  | .value | .literal _ => .endInValue
  | .key | .colon => .endInObject
  | .text _ | .escape _ | .hex _ _ _ => .endInString
  | .minus | .point | .exponentMark | .exponentSign => .malformedNumber
  | .opened | .after | .zero | .digits | .decimals | .exponent =>
    match frames with
    | [] => .endInValue
    | .list :: _ => .endInList
    | .object :: _ => .endInObject

-- Reads on to the end of the outermost value and returns what follows it.
def run (mode : Mode) (frames : List Frame) : Bytes → Except Fault Bytes
  | [] =>
    if mode.endsNumber && frames.isEmpty then .ok []
    else .error (.placed (mode.endReason frames) 0)
  | b :: rest =>
    match advance mode frames b with
    | .go mode frames => run mode frames rest
    | .finish => .ok rest
    | .stop => .ok (b :: rest)
    | .refuse reason => .error (.here reason rest)
    | .refuseBefore reason => .error (.here reason (b :: rest))

end PolyCache.Json.Skip

namespace PolyCache.Json

-- Passes over white space and one value.
def skipValue (bytes : Bytes) : Except Fault Bytes := Skip.run .value [] bytes

def dropSpace (bytes : Bytes) : Bytes := bytes.dropWhile isSpace

-- Only white space may be left.
def finish (bytes : Bytes) : Except Fault Unit :=
  match dropSpace bytes with
  | [] => .ok ()
  | rest => .error (.next .trailingCharacters rest)

-- Whether the bytes are one JSON text.
def check (bytes : Bytes) : Except Fault Unit := skipValue bytes >>= finish

end PolyCache.Json
