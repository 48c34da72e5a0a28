import PolyCache.Json.Skip

-- Reading and printing a string. What a string holds is read as bytes, an escape as the bytes of
-- its character; all of them together have to be UTF-8.
namespace PolyCache.Json

-- The four digits of an escape by number.
def readHex : Bytes → Except Fault (Nat × Bytes)
  | a :: b :: c :: d :: rest =>
    match hexValue? a, hexValue? b, hexValue? c, hexValue? d with
    | some a, some b, some c, some d => .ok (((a * 16 + b) * 16 + c) * 16 + d, rest)
    | _, _, _, _ => .error (.here .malformedEscape rest)
  | _ => .error (.here .endInString [])

def isLeadingSurrogate (n : Nat) : Bool := 0xD800 ≤ n && n ≤ 0xDBFF

def isTrailingSurrogate (n : Nat) : Bool := 0xDC00 ≤ n && n ≤ 0xDFFF

-- The second half of a surrogate pair, from its backslash on.
def readTrailing : Bytes → Except Fault (Nat × Bytes)
  | [] => .error (.here .endInString [])
  | b :: rest =>
    if b ≠ 0x5C then .error (.here .unfinishedSurrogate rest)
    else
      match rest with
      | [] => .error (.here .endInString [])
      | u :: rest =>
        if u ≠ 0x75 then .error (.here .unfinishedSurrogate rest)
        else
          match readHex rest with
          | .error fault => .error fault
          | .ok (n, rest) =>
            if isTrailingSurrogate n then .ok (n, rest) else .error (.here .loneSurrogate rest)

-- An escape by number, after its `\u`. A surrogate has to be the leading half of a pair.
def readCodePoint (bytes : Bytes) : Except Fault (Char × Bytes) :=
  match readHex bytes with
  | .error fault => .error fault
  | .ok (n, rest) =>
    if isTrailingSurrogate n then .error (.here .loneSurrogate rest)
    else if isLeadingSurrogate n then
      match readTrailing rest with
      | .error fault => .error fault
      | .ok (m, rest) =>
        .ok (Char.ofNat (0x10000 + (n - 0xD800) * 1024 + (m - 0xDC00)), rest)
    else .ok (Char.ofNat n, rest)

def shortEscape? (b : UInt8) : Option Char :=
  if b = 0x22 then some '"'
  else if b = 0x5C then some '\\'
  else if b = 0x2F then some '/'
  else if b = 0x62 then some (Char.ofNat 0x08)
  else if b = 0x66 then some (Char.ofNat 0x0C)
  else if b = 0x6E then some '\n'
  else if b = 0x72 then some '\r'
  else if b = 0x74 then some '\t'
  else none

def readEscape : Bytes → Except Fault (Char × Bytes)
  | [] => .error (.here .endInString [])
  | b :: rest =>
    match shortEscape? b with
    | some c => .ok (c, rest)
    | none => if b = 0x75 then readCodePoint rest else .error (.here .malformedEscape rest)

-- What a string holds, up to its closing quote, which is passed. Each step takes a byte at least,
-- so the number of bytes bounds the number of steps.
def readContents : (fuel : Nat) → Bytes → Except Fault (Bytes × Bytes)
  | 0, _ => .error (.here .endInString [])
  | _, [] => .error (.here .endInString [])
  | fuel + 1, b :: rest =>
    if b = 0x22 then .ok ([], rest)
    else if b = 0x5C then
      match readEscape rest with
      | .error fault => .error fault
      | .ok (c, rest) =>
        match readContents fuel rest with
        | .error fault => .error fault
        | .ok (contents, rest) => .ok (Utf8.encodeChar c ++ contents, rest)
    else if b < 0x20 then .error (.here .controlCharacter rest)
    else
      match readContents fuel rest with
      | .error fault => .error fault
      | .ok (contents, rest) => .ok (b :: contents, rest)

-- A string after its opening quote, as characters. A fault in the contents is placed by counting
-- back from the closing quote, as if no escape stood between.
def readChars (bytes : Bytes) : Except Fault (List Char × Bytes) :=
  match readContents (bytes.length + 1) bytes with
  | .error fault => .error fault
  | .ok (contents, rest) =>
    match Utf8.decode contents with
    | .ok chars => .ok (chars, rest)
    | .error fault => .error (.placed .notUtf8 (contents.length - fault.index + rest.length))

def readString (bytes : Bytes) : Except Fault (String × Bytes) :=
  match readChars bytes with
  | .error fault => .error fault
  | .ok (chars, rest) => .ok (String.ofList chars, rest)

def hexDigitByte (n : Nat) : UInt8 := (if n < 10 then 0x30 + n else 0x57 + n).toUInt8

-- The letter that follows the backslash of a character with a short escape when it is printed.
def shortLetter? (c : Char) : Option UInt8 :=
  if c = '"' then some 0x22
  else if c = '\\' then some 0x5C
  else if c = Char.ofNat 0x08 then some 0x62
  else if c = Char.ofNat 0x0C then some 0x66
  else if c = '\n' then some 0x6E
  else if c = '\r' then some 0x72
  else if c = '\t' then some 0x74
  else none

-- Quotes, backslashes and control characters are escaped, all others printed as they are.
def printChar (c : Char) : Bytes :=
  match shortLetter? c with
  | some letter => [0x5C, letter]
  | none =>
    if c.toNat < 0x20 then
      [0x5C, 0x75, 0x30, 0x30, hexDigitByte (c.toNat / 16), hexDigitByte (c.toNat % 16)]
    else Utf8.encodeChar c

def printChars (chars : List Char) : Bytes := 0x22 :: chars.flatMap printChar ++ [0x22]

def printString (s : String) : Bytes := printChars s.toList

end PolyCache.Json
