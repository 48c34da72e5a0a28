import PolyCache.Text.Utf8
import PolyCache.Text.Printable

-- Quoted text: how strings and byte strings are shown in diagnostics. A shown character stands for
-- itself; the others are written with a backslash.
namespace PolyCache.Quoted

def hexDigit (n : Nat) : Char :=
  if n < 10 then Char.ofNat (0x30 + n) else Char.ofNat (0x57 + n)

-- Lower-case hexadecimal digits without leading zeros, one digit at least.
def hexDigits (n : Nat) : List Char :=
  Nat.toDigits 16 n

-- Two lower-case hexadecimal digits.
def hexByte (b : UInt8) : List Char := [hexDigit (b.toNat / 16), hexDigit (b.toNat % 16)]

-- The escapes that have a letter of their own.
def shortEscape? (c : Char) : Option Char :=
  if c = '\n' then some 'n'
  else if c = '\r' then some 'r'
  else if c = '\t' then some 't'
  else if c = '\\' then some '\\'
  else if c = '"' then some '"'
  else if c = Char.ofNat 0 then some '0'
  else none

def escapeChar (c : Char) : List Char :=
  match shortEscape? c with
  | some letter => ['\\', letter]
  | none =>
    if Printable.isPrintable c then [c]
    else "\\u\x7b".toList ++ hexDigits c.toNat ++ "\x7d".toList

-- A string between quotes.
def text (s : String) : String :=
  String.ofList ('"' :: s.toList.flatMap escapeChar ++ ['"'])

def escapeByte (b : UInt8) : List Char :=
  let c := Char.ofNat b.toNat
  match shortEscape? c with
  | some letter => ['\\', letter]
  | none => if 0x20 ≤ b && b < 0x7F then [c] else '\\' :: 'x' :: hexByte b

-- A byte string between quotes, marked by a leading letter.
def bytes (bytes : Bytes) : String :=
  String.ofList ('b' :: '"' :: bytes.flatMap escapeByte ++ ['"'])

end PolyCache.Quoted
