import PolyCache.Json.Skip

-- Reading a number. Integers of 64 bits, signed or not, are kept exactly. All others become doubles
-- in two steps: the leading digits as far as 64 bits hold them are rounded to a double, which is
-- then multiplied or divided once by a power of ten.
namespace PolyCache.Json

inductive Number where
  | integer (n : Int)
  | real (x : Binary64)
deriving DecidableEq

def digitValue (b : UInt8) : Nat := b.toNat - 0x30

def maxUnsigned : Nat := Nat.pow 2 64 - 1

def maxSigned : Nat := Nat.pow 2 63 - 1

def greatestPower : Nat := 308

def powerOfTen (e : Nat) : Binary64 := Binary64.ofNat (Nat.pow 10 e)

-- Division by a power of ten, in several steps if the power itself is too large for a double.
def divideByPower (x : Binary64) (e : Nat) : Binary64 :=
  if e ≤ greatestPower then x.div (powerOfTen e)
  else if x.isZero then x
  else divideByPower (x.div (powerOfTen greatestPower)) (e - greatestPower)
termination_by e
decreasing_by simp [greatestPower] at *; omega

-- `significand * 10 ^ exponent`, or nothing if it is too large.
def ofParts? (negative : Bool) (significand : Nat) (exponent : Int) : Option Binary64 :=
  let x := Binary64.ofNat significand
  let signed (x : Binary64) := if negative then x.neg else x
  if exponent < 0 then some (signed (divideByPower x exponent.natAbs))
  else if exponent.natAbs ≤ greatestPower then
    let y := x.mul (powerOfTen exponent.natAbs)
    if y.isInfinite then none else some (signed y)
  else if x.isZero then some (signed x)
  else none

def realOfParts (negative : Bool) (significand : Nat) (exponent : Int) (rest : Bytes) :
    Except Fault (Binary64 × Bytes) :=
  match ofParts? negative significand exponent with
  | some x => .ok (x, rest)
  | none => .error (.here .numberOutOfRange rest)

-- The greatest exponent that is still read exactly.
def maxExponent : Nat := Nat.pow 2 31 - 1

-- The digits of an exponent after the first. An exponent beyond all bounds makes zero of a zero
-- and of a negative exponent, and is refused otherwise.
def readExponentDigits (negative : Bool) (significand : Nat) (start : Int)
    (negativeExponent : Bool) :
    (exponent : Nat) → Bytes → Except Fault (Binary64 × Bytes)
  | exponent, [] => realOfParts negative significand (total exponent) []
  | exponent, b :: rest =>
    if isDigit b then
      let next := exponent * 10 + digitValue b
      if maxExponent < next then
        if significand ≠ 0 && !negativeExponent then .error (.here .numberOutOfRange rest)
        else .ok (Binary64.zero negative, rest.dropWhile isDigit)
      else readExponentDigits negative significand start negativeExponent next rest
    else realOfParts negative significand (total exponent) (b :: rest)
where
  total (exponent : Nat) : Int := if negativeExponent then start - exponent else start + exponent

def readExponent (negative : Bool) (significand : Nat) (start : Int) (bytes : Bytes) :
    Except Fault (Binary64 × Bytes) :=
  let (negativeExponent, bytes) :=
    match bytes with
    | b :: rest =>
      if b = 0x2D then (true, rest) else if b = 0x2B then (false, rest) else (false, bytes)
    | [] => (false, bytes)
  match bytes with
  | [] => .error (.here .endInValue [])
  | b :: rest =>
    if isDigit b then
      readExponentDigits negative significand start negativeExponent (digitValue b) rest
    else .error (.here .malformedNumber rest)

-- What follows the digits of a number: an exponent or nothing.
def readScale (negative : Bool) (significand : Nat) (exponent : Int) (bytes : Bytes) :
    Except Fault (Binary64 × Bytes) :=
  match bytes with
  | b :: rest =>
    if Skip.isExponentMark b then readExponent negative significand exponent rest
    else realOfParts negative significand exponent bytes
  | [] => realOfParts negative significand exponent bytes

-- The digits after the point. Those that no longer fit into 64 bits are passed over.
def readDecimals (negative : Bool) : (significand : Nat) → (exponent : Int) → (any : Bool) → Bytes →
    Except Fault (Binary64 × Bytes)
  | significand, exponent, any, [] =>
    if any then readScale negative significand exponent [] else .error (.next .endInValue [])
  | significand, exponent, any, b :: rest =>
    if isDigit b then
      let next := significand * 10 + digitValue b
      if maxUnsigned < next then
        readScale negative significand exponent (rest.dropWhile isDigit)
      else readDecimals negative next (exponent - 1) true rest
    else if any then readScale negative significand exponent (b :: rest)
    else .error (.next .malformedNumber (b :: rest))

-- The digits of a whole number that no longer fit into 64 bits; each counts as a power of ten.
def readLongWhole (negative : Bool) (significand : Nat) :
    (exponent : Nat) → Bytes → Except Fault (Binary64 × Bytes)
  | exponent, [] => realOfParts negative significand exponent []
  | exponent, b :: rest =>
    if isDigit b then readLongWhole negative significand (exponent + 1) rest
    else if b = 0x2E then readDecimals negative significand exponent false rest
    else if Skip.isExponentMark b then readExponent negative significand exponent rest
    else realOfParts negative significand exponent (b :: rest)

def asReal : Except Fault (Binary64 × Bytes) → Except Fault (Number × Bytes)
  | .ok (x, rest) => .ok (.real x, rest)
  | .error fault => .error fault

-- A whole number: an integer if it has 64 bits. Minus zero and the numbers below the least signed
-- integer are doubles.
def wholeNumber (negative : Bool) (significand : Nat) : Number :=
  if !negative then .integer significand
  else if significand = 0 || maxSigned + 1 < significand then .real (Binary64.ofNat significand).neg
  else .integer (-significand)

def endWhole (negative : Bool) (significand : Nat) (bytes : Bytes) :
    Except Fault (Number × Bytes) :=
  match bytes with
  | b :: rest =>
    if b = 0x2E then asReal (readDecimals negative significand 0 false rest)
    else if Skip.isExponentMark b then asReal (readExponent negative significand 0 rest)
    else .ok (wholeNumber negative significand, bytes)
  | [] => .ok (wholeNumber negative significand, bytes)

def readDigits (negative : Bool) : (significand : Nat) → Bytes → Except Fault (Number × Bytes)
  | significand, [] => endWhole negative significand []
  | significand, b :: rest =>
    if isDigit b then
      let next := significand * 10 + digitValue b
      if maxUnsigned < next then asReal (readLongWhole negative significand 0 (b :: rest))
      else readDigits negative next rest
    else endWhole negative significand (b :: rest)

-- A number after its sign. A leading zero stands alone.
def readUnsigned (negative : Bool) : Bytes → Except Fault (Number × Bytes)
  | [] => .error (.here .endInValue [])
  | b :: rest =>
    if b = 0x30 then
      match rest with
      | c :: _ =>
        if isDigit c then .error (.next .malformedNumber rest) else endWhole negative 0 rest
      | [] => endWhole negative 0 []
    else if isDigit b then readDigits negative (digitValue b) rest
    else .error (.here .malformedNumber rest)

def startsNumber (b : UInt8) : Bool := b = 0x2D || isDigit b

-- A number, at its first byte.
def readNumber : Bytes → Except Fault (Number × Bytes)
  | [] => .error (.here .endInValue [])
  | b :: rest => if b = 0x2D then readUnsigned true rest else readUnsigned false (b :: rest)

def Number.found : Number → Found
  | .integer n => .integer n
  | .real x => .real x

end PolyCache.Json
