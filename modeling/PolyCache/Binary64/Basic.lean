namespace PolyCache

-- A double-precision number of the binary floating-point standard, held as its 64-bit pattern, so
-- that equality of `Binary64` tells -0 from 0 and one NaN from another.
structure Binary64 where
  bits : UInt64
deriving DecidableEq, Repr

end PolyCache

-- Fields of the pattern, rounding of exact quotients to the nearest double, and the operations and
-- comparisons built on them. All arithmetic is exact arithmetic on natural numbers followed by one
-- rounding.
namespace PolyCache.Binary64

def ofBits (n : Nat) : Binary64 := ⟨n.toUInt64⟩

def isNegative (x : Binary64) : Bool := Nat.pow 2 63 ≤ x.bits.toNat

def magnitude (x : Binary64) : Nat := x.bits.toNat % Nat.pow 2 63

def exponentField (x : Binary64) : Nat := x.magnitude / Nat.pow 2 52

def fraction (x : Binary64) : Nat := x.magnitude % Nat.pow 2 52

def isInfinite (x : Binary64) : Bool := x.exponentField == 2047 && x.fraction == 0

def isNaN (x : Binary64) : Bool := x.exponentField == 2047 && x.fraction != 0

def isZero (x : Binary64) : Bool := x.magnitude == 0

-- A finite number is `significand * 2 ^ scale / 2 ^ 1074`, up to its sign.
def significand (x : Binary64) : Nat :=
  if x.exponentField = 0 then x.fraction else Nat.pow 2 52 + x.fraction

def scale (x : Binary64) : Nat := x.exponentField - 1

-- The magnitude of a finite number in units of the smallest positive one.
def units (x : Binary64) : Nat := x.significand * Nat.pow 2 x.scale

def withSign (negative : Bool) (magnitude : Nat) : Binary64 :=
  ofBits (if negative then Nat.pow 2 63 + magnitude else magnitude)

def infinity (negative : Bool) : Binary64 := withSign negative (2047 * Nat.pow 2 52)

def nan : Binary64 := ofBits (4095 * Nat.pow 2 51)

def zero (negative : Bool) : Binary64 := withSign negative 0

-- Whole quotient, a half going to the even neighbour.
def roundQuotient (num den : Nat) : Nat :=
  let q := num / den
  let r := num % den
  if 2 * r < den then q
  else if den < 2 * r then q + 1
  else q + q % 2

-- The double nearest to `num / den` units of the smallest positive one, ties to the even
-- significand. A significand that rounds up to the next power of two carries into the exponent by
-- itself, and a result past the last finite number is infinite.
def nearestUnits (negative : Bool) (num den : Nat) : Binary64 :=
  let q := num / den
  let scale := if q < Nat.pow 2 53 then 0 else Nat.log2 q - 52
  let m := roundQuotient num (den * Nat.pow 2 scale)
  let magnitude := scale * Nat.pow 2 52 + m
  if magnitude < 2047 * Nat.pow 2 52 then withSign negative magnitude else infinity negative

def nearest (negative : Bool) (num den : Nat) : Binary64 :=
  nearestUnits negative (num * Nat.pow 2 1074) den

def ofNat (n : Nat) : Binary64 := nearest false n 1

def ofInt (n : Int) : Binary64 := nearest (n < 0) n.natAbs 1

def neg (x : Binary64) : Binary64 := withSign (!x.isNegative) x.magnitude

def mul (x y : Binary64) : Binary64 :=
  let negative := x.isNegative != y.isNegative
  if x.isNaN || y.isNaN then nan
  else if x.isInfinite || y.isInfinite then
    if x.isZero || y.isZero then nan else infinity negative
  else nearestUnits negative (x.units * y.units) (Nat.pow 2 1074)

def div (x y : Binary64) : Binary64 :=
  let negative := x.isNegative != y.isNegative
  if x.isNaN || y.isNaN then nan
  else if x.isInfinite then if y.isInfinite then nan else infinity negative
  else if y.isInfinite then zero negative
  else if y.isZero then if x.isZero then nan else infinity negative
  else nearest negative x.units y.units

-- The exact value of a finite number, in units of the smallest positive one.
def signedUnits (x : Binary64) : Int := if x.isNegative then -(x.units : Int) else x.units

-- Sum, correctly rounded. A zero sum is negative only if both summands are.
def add (x y : Binary64) : Binary64 :=
  if x.isNaN || y.isNaN then nan
  else if x.isInfinite then if y.isInfinite && x.isNegative != y.isNegative then nan else x
  else if y.isInfinite then y
  else
    let sum := x.signedUnits + y.signedUnits
    if sum = 0 then zero (x.isNegative && y.isNegative)
    else nearestUnits (sum < 0) sum.natAbs 1

-- The place of a number among all numbers; both zeros have the same.
def orderKey (x : Binary64) : Int :=
  if x.isNegative then -(x.magnitude : Int) else x.magnitude

-- A NaN is neither below, nor above, nor equal to anything.
def lt (x y : Binary64) : Bool := !x.isNaN && !y.isNaN && x.orderKey < y.orderKey

def numericEq (x y : Binary64) : Bool := !x.isNaN && !y.isNaN && x.orderKey == y.orderKey

-- The double nearest to a count of seconds and a count of nanoseconds, rounded part by part.
def ofSeconds (seconds nanoseconds : Nat) : Binary64 :=
  add (ofNat seconds) (nearest false nanoseconds 1000000000)

end PolyCache.Binary64
