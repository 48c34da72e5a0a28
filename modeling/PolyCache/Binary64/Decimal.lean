import PolyCache.Binary64.Basic

-- Doubles in decimal notation. `Decimal.shortest` finds the fewest digits that read back as the
-- number, and among those the nearest; a `Style` fixes how the digits are laid out.
namespace PolyCache.Binary64

-- `coefficient * 10 ^ exponent`.
structure Decimal where
  coefficient : Nat
  exponent : Int
deriving DecidableEq, Repr

inductive Tie where
  | up
  | even
deriving DecidableEq, Repr

def digitCount (n : Nat) : Nat := (Nat.toDigits 10 n).length

-- The exponent of the leading decimal digit of a positive quotient.
def leadingExponent (num den : Nat) : Int :=
  if den ≤ num then digitCount (num / den) - 1
  else -(digitCount ((den + num - 1) / num - 1))

-- The reals that round to a positive finite number, over the common denominator `4 * 2 ^ 1074`:
-- from half-way to the number below to half-way to the number above. The ends belong to it exactly
-- if the significand is even. Below a power of two the neighbour is twice as near.
structure Interval where
  low : Nat
  high : Nat
  closed : Bool

def roundingInterval (x : Binary64) : Interval where
  low :=
    let narrow := x.significand == Nat.pow 2 52 && 0 < x.scale
    (4 * x.significand - if narrow then 1 else 2) * Nat.pow 2 x.scale
  high := (4 * x.significand + 2) * Nat.pow 2 x.scale
  closed := x.significand % 2 == 0

def Interval.contains (i : Interval) (num den : Nat) : Bool :=
  let v := num * (4 * Nat.pow 2 1074)
  if i.closed then i.low * den ≤ v && v ≤ i.high * den
  else i.low * den < v && v < i.high * den

-- The grid of multiples of `10 ^ k`, as the fraction that one step is.
def gridStep (k : Int) : Nat × Nat :=
  if 0 ≤ k then (Nat.pow 10 k.toNat, 1) else (1, Nat.pow 10 (-k).toNat)

-- The multiple of `10 ^ k` nearest to the number among its two neighbours that read back as it.
def onGrid? (tie : Tie) (x : Binary64) (k : Int) : Option Nat :=
  let (stepNum, stepDen) := gridStep k
  let num := x.units * stepDen
  let den := Nat.pow 2 1074 * stepNum
  let below := num / den
  let interval := roundingInterval x
  let hit (c : Nat) : Bool := interval.contains (c * stepNum) stepDen
  match hit below, hit (below + 1) with
  | false, false => none
  | true, false => some below
  | false, true => some (below + 1)
  | true, true =>
    let r := 2 * (num % den)
    if r < den then some below
    else if den < r then some (below + 1)
    else
      match tie with
      | .up => some (below + 1)
      | .even => some (below + below % 2)

-- The first of the given digit counts whose grid has a number that reads back.
def firstHit (tie : Tie) (x : Binary64) (leading : Int) : List Nat → Decimal
  | [] => ⟨0, 0⟩
  | count :: counts =>
    let k := leading - count
    match onGrid? tie x k with
    | some c => ⟨c, k⟩
    | none => firstHit tie x leading counts

-- The shortest decimal of a positive finite number. Seventeen digits always suffice.
def shortest (tie : Tie) (x : Binary64) : Decimal :=
  firstHit tie x (leadingExponent x.units (Nat.pow 2 1074)) (List.range 17)

-- How a number is laid out. Between the two exponents the digits are written in place, elsewhere
-- after the first digit with the exponent behind a letter.
structure Style where
  tie : Tie
  leastPositional : Int
  greatestPositional : Int
  exponentPlus : Bool
  notANumber : String
  infinite : (negative : Bool) → String

def Style.diagnostic : Style :=
  ⟨.up, -4, 15, false, "NaN", fun negative => if negative then "-inf" else "inf"⟩

-- Numbers in JSON text, which has no form for the numbers that are not finite.
def Style.json : Style := ⟨.even, -5, 15, true, "null", fun _ => "null"⟩

def zeros (n : Nat) : List Char := List.replicate n '0'

def dropTrailingZeros (digits : List Char) : List Char :=
  (digits.reverse.dropWhile (· == '0')).reverse

-- Digits with the point after the digit of the units; `leading` is the exponent of the first digit.
def positional (digits : List Char) (leading : Int) : List Char :=
  if leading < 0 then
    "0.".toList ++ zeros ((-leading).toNat - 1) ++ digits
  else
    let whole := leading.toNat + 1
    let decimals := digits.drop whole
    digits.take whole ++ zeros (whole - digits.length) ++
      '.' :: if decimals.isEmpty then ['0'] else decimals

def scientific (style : Style) (digits : List Char) (leading : Int) : List Char :=
  let rest := digits.drop 1
  let sign := if leading < 0 then ['-'] else if style.exponentPlus then ['+'] else []
  digits.take 1 ++ (if rest.isEmpty then [] else '.' :: rest) ++
    'e' :: sign ++ Nat.toDigits 10 leading.natAbs

def magnitudeText (style : Style) (x : Binary64) : List Char :=
  if x.isZero then "0.0".toList
  else
    let d := shortest style.tie x
    let all := Nat.toDigits 10 d.coefficient
    let leading := d.exponent + all.length - 1
    let digits := dropTrailingZeros all
    if style.leastPositional ≤ leading && leading ≤ style.greatestPositional then
      positional digits leading
    else scientific style digits leading

-- A number in decimal notation. A finite one carries its sign, also when it is zero.
def text (style : Style) (x : Binary64) : String :=
  if x.isNaN then style.notANumber
  else if x.isInfinite then style.infinite x.isNegative
  else (if x.isNegative then "-" else "") ++ String.ofList (magnitudeText style x)

end PolyCache.Binary64
