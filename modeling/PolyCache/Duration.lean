import PolyCache.Binary64.Basic

namespace PolyCache

-- A span of time, in whole nanoseconds.
structure Duration where
  nanoseconds : Nat
deriving DecidableEq, Repr

end PolyCache

-- Spans of time: their parts, their value in seconds as a double, and how they are shown.
namespace PolyCache.Duration

def ofParts (seconds nanoseconds : Nat) : Duration := ⟨seconds * 1000000000 + nanoseconds⟩

def ofMilliseconds (n : Nat) : Duration := ⟨n * 1000000⟩

def wholeSeconds (d : Duration) : Nat := d.nanoseconds / 1000000000

def subsecondNanoseconds (d : Duration) : Nat := d.nanoseconds % 1000000000

def toBinary64 (d : Duration) : Binary64 :=
  Binary64.ofSeconds d.wholeSeconds d.subsecondNanoseconds

-- The last `width` decimal digits of a number, leading zeros included.
def lastDigits : (width : Nat) → Nat → List Char
  | 0, _ => []
  | width + 1, n => lastDigits width (n / 10) ++ [Char.ofNat (0x30 + n % 10)]

-- `n` units of which `10 ^ places` make one, without trailing zeros.
def decimalText (n places : Nat) : String :=
  let decimals := (lastDigits places n).reverse.dropWhile (· == '0') |>.reverse
  toString (n / Nat.pow 10 places) ++
    if decimals.isEmpty then "" else "." ++ String.ofList decimals

-- A span in the largest unit of which it holds at least one.
def text (d : Duration) : String :=
  let n := d.nanoseconds
  if 1000000000 ≤ n then decimalText n 9 ++ "s"
  else if 1000000 ≤ n then decimalText n 6 ++ "ms"
  else if 1000 ≤ n then decimalText n 3 ++ "µs"
  else toString n ++ "ns"

end PolyCache.Duration
