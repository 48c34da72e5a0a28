import PolyCache.Text.Quoted
import PolyCache.Binary64.Decimal

-- The values a cache stores and the types they have.
namespace PolyCache

-- What a collection holds: JSON text, integers of 64 bits, doubles or strings.
inductive ValueType where
  | object
  | int64
  | real
  | string
deriving DecidableEq, Repr

inductive Value where
  | object (json : Bytes)
  | int64 (n : Int64)
  | real (x : Binary64)
  | string (s : String)
deriving DecidableEq

namespace ValueType

def name : ValueType → String
  | .object => "object"
  | .int64 => "int64"
  | .real => "real"
  | .string => "string"

def debugText : ValueType → String
  | .object => "Object"
  | .int64 => "Int64"
  | .real => "Real"
  | .string => "String"

end ValueType

namespace Value

def type : Value → ValueType
  | .object _ => .object
  | .int64 _ => .int64
  | .real _ => .real
  | .string _ => .string

-- Equality as numbers compare: a NaN differs from itself, and the two zeros are equal.
def equal : Value → Value → Bool
  | .object a, .object b => a == b
  | .int64 m, .int64 n => m == n
  | .real x, .real y => x.numericEq y
  | .string s, .string t => s == t
  | _, _ => false

def debugText : Value → String
  | .object json => "Object(" ++ Quoted.bytes json ++ ")"
  | .int64 n => "Int64(" ++ toString n.toInt ++ ")"
  | .real x => "Real(" ++ x.text .diagnostic ++ ")"
  | .string s => "String(" ++ Quoted.text s ++ ")"

end Value

end PolyCache
