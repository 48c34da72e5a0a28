import PolyCache.Error
import PolyCache.Json.Form

-- Types whose values can be kept in a cache.
namespace PolyCache

class Storable (α : Type) where
  toValue : α → Except Error Value
  ofValue : Value → Except Error α

-- A value that is kept as JSON text.
structure AsJson (α : Type) where
  value : α

def unexpected (expected : ValueType) (value : Value) : Error :=
  .usage (.unexpectedType expected value.type)

instance : Storable Int64 where
  toValue n := .ok (.int64 n)
  ofValue
    | .int64 n => .ok n
    | value => .error (unexpected .int64 value)

instance : Storable Binary64 where
  toValue x := .ok (.real x)
  ofValue
    | .real x => .ok x
    | value => .error (unexpected .real value)

instance : Storable String where
  toValue s := .ok (.string s)
  ofValue
    | .string s => .ok s
    | value => .error (unexpected .string value)

instance {α : Type} [Json.JsonForm α] : Storable (AsJson α) where
  toValue a :=
    match Json.JsonForm.print a.value with
    | .ok json => .ok (.object json)
    | .error reason => .error (.usage (.noJsonForm reason))
  ofValue
    | .object json =>
      match Json.parse json with
      | .ok a => .ok ⟨a⟩
      | .error fault => .error (.usage (.notJson json fault))
    | value => .error (unexpected .object value)

end PolyCache
