import PolyCache.Error
import PolyCache.Json.Skip

-- The bytes that stand for a value in a store. Numbers are eight bytes, least significant first;
-- strings are UTF-8; JSON text is kept as it is.
namespace PolyCache.ValueType

def littleEndian (n : UInt64) : Bytes :=
  (List.range 8).map fun i => (n.toNat / Nat.pow 256 i).toUInt8

def ofLittleEndian (bytes : Bytes) : UInt64 :=
  (bytes.foldr (fun (b : UInt8) n => b.toNat + 256 * n) 0).toUInt64

def checkJson (json : Bytes) : Except Error Unit :=
  match Json.check json with
  | .ok () => .ok ()
  | .error fault => .error (.usage (.notJson json fault))

-- A value of another type is refused, and so are bytes that are not JSON.
def encode (type : ValueType) (value : Value) : Except Error Bytes :=
  match type, value with
  | .object, .object json =>
    match checkJson json with
    | .ok () => .ok json
    | .error e => .error e
  | .int64, .int64 n => .ok (littleEndian n.toUInt64)
  | .real, .real x => .ok (littleEndian x.bits)
  | .string, .string s => .ok (Utf8.ofString s)
  | expected, actual => .error (.usage (.notStorable actual.type expected))

-- The word that exactly eight bytes spell.
def fixedWidth (type : ValueType) (bytes : Bytes) : Except Error UInt64 :=
  if bytes.length = 8 then .ok (ofLittleEndian bytes)
  else .error (.usage (.wrongWidth type bytes.length))

def decode (type : ValueType) (bytes : Bytes) : Except Error Value :=
  match type with
  | .object =>
    match checkJson bytes with
    | .ok () => .ok (.object bytes)
    | .error e => .error e
  | .int64 =>
    match fixedWidth .int64 bytes with
    | .ok n => .ok (.int64 n.toInt64)
    | .error e => .error e
  | .real =>
    match fixedWidth .real bytes with
    | .ok n => .ok (.real ⟨n⟩)
    | .error e => .error e
  | .string =>
    match Utf8.toString? bytes with
    | .ok s => .ok (.string s)
    | .error fault => .error (.usage (.notUtf8 fault))

end PolyCache.ValueType
