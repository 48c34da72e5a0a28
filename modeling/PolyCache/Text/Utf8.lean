namespace PolyCache

-- Stored and transmitted data: a finite sequence of bytes.
abbrev Bytes := List UInt8

end PolyCache

-- Text as bytes. `encode` writes each character in one to four bytes; `decode` reads exactly the
-- byte strings that `encode` writes and otherwise says where the first character that cannot be
-- read starts.
namespace PolyCache.Utf8

-- Where decoding stopped. `invalid`: at `index` stand `width` bytes that begin no character.
-- `incomplete`: the bytes end inside the character that begins at `index`.
inductive Fault where
  | invalid (width index : Nat)
  | incomplete (index : Nat)
deriving DecidableEq, Repr

-- The number of bytes before the first character that cannot be read.
def Fault.index : Fault → Nat
  | .invalid _ index => index
  | .incomplete index => index

def Fault.message : Fault → String
  | .invalid width index =>
    "invalid utf-8 sequence of " ++ toString width ++ " bytes from index " ++ toString index
  | .incomplete index => "incomplete utf-8 byte sequence from index " ++ toString index

-- The bytes of one character: 7 bits in one byte, 11 in two, 16 in three, 21 in four.
def encodeChar (c : Char) : Bytes :=
  let n := c.toNat
  if n < 0x80 then [n.toUInt8]
  else if n < 0x800 then [(0xC0 + n / 64).toUInt8, (0x80 + n % 64).toUInt8]
  else if n < 0x10000 then
    [(0xE0 + n / 4096).toUInt8, (0x80 + n / 64 % 64).toUInt8, (0x80 + n % 64).toUInt8]
  else
    [(0xF0 + n / 262144).toUInt8, (0x80 + n / 4096 % 64).toUInt8, (0x80 + n / 64 % 64).toUInt8,
      (0x80 + n % 64).toUInt8]

def encode (text : List Char) : Bytes := text.flatMap encodeChar

-- What a leading byte announces: how many bytes follow, which of them the first may be, and the
-- bits it contributes. Narrowed ranges of the second byte keep out forms longer than needed,
-- surrogates and numbers beyond the last character.
structure Lead where
  following : Nat
  low : UInt8
  high : UInt8
  bits : Nat

def lead? (b : UInt8) : Option Lead :=
  let n := b.toNat
  if n < 0x80 then some ⟨0, 0x80, 0xBF, n⟩
  else if n < 0xC2 then none
  else if n < 0xE0 then some ⟨1, 0x80, 0xBF, n - 0xC0⟩
  else if n < 0xF0 then
    some ⟨2, if n = 0xE0 then 0xA0 else 0x80, if n = 0xED then 0x9F else 0xBF, n - 0xE0⟩
  else if n < 0xF5 then
    some ⟨3, if n = 0xF0 then 0x90 else 0x80, if n = 0xF4 then 0x8F else 0xBF, n - 0xF0⟩
  else none

def isContinuation (b : UInt8) : Bool := 0x80 ≤ b && b ≤ 0xBF

def Lead.extend (bits : Nat) (b : UInt8) : Nat := bits * 64 + b.toNat % 64

def decodeFrom (index : Nat) : Bytes → Except Fault (List Char)
  | [] => .ok []
  | b :: rest =>
    match lead? b with
    | none => .error (.invalid 1 index)
    | some l =>
      if l.following = 0 then
        (decodeFrom (index + 1) rest).map (Char.ofNat l.bits :: ·)
      else
        match rest with
        | [] => .error (.incomplete index)
        | b₁ :: rest =>
          if b₁ < l.low || l.high < b₁ then .error (.invalid 1 index)
          else if l.following = 1 then
            (decodeFrom (index + 2) rest).map (Char.ofNat (Lead.extend l.bits b₁) :: ·)
          else
            match rest with
            | [] => .error (.incomplete index)
            | b₂ :: rest =>
              if !isContinuation b₂ then .error (.invalid 2 index)
              else if l.following = 2 then
                (decodeFrom (index + 3) rest).map
                  (Char.ofNat (Lead.extend (Lead.extend l.bits b₁) b₂) :: ·)
              else
                match rest with
                | [] => .error (.incomplete index)
                | b₃ :: rest =>
                  if !isContinuation b₃ then .error (.invalid 3 index)
                  else
                    (decodeFrom (index + 4) rest).map
                      (Char.ofNat
                        (Lead.extend (Lead.extend (Lead.extend l.bits b₁) b₂) b₃) :: ·)

def decode (bytes : Bytes) : Except Fault (List Char) := decodeFrom 0 bytes

def ofString (s : String) : Bytes := encode s.toList

def toString? (bytes : Bytes) : Except Fault String := (decode bytes).map String.ofList

end PolyCache.Utf8
