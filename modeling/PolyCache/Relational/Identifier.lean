import PolyCache.Error

-- Names that go into SQL text unquoted.
namespace PolyCache.Relational

-- The longest name that a server keeps whole.
def maxIdentifierLength : Nat := 63

def isAsciiLetter (c : Char) : Bool := ('a' ≤ c && c ≤ 'z') || ('A' ≤ c && c ≤ 'Z')

def isAsciiDigit (c : Char) : Bool := '0' ≤ c && c ≤ '9'

def startsIdentifier (c : Char) : Bool := isAsciiLetter c || c = '_'

def continuesIdentifier (c : Char) : Bool := startsIdentifier c || isAsciiDigit c

def isIdentifier (name : String) : Bool :=
  match name.toList with
  | [] => false
  | c :: rest => startsIdentifier c && rest.all continuesIdentifier

-- Letters, digits and underscores only, no digit first, and not too long.
-- `what` is the thing named.
def checkIdentifier (what name : String) : Except Error Unit :=
  if !isIdentifier name then .error (.usage (.notIdentifier what name))
  else if maxIdentifierLength < (Utf8.ofString name).length then
    .error (.usage (.longIdentifier what name maxIdentifierLength))
  else .ok ()

-- As much of a name as fits into this many bytes.
def clip : Nat → List Char → List Char
  | _, [] => []
  | room, c :: name => if c.utf8Size ≤ room then c :: clip (room - c.utf8Size) name else []

def folded (name : List Char) : List Char := name.map Char.toLower

-- The name under which the server knows a relation that a statement calls by this one.
def knownAs (name : List Char) : List Char := clip maxIdentifierLength (folded name)

-- What a server makes of the names in a statement.
inductive Naming where
  -- each spelling is a name of its own
  | spelled
  -- a name that is not quoted is read in lower case, and cut where there is no more room
  | folded
deriving DecidableEq, Repr

def Naming.name (naming : Naming) (name : String) : String :=
  match naming with
  | .spelled => name
  | .folded => .ofList (knownAs name.toList)

end PolyCache.Relational
