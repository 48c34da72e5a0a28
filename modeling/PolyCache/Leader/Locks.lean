import PolyCache.Entries
import PolyCache.Leader.Elector

-- Advisory locks: at most one session holds a key. A server lists them as rows with the key cut
-- into two halves of 32 bits, and a session that asks whether it holds a key asks for such rows.
namespace PolyCache.Leader

structure Locks where
  -- by key, in the order of the keys
  holders : List (LockKey × SessionId)
deriving DecidableEq

def keyLess (j k : LockKey) : Bool := Entries.intLess j.toInt k.toInt

namespace Locks

def empty : Locks := ⟨[]⟩

def holder? (l : Locks) (key : LockKey) : Option SessionId := l.holders.lookup key

def isHeldBy (l : Locks) (key : LockKey) (session : SessionId) : Bool :=
  l.holder? key == some session

-- Gives a key to a session, whoever has it.
def give (l : Locks) (key : LockKey) (session : SessionId) : Locks :=
  ⟨Entries.insert keyLess key session l.holders⟩

def free (l : Locks) (key : LockKey) : Locks := ⟨Entries.erase key l.holders⟩

def take (l : Locks) (key : LockKey) (session : SessionId) : Locks :=
  match l.holder? key with
  | none => l.give key session
  | some _ => l

def release (l : Locks) (key : LockKey) (session : SessionId) : Locks :=
  if l.isHeldBy key session then l.free key else l

-- Frees all keys of sessions that have ended.
def releaseAll (l : Locks) (ended : SessionId → Bool) : Locks :=
  ⟨l.holders.filter fun (_, session) => !ended session⟩

end Locks

inductive LockType where
  | advisory
  | relation
deriving DecidableEq, Repr

structure LockRow where
  type : LockType
  classId : UInt32
  objectId : UInt32
  -- one for a key of 64 bits, two for a pair of keys of 32 bits
  objectSubId : Nat
  isGranted : Bool
  session : SessionId
deriving DecidableEq

namespace LockRow

-- How a key held by a session is listed: its upper and its lower half, both unsigned.
def ofKey (key : LockKey) (session : SessionId) : LockRow :=
  ⟨.advisory, (key.toUInt64 >>> 32).toUInt32, key.toUInt64.toUInt32, 1, true, session⟩

def halfMask : Int64 := 4294967295

-- Whether a row is counted by the question for a key. The halves of the key are cut out with an
-- arithmetic shift and a mask.
def matchesKey (row : LockRow) (key : LockKey) (session : SessionId) : Bool :=
  row.type == .advisory && row.classId.toUInt64.toInt64 == ((key >>> 32) &&& halfMask) &&
    row.objectId.toUInt64.toInt64 == (key &&& halfMask) && row.objectSubId == 1 &&
    row.isGranted && row.session == session

end LockRow

namespace Locks

def rows (l : Locks) : List LockRow := l.holders.map fun (key, session) => .ofKey key session

-- How many rows the question of a session for a key counts.
def countHeld (rows : List LockRow) (key : LockKey) (session : SessionId) : Nat :=
  (rows.filter fun row => row.matchesKey key session).length

end Locks

end PolyCache.Leader
