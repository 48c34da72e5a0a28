import PolyCache.Backend
import PolyCache.Entries
import PolyCache.Relational.Statement

-- A database server as far as a cache can see it: tables of rows with the time of their last write,
-- and what each statement does to them.
namespace PolyCache.Relational

structure Row where
  -- nothing is a null
  bytes : Option Bytes
  addedAt : Time
deriving DecidableEq

abbrev Table := List (String × Row)

structure Server where
  -- by name, in the order of the names; the rows in the order of their keys
  tables : List (String × Table)
deriving DecidableEq

-- What a statement brings back: how many rows it changed, or the row it found.
inductive Reply where
  | changed (count : Nat)
  | found (row : Option Row)
deriving DecidableEq

def Row.age (now : Time) (row : Row) : Duration := ⟨now - row.addedAt⟩

-- The server compares ages in seconds as doubles.
def Row.isLive (now : Time) (row : Row) (seconds : Binary64) : Bool :=
  (row.age now).toBinary64.lt seconds

def Row.isExpired (now : Time) (row : Row) (seconds : Binary64) : Bool :=
  seconds.lt (row.age now).toBinary64

namespace Server

def empty : Server := ⟨[]⟩

def table? (s : Server) (name : String) : Option Table := s.tables.lookup name

-- A table that does not exist has no rows.
def table (s : Server) (name : String) : Table := (s.table? name).getD []

def putTable (s : Server) (name : String) (t : Table) : Server :=
  ⟨Entries.insert Entries.stringLess name t s.tables⟩

def create (s : Server) (name : String) : Server :=
  if Entries.contains name s.tables then s else s.putTable name []

def upsert (now : Time) (s : Server) (name key : String) (bytes : Option Bytes) : Server :=
  s.putTable name (Entries.insert Entries.stringLess key ⟨bytes, now⟩ (s.table name))

-- The row of a key, if it is younger than the given age.
def select (now : Time) (s : Server) (name key : String) (seconds : Binary64) : Option Row :=
  ((s.table name).lookup key).filter fun row => row.isLive now seconds

-- Changes the rows of a table that exists, and counts those that are gone.
def retain (s : Server) (name : String) (keep : String → Row → Bool) : Server × Nat :=
  match s.table? name with
  | none => (s, 0)
  | some rows =>
    let kept := rows.filter fun (key, row) => keep key row
    (s.putTable name kept, rows.length - kept.length)

def sweep (now : Time) (s : Server) (name : String) (seconds : Binary64) : Server × Nat :=
  s.retain name fun _ row => !row.isExpired now seconds

def delete (s : Server) (name key : String) : Server × Nat := s.retain name fun k _ => !(k == key)

-- What a statement does with parameters of the kinds it takes.
def execute (now : Time) (s : Server) (statement : Statement) (parameters : List Parameter) :
    Server × Reply :=
  let name := statement.qualified
  match statement.verb, parameters with
  | .create, _ => (s.create name, .changed 0)
  | .upsert, [.text key, .bytes bytes] => (s.upsert now name key (some bytes), .changed 1)
  | .select, [.text key, .real seconds] => (s, .found (s.select now name key seconds))
  | .sweep, [.real seconds] =>
    let (s, count) := s.sweep now name seconds
    (s, .changed count)
  | .delete, [.text key] =>
    let (s, count) := s.delete name key
    (s, .changed count)
  | _, _ => (s, .changed 0)

end Server

end PolyCache.Relational
