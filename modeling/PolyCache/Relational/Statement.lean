import PolyCache.Binary64.Basic
import PolyCache.Relational.Identifier

-- The statements that a cache sends for a collection's table.
namespace PolyCache.Relational

inductive Verb where
  | create
  | upsert
  | select
  | sweep
  | delete
deriving DecidableEq, Repr

structure Statement where
  verb : Verb
  schema : String
  table : String
deriving DecidableEq, Repr

inductive Parameter where
  | text (s : String)
  | bytes (bytes : Bytes)
  | real (x : Binary64)
  | integer (n : Int)
deriving DecidableEq

namespace Statement

-- The table by the names that the statement gives.
def qualified (s : Statement) : String := s.schema ++ "." ++ s.table

def indexName (s : Statement) : String := s.table ++ "__added_at"

def sql (s : Statement) : String :=
  match s.verb with
  | .create =>
    "CREATE UNLOGGED TABLE IF NOT EXISTS " ++ s.qualified ++
      " ( id BIGSERIAL PRIMARY KEY, key TEXT NOT NULL UNIQUE, value BYTEA NOT NULL," ++
      " added_at TIMESTAMPTZ NOT NULL DEFAULT NOW() ); CREATE INDEX IF NOT EXISTS " ++
      s.indexName ++ " ON " ++ s.qualified ++ " (added_at);"
  | .upsert =>
    "INSERT INTO " ++ s.qualified ++ " (key, value, added_at) VALUES ($1, $2, NOW())" ++
      " ON CONFLICT (key) DO UPDATE SET value = EXCLUDED.value, added_at = NOW()"
  | .select =>
    "SELECT value FROM " ++ s.qualified ++
      " WHERE key = $1 AND added_at > NOW() - make_interval(secs => $2) LIMIT 1"
  | .sweep =>
    "DELETE FROM " ++ s.qualified ++ " WHERE added_at < NOW() - make_interval(secs => $1)"
  | .delete => "DELETE FROM " ++ s.qualified ++ " WHERE key = $1"

end Statement

-- The statement as the server understands it.
def Naming.read (naming : Naming) (s : Statement) : Statement :=
  { s with schema := naming.name s.schema, table := naming.name s.table }

end PolyCache.Relational
