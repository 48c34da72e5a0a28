import PolyCache.Relational.Server

-- The way from a cache to its server: one connection at most, opened when it is first needed and
-- replaced when it has died. Everything that passes is recorded.
namespace PolyCache.Relational

-- What is made to fail: new connections, and the preparing or the running of statements.
structure Outage where
  connect : Bool
  prepare : List Verb
  execute : List Verb
deriving DecidableEq

inductive Event where
  | connected (connection : Nat)
  | refused
  | prepared (statement : Statement) (connection : Nat)
  | executed (statement : Statement) (parameters : List Parameter) (connection : Nat)
  -- a question to the owner of the collection, which does not pass over the connection
  | consulted (collection : Collection) (approved : Bool)
deriving DecidableEq

structure Connection where
  number : Nat
  isAlive : Bool
  -- each statement is prepared once
  prepared : List Statement
deriving DecidableEq

structure Link where
  server : Server
  naming : Naming
  outage : Outage
  connection : Option Connection
  opened : Nat
  -- the latest event last
  events : List Event
deriving DecidableEq

namespace Outage

def none : Outage := ⟨false, [], []⟩

end Outage

namespace Link

def new : Link := ⟨.empty, .spelled, .none, none, 0, []⟩

def record (l : Link) (event : Event) : Link := { l with events := l.events ++ [event] }

-- The server ends the connection. The cache notices when it needs it again.
def kill (l : Link) : Link :=
  { l with connection := l.connection.map fun c => { c with isAlive := false } }

def open? (l : Link) : Except Error Connection × Link :=
  if l.outage.connect then
    (.error (.backend .connectionRefused), { l with connection := none }.record .refused)
  else
    let c : Connection := ⟨l.opened + 1, true, []⟩
    (.ok c, { l with connection := some c, opened := l.opened + 1 }.record (.connected c.number))

def acquire (l : Link) : Except Error Connection × Link :=
  match l.connection with
  | some c => if c.isAlive then (.ok c, l) else l.open?
  | none => l.open?

def prepare (l : Link) (c : Connection) (statement : Statement) : Except Error Unit × Link :=
  if c.prepared.contains statement then (.ok (), l)
  else
    let l := l.record (.prepared statement c.number)
    if l.outage.prepare.contains statement.verb then (.error (.backend .statementFailed), l)
    else
      (.ok (), { l with connection := some { c with prepared := statement :: c.prepared } })

-- A statement that fails changes nothing.
def execute (now : Time) (l : Link) (c : Connection) (statement : Statement)
    (parameters : List Parameter) : Except Error Reply × Link :=
  let l := l.record (.executed statement parameters c.number)
  if l.outage.execute.contains statement.verb then (.error (.backend .statementFailed), l)
  else
    let (server, reply) := l.server.execute now (l.naming.read statement) parameters
    (.ok reply, { l with server })

-- Runs a statement that is not prepared.
def batch (now : Time) (l : Link) (statement : Statement) : Except Error Reply × Link :=
  match l.acquire with
  | (.error e, l) => (.error e, l)
  | (.ok c, l) => l.execute now c statement []

def run (now : Time) (l : Link) (statement : Statement) (parameters : List Parameter) :
    Except Error Reply × Link :=
  match l.acquire with
  | (.error e, l) => (.error e, l)
  | (.ok c, l) =>
    match l.prepare c statement with
    | (.error e, l) => (.error e, l)
    | (.ok (), l) => l.execute now c statement parameters

end Link

end PolyCache.Relational
