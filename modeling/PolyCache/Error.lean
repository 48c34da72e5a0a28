import PolyCache.Value
import PolyCache.Json.Fault

-- Failures of a cache call: who is to blame, and the cause.
namespace PolyCache

-- `usage`: the caller broke a rule. `backend`: the store failed. `fetch`: the function that loads a
-- missing value failed.
inductive ErrorKind where
  | usage
  | backend
  | fetch
deriving DecidableEq, Repr

-- Whether the same call may succeed later.
inductive Recovery where
  | never
  | retry
  | unknown
deriving DecidableEq, Repr

inductive Cause where
  -- names
  | emptyName
  | alreadyRegistered (name : String)
  | notRegistered (name : String)
  | notIdentifier (what name : String)
  | longIdentifier (what name : String) (limit : Nat)
  | closed
  -- values
  | notStorable (actual expected : ValueType)
  | unexpectedType (expected actual : ValueType)
  | wrongWidth (type : ValueType) (found : Nat)
  | notUtf8 (fault : Utf8.Fault)
  | notJson (text : Bytes) (fault : Json.Fault)
  | noJsonForm (reason : Json.Reason)
  -- stores
  | injected (what : String)
  | statementFailed
  | connectionClosed
  | connectionRefused
  | nullValue
  -- whatever the caller gives: a text, an error that has only a text, an error of the operating
  -- system, or another failure of a cache call
  | plain (text : String)
  | boxed (text : String)
  | io (kind text : String)
  | nested (kind : ErrorKind) (cause : Cause)
deriving DecidableEq

structure Error where
  kind : ErrorKind
  cause : Cause
deriving DecidableEq

def ErrorKind.name : ErrorKind → String
  | .usage => "usage"
  | .backend => "backend"
  | .fetch => "fetch"

def ErrorKind.debugText : ErrorKind → String
  | .usage => "Usage"
  | .backend => "Backend"
  | .fetch => "Fetch"

def Recovery.debugText : Recovery → String
  | .never => "Never"
  | .retry => "Retry"
  | .unknown => "Unknown"

def causedBy (heading cause : String) : String := heading ++ "\ncaused by: " ++ cause

def ErrorKind.heading (kind : ErrorKind) : String := "cache " ++ kind.name ++ " error"

def Cause.text : Cause → String
  | .emptyName => "collection name must not be empty"
  | .alreadyRegistered name => "collection " ++ Quoted.text name ++ " is already registered"
  | .notRegistered name => "collection " ++ Quoted.text name ++ " is not registered"
  | .notIdentifier what name =>
    what ++ " " ++ Quoted.text name ++
      " is not a valid SQL identifier: use ASCII letters, digits and underscores, " ++
      "not starting with a digit"
  | .longIdentifier what name limit =>
    what ++ " " ++ Quoted.text name ++ " is longer than " ++ toString limit ++ " bytes"
  | .closed => "the cache has been closed"
  | .notStorable actual expected =>
    "a " ++ actual.name ++ " value cannot be stored in a collection of " ++ expected.name ++
      " values"
  | .unexpectedType expected actual =>
    "expected a " ++ expected.name ++ " value but the cache returned a " ++ actual.name ++ " value"
  | .wrongWidth type found =>
    "a stored " ++ type.name ++ " value must be 8 bytes long, found " ++ toString found ++ " bytes"
  | .notUtf8 fault => fault.message
  | .notJson text fault => fault.message text
  | .noJsonForm reason => reason.text
  | .injected what => "mock: " ++ what ++ " failed"
  | .statementFailed => "db error"
  | .connectionClosed => "connection closed"
  | .connectionRefused =>
    "Error occurred while creating a new object: error communicating with the server"
  | .nullValue => "error deserializing column 0"
  | .plain text => text
  | .boxed text => text
  | .io _ text => text
  | .nested kind cause => causedBy kind.heading cause.text

-- The errors below this one, nearest first. A text that stands for itself is no error.
def Cause.chain : Cause → List Cause
  | .nested kind cause => .nested kind cause :: cause.chain
  | .notUtf8 fault => [.notUtf8 fault]
  | .notJson text fault => [.notJson text fault]
  | .noJsonForm reason => [.noJsonForm reason]
  | .statementFailed => [.statementFailed]
  | .connectionClosed => [.connectionClosed]
  | .connectionRefused => [.connectionRefused]
  | .nullValue => [.nullValue]
  | .boxed text => [.boxed text]
  | .io kind text => [.io kind text]
  | _ => []

def Cause.ioKind? : Cause → Option String
  | .io kind _ => some kind
  | _ => none

def Cause.cacheKind? : Cause → Option ErrorKind
  | .nested kind _ => some kind
  | _ => none

namespace Error

def usage (cause : Cause) : Error := ⟨.usage, cause⟩

def backend (cause : Cause) : Error := ⟨.backend, cause⟩

def fetch (cause : Cause) : Error := ⟨.fetch, cause⟩

def message (e : Error) : String := causedBy e.kind.heading e.cause.text

-- The call can never succeed.
def isFatal (e : Error) : Bool := e.kind == .usage

def recovery (e : Error) : Recovery :=
  match e.kind with
  | .usage => .never
  | .backend => .retry
  | .fetch => .unknown

def sources (e : Error) : List Cause := e.cause.chain

end Error

end PolyCache
