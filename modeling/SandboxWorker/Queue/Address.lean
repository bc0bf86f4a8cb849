import SandboxWorker.Queue.Consumer
import SandboxWorker.Url.Basic
/-! Addresses of broker servers, as URLs: a host with a port and a database number, or the path of a
socket. -/
namespace SandboxWorker.Queue

inductive AddressError where
  | notUrl
  | noHost
  | noTls
  | noPath
  | database
  | username
  | password
deriving DecidableEq, Repr

namespace AddressError

def text : AddressError → String
  | .notUrl => "Redis URL did not parse"
  | .noHost => "Missing hostname"
  | .noTls => "can't connect with TLS, the feature is not enabled"
  | .noPath => "Missing path"
  | .database => "Invalid database number"
  | .username => "Username is not valid UTF-8 string"
  | .password => "Password is not valid UTF-8 string"

def toQueueError (e : AddressError) : QueueError := .broker (e.text ++ "- InvalidClientConfig")

end AddressError

inductive Address where
  | server (host : String) (port : Nat) (database : Int64)
  /-- A socket, by the bytes of its path. -/
  | socket (path : Bytes) (database : Int64)
deriving DecidableEq, Repr

namespace Address

def defaultPort : Nat := 6379

def schemes : List String := ["redis", "rediss", "redis+unix", "unix"]

def trimSlashes (cs : List Char) : List Char :=
  ((cs.dropWhile (· = '/')).reverse.dropWhile (· = '/')).reverse

/-- The database of a path: none named is the first. -/
def databaseOfPath? (path : List Char) : Option Int64 :=
  if trimSlashes path = [] then some 0 else Decimal.int64? (trimSlashes path)

def databaseOfQuery? (u : Url) : Option Int64 :=
  match u.queryValue? "db" with
  | some db => Decimal.int64? db.toList
  | none => some 0

def isUtf8 (cs : List Char) : Bool := (Utf8.decode? (Percent.decode cs)).isSome

def serverOf (u : Url) : Except AddressError Address := do
  let some host := u.host | throw .noHost
  if u.scheme = "rediss" then throw .noTls
  let some database := databaseOfPath? (u.path.getD []) | throw .database
  if !isUtf8 u.username then throw .username
  if !isUtf8 u.password then throw .password
  return .server host (u.port.getD defaultPort) database

def isLocal (host : Option String) : Bool := host.isNone || host == some "localhost"

def socketOf (u : Url) : Except AddressError Address := do
  let some ('/' :: path) := u.path | throw .noPath
  if !isLocal u.host then throw .noPath
  let some database := databaseOfQuery? u | throw .database
  return .socket (Percent.decode ('/' :: path)) database

def ofString (s : String) : Except AddressError Address :=
  match Url.ofString? s with
  | none => .error .notUrl
  | some u =>
    if !schemes.contains u.scheme then .error .notUrl
    else if u.scheme = "redis" ∨ u.scheme = "rediss" then serverOf u
    else socketOf u

end Address
end SandboxWorker.Queue
