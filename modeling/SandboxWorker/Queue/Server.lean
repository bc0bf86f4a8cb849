import SandboxWorker.Queue.Commands
/-! A server of named lists, as its commands are documented: what it keeps, what it replies, and how
it holds back the commands of a transaction until all of them are there. -/
namespace SandboxWorker.Queue

inductive Side where
  | left
  | right
deriving DecidableEq, Repr

namespace Side

def ofWord? (word : String) : Option Side :=
  if word = "LEFT" then some .left else if word = "RIGHT" then some .right else none

def push (payload : String) (items : List String) : Side → List String
  | .left => payload :: items
  | .right => items ++ [payload]

def pop? (items : List String) : Side → Option (String × List String)
  | .left => match items with
    | payload :: rest => some (payload, rest)
    | [] => none
  | .right => match items.reverse with
    | payload :: rest => some (payload, rest.reverse)
    | [] => none

end Side

/-- A list without so many copies of an element, the leftmost ones. -/
def without (payload : String) : Nat → List String → List String
  | 0, items => items
  | _ + 1, [] => []
  | count + 1, item :: items =>
    if item = payload then without payload count items
    else item :: without payload (count + 1) items

/-- A positive count is taken from the left and a negative one from the right; zero means all. -/
def remove (count : Int) (payload : String) (items : List String) : List String :=
  if count = 0 then items.filter (· ≠ payload)
  else if 0 < count then without payload count.toNat items
  else (without payload count.natAbs items.reverse).reverse

/-- What a server keeps. A list that has become empty is gone. -/
structure Server where
  lists : String → Option (List String)
  kept : ∀ key, lists key ≠ some []

inductive Reply where
  | ok
  | queued
  | integer (n : Nat)
  | element (payload : String)
  | nothing
  | all (replies : List Reply)
  | refused

def Reply.element? : Reply → Option String
  | .element payload => some payload
  | _ => none

namespace Server

/-- A key that is not there stands for an empty list. -/
def list (s : Server) (key : String) : List String := (s.lists key).getD []

def put (s : Server) (key : String) (items : List String) : Server where
  lists k := if k = key then (if items = [] then none else some items) else s.lists k
  kept k := by
    have hkept := s.kept k
    split
    · split <;> simp_all
    · exact hkept

/-- Moves an element from an end of a list to an end of another, or of the same. -/
def move? (s : Server) (source destination : String) (whence whither : Side) :
    Option (String × Server) :=
  (whence.pop? (s.list source)).map fun (payload, rest) =>
    let s := s.put source rest
    (payload, s.put destination (whither.push payload (s.list destination)))

/-- Whether a time in seconds is zero, however it is spelled. -/
def isZero (seconds : String) : Bool := seconds.toList.all fun c => c = '0' || c = '.'

def refuse (s : Server) : Option (Reply × Server) := some (.refused, s)

def push (s : Server) (side : Side) : List String → Option (Reply × Server)
  | key :: payload :: more =>
    let items := (payload :: more).foldl (fun items payload => side.push payload items) (s.list key)
    some (.integer items.length, s.put key items)
  | _ => s.refuse

def removeFrom (s : Server) : List String → Option (Reply × Server)
  | [key, count, payload] =>
    match Decimal.int64? count.toList with
    | some count =>
      let items := remove count.toInt payload (s.list key)
      some (.integer ((s.list key).length - items.length), s.put key items)
    | none => s.refuse
  | _ => s.refuse

/-- Moves an element as soon as there is one; none if it waits for ever. Whoever waits for some time
gets nothing in the end, as nobody else is there. Inside a transaction nothing waits. -/
def moveOrWait (mayWait : Bool) (s : Server) : List String → Option (Reply × Server)
  | [source, destination, whence, whither, seconds] =>
    match Side.ofWord? whence, Side.ofWord? whither with
    | some whence, some whither =>
      match s.move? source destination whence whither with
      | some (payload, s) => some (.element payload, s)
      | none => if mayWait && isZero seconds then none else some (.nothing, s)
    | _, _ => s.refuse
  | _ => s.refuse

def run (mayWait : Bool) (s : Server) : List String → Option (Reply × Server)
  | name :: arguments =>
    if name = "LPUSH" then s.push .left arguments
    else if name = "RPUSH" then s.push .right arguments
    else if name = "LREM" then s.removeFrom arguments
    else if name = "BLMOVE" then s.moveOrWait mayWait arguments
    else s.refuse
  | [] => s.refuse

def runAll (s : Server) : List (List String) → Option (List Reply × Server)
  | [] => some ([], s)
  | words :: commands => do
    let (reply, s) ← s.run false words
    let (replies, s) ← s.runAll commands
    return (reply :: replies, s)

end Server

structure Connection where
  server : Server
  held : Option (List (List String))

namespace Connection

def serve (c : Connection) (words : List String) : Option (Reply × Connection) :=
  match c.held with
  | none =>
    if words = ["MULTI"] then some (.ok, { c with held := some [] })
    else (c.server.run true words).map fun (reply, s) => (reply, { c with server := s })
  | some held =>
    if words = ["EXEC"] then
      (c.server.runAll held).map fun (replies, s) => (.all replies, ⟨s, none⟩)
    else some (.queued, { c with held := some (held ++ [words]) })

def serveAll (c : Connection) : List (List String) → Option (List Reply × Connection)
  | [] => some ([], c)
  | words :: commands => do
    let (reply, c) ← c.serve words
    let (replies, c) ← c.serveAll commands
    return (reply :: replies, c)

end Connection

/-- Has a server carry out an operation, which claims what the last reply consists of; none if the
server waits for ever. -/
def Server.perform (s : Server) (o : Operation) : Option (Option String × Server) := do
  let (replies, c) ← Connection.serveAll ⟨s, none⟩ o.sent
  return (replies.getLast?.bind Reply.element?, c.server)

/-- Has a server carry out operations, up to one that it never replies to, if there is any. -/
def Server.performAll (s : Server) : List Operation → List (Option String) × Server
  | [] => ([], s)
  | o :: operations =>
    match s.perform o with
    | some (claimed, s) =>
      let (more, s) := s.performAll operations
      (claimed :: more, s)
    | none => ([], s)

end SandboxWorker.Queue
