import SandboxWorker.Queue.Broker
import SandboxWorker.Text.Decimal
/-! The broker's operations as commands to a list server. Commands of one operation run as one
transaction, so that nobody sees the lists between them. -/
namespace SandboxWorker.Queue

inductive Command where
  | pushLeft (key payload : String)
  | pushRight (key payload : String)
  /-- Moves the rightmost element of one list to the left of another, waiting for one if need be. -/
  | moveRightToLeft (source destination : String) (timeout : Nat)
  /-- Removes one copy, the leftmost. -/
  | removeOne (key payload : String)
deriving DecidableEq, Repr

namespace Command

/-- Milliseconds in seconds: the shortest decimal with a digit behind the point. -/
def seconds (ms : Nat) : String :=
  let digits := ((Decimal.fixed 3 (ms % 1000)).reverse.dropWhile (· = '0')).reverse
  String.ofList (Decimal.digits (ms / 1000) ++ '.' :: if digits = [] then ['0'] else digits)

def words : Command → List String
  | .pushLeft key payload => ["LPUSH", key, payload]
  | .pushRight key payload => ["RPUSH", key, payload]
  | .moveRightToLeft source destination timeout =>
    ["BLMOVE", source, destination, "RIGHT", "LEFT", seconds timeout]
  | .removeOne key payload => ["LREM", key, "1", payload]

/-- What a server does with its lists; a list that is not there is empty. Also gives the element
moved, if any. -/
def run (b : Broker) : Command → Option String × Broker
  | .pushLeft key payload => (none, b.put key (payload :: b.list key))
  | .pushRight key payload => (none, b.put key (b.list key ++ [payload]))
  | .moveRightToLeft source destination _ =>
    match (b.list source).getLast? with
    | none => (none, b)
    | some payload =>
      let b := b.put source (b.list source).dropLast
      (some payload, b.put destination (payload :: b.list destination))
  | .removeOne key payload => (none, b.put key ((b.list key).erase payload))

def runAll (b : Broker) (commands : List Command) : Option String × Broker :=
  commands.foldl (fun (got, b) c => ((c.run b).1 <|> got, (c.run b).2)) (none, b)

end Command

inductive Operation where
  | publish (queue payload : String)
  | claim (queue processing : String) (timeout : Nat)
  | settle (processing payload : String)
  | restore (queue processing payload : String)
  | bury (deadLetter processing payload : String)
deriving DecidableEq, Repr

namespace Operation

/-- What an operation does, and the message it claims. -/
def run (b : Broker) : Operation → Option String × Broker
  | .publish queue payload => (none, b.publish queue payload)
  | .claim queue processing _ =>
    match b.claim? queue processing with
    | some (payload, b) => (some payload, b)
    | none => (none, b)
  | .settle processing payload => (none, b.settle processing payload)
  | .restore queue processing payload => (none, b.restore queue processing payload)
  | .bury deadLetter processing payload => (none, b.bury deadLetter processing payload)

def commands : Operation → List Command
  | .publish queue payload => [.pushLeft queue payload]
  | .claim queue processing timeout => [.moveRightToLeft queue processing timeout]
  | .settle processing payload => [.removeOne processing payload]
  | .restore queue processing payload =>
    [.removeOne processing payload, .pushRight queue payload]
  | .bury deadLetter processing payload =>
    [.removeOne processing payload, .pushLeft deadLetter payload]

/-- Commands as they are sent: several make a transaction. -/
def sent (o : Operation) : List (List String) :=
  match o.commands with
  | [c] => [c.words]
  | cs => ["MULTI"] :: cs.map Command.words ++ [["EXEC"]]

end Operation
end SandboxWorker.Queue
