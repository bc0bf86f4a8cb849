import SandboxWorker.Queue.Broker
/-! One consumer of a queue, step by step. Its pump claims messages ahead of their being received:
it needs a permit, of which there are as many as the window is wide, and a place in the buffer. A
message keeps its permit until its delivery is settled. Settling takes two steps: the delivery stops
being outstanding, and then the broker is told. -/
namespace SandboxWorker.Queue

structure Delivery where
  tag : Nat
  content : String
deriving DecidableEq, Repr

inductive Settlement where
  | acknowledge
  | requeue
  | bury
deriving DecidableEq, Repr

inductive Pump where
  /-- It waits for a permit. -/
  | acquiring
  /-- It has a permit and waits for a place in the buffer. -/
  | reserving
  /-- It has both and waits for a message. -/
  | claiming
  /-- It has claimed a message that is not yet registered. -/
  | holding (payload : String)
  | stopped
deriving DecidableEq, Repr

namespace Pump

def permits : Pump → Nat
  | .acquiring | .stopped => 0
  | .reserving | .claiming | .holding _ => 1

def held : Pump → List String
  | .holding payload => [payload]
  | _ => []

end Pump

structure Consumer where
  queue : String
  processing : String
  deadLetter : String
  /-- How many messages may be unsettled at once. -/
  window : Nat
  /-- Permits that nobody holds. -/
  free : Nat
  pump : Pump
  lastTag : Nat
  /-- Deliveries that may be settled. -/
  inFlight : List Delivery
  /-- Deliveries not yet received, oldest first. -/
  buffer : List Delivery
  /-- Deliveries taken out of flight of which the broker is yet to be told. -/
  settling : List (Delivery × Settlement)
  /-- Whether more messages may come. -/
  isOpen : Bool
deriving DecidableEq, Repr

namespace Consumer

/-- A consumer of three lists. A window holds at least one message. -/
def start (queue processing deadLetter : String) (prefetch : Nat) : Consumer where
  queue := queue
  processing := processing
  deadLetter := deadLetter
  window := max prefetch 1
  free := max prefetch 1
  pump := .acquiring
  lastTag := 0
  inFlight := []
  buffer := []
  settling := []
  isOpen := true

def acquire? (c : Consumer) : Option Consumer :=
  if c.pump = .acquiring ∧ 0 < c.free then
    some { c with pump := .reserving, free := c.free - 1 }
  else none

def reserve? (c : Consumer) : Option Consumer :=
  if c.pump = .reserving ∧ c.buffer.length < c.window then some { c with pump := .claiming }
  else none

def claim? (c : Consumer) (b : Broker) : Option (Consumer × Broker) :=
  if c.pump = .claiming then
    (b.claim? c.queue c.processing).map fun (payload, b) => ({ c with pump := .holding payload }, b)
  else none

def register? (c : Consumer) : Option Consumer :=
  match c.pump with
  | .holding payload =>
    let delivery : Delivery := ⟨c.lastTag + 1, payload⟩
    some { c with
      pump := .acquiring
      lastTag := c.lastTag + 1
      inFlight := c.inFlight ++ [delivery]
      buffer := c.buffer ++ [delivery] }
  | _ => none

def receive? (c : Consumer) : Option (Delivery × Consumer) :=
  match c.buffer with
  | delivery :: rest => some (delivery, { c with buffer := rest })
  | [] => none

/-- Takes a delivery out of flight, to be settled; none if it is not outstanding. -/
def take? (c : Consumer) (tag : Nat) (how : Settlement) : Option (Delivery × Consumer) :=
  (c.inFlight.find? (·.tag = tag)).map fun delivery =>
    (delivery, { c with
      inFlight := c.inFlight.erase delivery
      settling := c.settling ++ [(delivery, how)] })

def effect (c : Consumer) (delivery : Delivery) (how : Settlement) (b : Broker) : Broker :=
  match how with
  | .acknowledge => b.settle c.processing delivery.content
  | .requeue => b.restore c.queue c.processing delivery.content
  | .bury => b.bury c.deadLetter c.processing delivery.content

/-- The broker was told, whether it obeyed or not: the permit is free again. -/
def settled (c : Consumer) (delivery : Delivery) (how : Settlement) : Consumer :=
  { c with settling := c.settling.erase (delivery, how), free := c.free + 1 }

/-- No more messages are claimed; a permit that the pump has is free again. -/
def stop (c : Consumer) : Consumer :=
  { c with free := c.free + c.pump.permits, pump := .stopped, isOpen := false }

end Consumer

inductive QueueError where
  | broker (text : String)
  | unknownDelivery (tag : Nat)
  | closed
deriving DecidableEq, Repr

def QueueError.message : QueueError → String
  | .broker text => "broker error: " ++ text
  | .unknownDelivery tag => s!"delivery {tag} is not outstanding"
  | .closed => "queue consumer is closed"

end SandboxWorker.Queue
