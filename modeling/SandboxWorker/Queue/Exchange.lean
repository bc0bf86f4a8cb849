import SandboxWorker.Journal
import SandboxWorker.Queue.Consumer
/-! Consumers at work on one broker, in the order in which they get to run. Pumps that found no
message sleep until one is published or restored, or until their claim has lasted long enough; those
whose claim failed sleep for a while. Whoever began to wait first is served first. Time is in
milliseconds and stands still while anybody can run. -/
namespace SandboxWorker.Queue

def claimTimeout : Nat := 1000

def claimPause : Nat := 1000

inductive BrokerCall where
  | publish
  | claim
  | settle
  | restore
  | bury
deriving DecidableEq, Repr

def Settlement.call : Settlement → BrokerCall
  | .acknowledge => .settle
  | .requeue => .restore
  | .bury => .bury

structure Sleeper where
  consumer : Nat
  deadline : Nat
  /-- Whether a new message wakes it. -/
  isClaiming : Bool
deriving DecidableEq, Repr

/-- A pump that is to run; a claim that was under way goes on until its own end. -/
structure Wakeup where
  consumer : Nat
  claimDeadline : Option Nat
deriving DecidableEq, Repr

structure Exchange where
  broker : Broker
  now : Nat
  consumers : List (Nat × Consumer)
  /-- Who runs next, in order. -/
  ready : List Wakeup
  /-- Who sleeps, in order of falling asleep. -/
  sleepers : List Sleeper
  /-- How many of the next calls fail. -/
  failures : BrokerCall → Nat
  journal : List JournalEntry

namespace Exchange

def empty : Exchange where
  broker := .empty
  now := 0
  consumers := []
  ready := []
  sleepers := []
  failures _ := 0
  journal := []

def consumer? (x : Exchange) (id : Nat) : Option Consumer := x.consumers.lookup id

def setConsumer (x : Exchange) (id : Nat) (c : Consumer) : Exchange :=
  { x with consumers := x.consumers.map fun (i, old) => if i = id then (i, c) else (i, old) }

def log (x : Exchange) (e : JournalEntry) : Exchange := { x with journal := x.journal ++ [e] }

def setFailures (x : Exchange) (call : BrokerCall) (times : Nat) : Exchange :=
  { x with failures := fun c => if c = call then times else x.failures c }

def outage : QueueError := .broker "broker down- IoError"

def refuses? (x : Exchange) (call : BrokerCall) : Option Exchange :=
  if x.failures call = 0 then none else some (x.setFailures call (x.failures call - 1))

def callBroker (x : Exchange) (call : BrokerCall) (f : Broker → Broker) :
    Except QueueError Unit × Exchange :=
  match x.refuses? call with
  | none => (.ok (), { x with broker := f x.broker })
  | some x => (.error outage, x)

def schedule (x : Exchange) (w : Wakeup) : Exchange := { x with ready := x.ready ++ [w] }

def sleep (x : Exchange) (s : Sleeper) : Exchange := { x with sleepers := x.sleepers ++ [s] }

/-- Wakes every pump that waits for a message, on whichever queue. -/
def notify (x : Exchange) : Exchange :=
  let (claiming, others) := x.sleepers.partition (·.isClaiming)
  { x with
    sleepers := others
    ready := x.ready ++ claiming.map fun s => ⟨s.consumer, some s.deadline⟩ }

def runPump (id : Nat) : Nat → Option Nat → Exchange → Exchange
  | 0, _, x => x
  | fuel + 1, claimDeadline, x =>
    match x.consumer? id with
    | none => x
    | some c =>
      match c.pump with
      | .acquiring =>
        match c.acquire? with
        | some c => runPump id fuel none (x.setConsumer id c)
        | none => x
      | .reserving =>
        match c.reserve? with
        | some c => runPump id fuel none (x.setConsumer id c)
        | none => x
      | .claiming =>
        match claimDeadline, x.refuses? .claim with
        | none, some x =>
          (x.log ⟨.warn, "Failed to claim message", [("error", outage.message)]⟩).sleep
            ⟨id, x.now + claimPause, false⟩
        | _, _ =>
          match c.claim? x.broker with
          | some (c, b) => runPump id fuel none ({ x with broker := b }.setConsumer id c)
          | none => x.sleep ⟨id, claimDeadline.getD (x.now + claimTimeout), true⟩
      | .holding _ =>
        match c.register? with
        | some c => runPump id fuel none (x.setConsumer id c)
        | none => x
      | .stopped => x

/-- Every message takes a permit and four steps. -/
def pumpSteps (c : Consumer) : Nat := 4 * (c.free + 2)

def wake (x : Exchange) (w : Wakeup) : Exchange :=
  match x.consumer? w.consumer with
  | some c => runPump w.consumer (pumpSteps c) w.claimDeadline x
  | none => x

/-- Lets everybody run until all have to wait. Pumps do not wake each other. -/
def settle (x : Exchange) : Exchange := x.ready.foldl wake { x with ready := [] }

/-! ### Time -/

def nextDue (x : Exchange) : Option Nat := (x.sleepers.map (·.deadline)).min?

def wakeDue (x : Exchange) : Exchange :=
  let (due, others) := x.sleepers.partition (·.deadline ≤ x.now)
  { x with sleepers := others, ready := x.ready ++ due.map fun s => ⟨s.consumer, none⟩ }

def advanceTo (target : Nat) : Nat → Exchange → Exchange
  | 0, x => { x with now := target }
  | fuel + 1, x =>
    match x.nextDue with
    | some due =>
      if due ≤ target then advanceTo target fuel ({ x with now := due }.wakeDue).settle
      else { x with now := target }
    | none => { x with now := target }

/-- Lets time pass. Each consumer wakes once in a claim's time at most. -/
def advance (x : Exchange) (ms : Nat) : Exchange :=
  advanceTo (x.now + ms) ((ms / min claimTimeout claimPause + 2) * (x.consumers.length + 1)) x

/-! ### Operations -/

def publish (x : Exchange) (queue payload : String) : Except QueueError Unit × Exchange :=
  match x.callBroker .publish (·.publish queue payload) with
  | (.ok (), x) => (.ok (), x.notify)
  | r => r

def quiet (x : Exchange) (id : Nat) : Exchange :=
  { x with
    ready := x.ready.filter (·.consumer ≠ id)
    sleepers := x.sleepers.filter (·.consumer ≠ id) }

def dropConsumer (x : Exchange) (id : Nat) : Exchange :=
  { x.quiet id with consumers := x.consumers.filter (·.1 ≠ id) }

def consume (x : Exchange) (id : Nat) (c : Consumer) : Exchange :=
  { x with consumers := x.consumers ++ [(id, c)] }.schedule ⟨id, none⟩

inductive Received where
  | delivery (d : Delivery)
  | nothingYet
  | closed
deriving DecidableEq, Repr

def receive (x : Exchange) (id : Nat) : Received × Exchange :=
  match x.consumer? id with
  | none => (.closed, x)
  | some c =>
    match c.receive? with
    | some (d, c) =>
      let x := x.setConsumer id c
      (.delivery d, if c.pump = .reserving then x.schedule ⟨id, none⟩ else x)
    | none => (if c.isOpen then .nothingYet else .closed, x)

/-- Tells the broker of a delivery taken out of flight, and frees its permit. What the broker puts
back wakes those who wait for it, before the permit wakes this consumer. -/
def finish (x : Exchange) (id : Nat) (c : Consumer) (d : Delivery) (how : Settlement) :
    Except QueueError Unit × Exchange :=
  let (r, x) := x.callBroker how.call (c.effect d how)
  let x := match r, how with
    | .ok (), .requeue => x.notify
    | _, _ => x
  let c := c.settled d how
  let x := x.setConsumer id c
  (r, if c.pump = .acquiring then x.schedule ⟨id, none⟩ else x)

def settleDelivery (x : Exchange) (id tag : Nat) (how : Settlement) :
    Except QueueError Unit × Exchange :=
  match (x.consumer? id).bind (·.take? tag how) with
  | none => (.error (.unknownDelivery tag), x)
  | some (d, c) => x.finish id c d how

/-- Gives back what was not received, oldest first; deliveries settled before they were received
stay settled. The first failure ends it. -/
def drain (id : Nat) : Nat → Exchange → Except QueueError Unit × Exchange
  | 0, x => (.ok (), x)
  | fuel + 1, x =>
    match (x.consumer? id).bind (·.receive?) with
    | none => (.ok (), x)
    | some (d, c) =>
      match c.take? d.tag .requeue with
      | none => drain id fuel (x.setConsumer id c)
      | some (d, c) =>
        match x.finish id c d .requeue with
        | (.ok (), x) => drain id fuel x
        | r => r

def close (x : Exchange) (id : Nat) : Except QueueError Unit × Exchange :=
  match x.consumer? id with
  | none => (.ok (), x)
  | some c =>
    match drain id (c.buffer.length + 1) ((x.quiet id).setConsumer id c.stop) with
    | (.ok (), x) =>
      let outstanding := ((x.consumer? id).map (·.inFlight.length)).getD 0
      (.ok (), if outstanding = 0 then x
        else x.log ⟨.warn, "Consumer closed with unsettled deliveries",
          [("outstanding", toString outstanding)]⟩)
    | r => r

end Exchange
end SandboxWorker.Queue
