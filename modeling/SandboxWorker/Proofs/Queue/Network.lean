import SandboxWorker.Queue.Consumer
import SandboxWorker.Queue.Keys
/-! One queue with any number of publishers and consumers, who take their steps in any order. The
history keeps what was ever published, and what the broker was told is done. -/
namespace SandboxWorker.Queue

/-- A step of a consumer. To close is to halt, and then to receive, take and tell of what is in the
buffer. -/
inductive Action where
  | acquire
  | reserve
  | claim
  | register
  | receive
  | take (tag : Nat) (how : Settlement)
  /-- The broker is told of a delivery that was taken. -/
  | tell (delivery : Delivery) (how : Settlement)
  /-- Whoever took a delivery goes away before the broker is told of it. -/
  | abandon (delivery : Delivery) (how : Settlement)
  /-- The pump stops wherever it is. -/
  | halt
deriving DecidableEq, Repr

def Consumer.act? (c : Consumer) (b : Broker) : Action → Option (Consumer × Broker)
  | .acquire => c.acquire?.map (·, b)
  | .reserve => c.reserve?.map (·, b)
  | .claim => c.claim? b
  | .register => c.register?.map (·, b)
  | .receive => c.receive?.map fun (_, c) => (c, b)
  | .take tag how => (c.take? tag how).map fun (_, c) => (c, b)
  | .tell d how => if (d, how) ∈ c.settling then some (c.settled d how, c.effect d how b) else none
  | .abandon d how => if (d, how) ∈ c.settling then some (c.settled d how, b) else none
  | .halt => some (c.stop, b)

def Action.acknowledged : Action → List String
  | .tell d .acknowledge => [d.content]
  | _ => []

inductive Event where
  | publish (payload : String)
  /-- A consumer begins; it is given an identifier that no other one has. -/
  | join (id : Uuid) (prefetch : Nat)
  | act (index : Nat) (action : Action)
deriving DecidableEq, Repr

structure Network where
  broker : Broker
  /-- All consumers there ever were. -/
  consumers : List Consumer
  published : List String
  acknowledged : List String

namespace Network

def empty : Network := ⟨.empty, [], [], []⟩

def step (name : String) (n : Network) : Event → Network
  | .publish payload =>
    { n with
      broker := n.broker.publish (waitingKey name) payload
      published := payload :: n.published }
  | .join id prefetch =>
    if processingKey name id ∈ n.consumers.map (·.processing) then n
    else
      { n with
        consumers := n.consumers ++
          [.start (waitingKey name) (processingKey name id) (deadLetterKey name) prefetch] }
  | .act index action =>
    match n.consumers[index]? with
    | none => n
    | some c =>
      match c.act? n.broker action with
      | none => n
      | some (c, b) =>
        { n with
          broker := b
          consumers := n.consumers.set index c
          acknowledged := action.acknowledged ++ n.acknowledged }

def run (name : String) (events : List Event) : Network := events.foldl (step name) empty

end Network
end SandboxWorker.Queue
