import SandboxWorker.Queue.Broker
/-! Single claims that wait for a message in virtual time, in milliseconds. Publishing and restoring
wake all of them; they then try again in the order in which they began to wait. -/
namespace SandboxWorker.Queue

structure WaitingClaim where
  name : String
  queue : String
  processing : String
  deadline : Nat
deriving DecidableEq, Repr

structure Claims where
  broker : Broker
  now : Nat
  waiting : List WaitingClaim
  /-- What claims that no longer wait have got. -/
  ended : List (String × Option String)

namespace Claims

def empty : Claims := ⟨.empty, 0, [], []⟩

/-- One try of a claim; it goes on waiting if it gets nothing. -/
def attempt (s : Claims) (w : WaitingClaim) : Claims :=
  match s.broker.claim? w.queue w.processing with
  | some (payload, b) => { s with broker := b, ended := s.ended ++ [(w.name, some payload)] }
  | none =>
    if w.deadline ≤ s.now then { s with ended := s.ended ++ [(w.name, none)] }
    else { s with waiting := s.waiting ++ [w] }

def notify (s : Claims) : Claims := s.waiting.foldl attempt { s with waiting := [] }

def advanceTo (s : Claims) (time : Nat) : Claims :=
  let (past, waiting) := s.waiting.partition (·.deadline ≤ time)
  { s with
    now := max s.now time
    waiting := waiting
    ended := s.ended ++ past.map fun w => (w.name, none) }

def publish (s : Claims) (queue payload : String) : Claims :=
  { s with broker := s.broker.publish queue payload }.notify

def restore (s : Claims) (queue processing payload : String) : Claims :=
  { s with broker := s.broker.restore queue processing payload }.notify

def settle (s : Claims) (processing payload : String) : Claims :=
  { s with broker := s.broker.settle processing payload }

/-- Nobody is woken by what is buried. -/
def bury (s : Claims) (deadLetter processing payload : String) : Claims :=
  { s with broker := s.broker.bury deadLetter processing payload }

/-- Claims at once, or waits out the claim's time. Nobody publishes meanwhile. -/
def claim (s : Claims) (queue processing : String) (timeout : Nat) : Option String × Claims :=
  match s.broker.claim? queue processing with
  | some (payload, b) => (some payload, { s with broker := b })
  | none => (none, s.advanceTo (s.now + timeout))

def begin (s : Claims) (name queue processing : String) (timeout : Nat) : Claims :=
  s.attempt ⟨name, queue, processing, s.now + timeout⟩

def finish (s : Claims) (name : String) : Option String × Claims :=
  let s := match s.waiting.find? (·.name = name) with
    | some w => s.advanceTo w.deadline
    | none => s
  ((s.ended.lookup name).join, { s with ended := s.ended.filter (·.1 ≠ name) })

end Claims
end SandboxWorker.Queue
