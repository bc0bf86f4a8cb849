import SandboxWorker.Engine.Call
import SandboxWorker.Execution.Event
import SandboxWorker.Journal
import SandboxWorker.Queue.Consumer
import SandboxWorker.Storage.Store
import SandboxWorker.Worker.Program
/-! What a worker asks of its surroundings: the engine, the store of artifacts, the two queues, the
clock, and a place for scratch files. -/
namespace SandboxWorker

/-- A call, with the type of its answer. Times and spans are in milliseconds. -/
inductive Call : Type → Type 1 where
  | engine {α : Type} (c : EngineCall α) : Call (Except EngineError α)
  /-- A call that a deadline may cut off; it then has no answer. -/
  | engineBefore {α : Type} (deadline : Nat) (c : EngineCall α) :
    Call (Option (Except EngineError α))
  /-- A rest that a deadline may cut off; tells whether it did not. -/
  | restBefore (deadline span : Nat) : Call Bool
  /-- The time on a clock that deadlines go by. -/
  | clock : Call Nat
  /-- The time that events carry. -/
  | time : Call Instant
  /-- Makes a scratch file; tells whether that was possible. -/
  | scratch (label : String) : Call Bool
  | upload (bucket key : String) (content : Bytes) : Call (Except Storage.StoreError Unit)
  | download (bucket key : String) : Call (Except Storage.StoreError Bytes)
  | send (event : ExecutionEvent) : Call (Except Queue.QueueError Unit)
  | acknowledge (tag : Nat) : Call (Except Queue.QueueError Unit)
  | reject (tag : Nat) (requeue : Bool) : Call (Except Queue.QueueError Unit)
  | log (entry : JournalEntry) : Call Unit

inductive Failure where
  /-- The engine answered, but did not do it. -/
  | refused (operation : String) (status : Nat)
  | noContainerId
  | engine (e : EngineError)
  | store (e : Storage.StoreError)
  | queue (e : Queue.QueueError)
  | domain (e : DomainError)
  | scratch
deriving DecidableEq, Repr

def Failure.message : Failure → String
  | .refused operation status => s!"{operation} failed with engine status {status}"
  | .noContainerId => "engine created a container without an id"
  | .engine e => e.message
  | .store e => e.message
  | .queue e => e.message
  | .domain e => e.message
  | .scratch => "scratch file error"

abbrev Work (α : Type) := ExceptT Failure (Program Call) α

namespace Work
variable {α : Type}

def ask (c : Call α) : Work α := ExceptT.lift (Program.ask c)

def ofExcept {ε : Type} (failure : ε → Failure) : Except ε α → Work α
  | .ok a => pure a
  | .error e => throw (failure e)

def unfinished : Work α := ExceptT.mk .unfinished

def engine (c : EngineCall α) : Work α := do ofExcept .engine (← ask (.engine c))

/-- None if the deadline came first. -/
def engineBefore (deadline : Nat) (c : EngineCall α) : Work (Option α) := do
  match ← ask (.engineBefore deadline c) with
  | none => return none
  | some answer => return some (← ofExcept .engine answer)

def ensure (operation : String) (status : Nat) : Work Unit :=
  if isSuccess status then pure () else throw (.refused operation status)

def scratch (label : String) : Work Unit := do
  if ← ask (.scratch label) then return ()
  else throw .scratch

def upload (bucket key : String) (content : Bytes) : Work Unit := do
  ofExcept .store (← ask (.upload bucket key content))

def download (bucket key : String) : Work Bytes := do
  ofExcept .store (← ask (.download bucket key))

def send (event : ExecutionEvent) : Work Unit := do ofExcept .queue (← ask (.send event))

def log (level : Level) (message : String) (fields : List (String × String)) : Work Unit :=
  ask (.log ⟨level, message, fields⟩)

end Work
end SandboxWorker
