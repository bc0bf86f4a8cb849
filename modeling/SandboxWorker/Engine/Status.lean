/-! What a container engine says of a call and of a container. -/
namespace SandboxWorker

inductive ContainerStatus where
  | created
  | restarting
  | running
  | removing
  | paused
  | exited
  | dead
  | notFound
deriving DecidableEq, Repr

namespace ContainerStatus

def isFinal : ContainerStatus → Bool
  | .exited | .dead | .notFound => true
  | _ => false

end ContainerStatus

def isSuccess (status : Nat) : Bool := 200 ≤ status && status < 300

structure CreateReply where
  status : Nat
  containerId : Option String
deriving DecidableEq, Repr

/-- What is known of a container. The exit code is given only when it is final. -/
structure InspectReply where
  status : Nat
  container : Option ContainerStatus
  exitCode : Option Int64
deriving DecidableEq, Repr

end SandboxWorker
