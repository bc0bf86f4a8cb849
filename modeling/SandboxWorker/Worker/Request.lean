import SandboxWorker.Execution.Wire
import SandboxWorker.Worker.Container
/-! One request, from the queue to a terminal event. Whatever happens, the delivery is settled once:
acknowledged when the outcome was announced, and rejected for good otherwise. -/
namespace SandboxWorker.Worker

/-- Work on one request. The container is removed however running it went. -/
def process (config : WorkerConfig) (looks : Nat) (request : RequestedEvent) : Work Unit := do
  let bucket := config.storage.bucket
  let paths := LogsPath.forExecution request.id
  createLogs bucket paths
  let now ← Work.ask .time
  Work.send (.started ⟨request.id, now, paths⟩)
  Work.log .info "Execution started" [("execution_id", request.id.toString)]
  let archive ← stageSource bucket request
  let container ← createContainer config (fileNameOf request.sourceCodePath)
  let run : ContainerRun := ⟨config, request.id, container⟩
  let outcome ← ExceptT.lift (runContainer run looks archive).run
  removeContainer run
  ExceptT.mk (pure outcome)

def log (level : Level) (message : String) (fields : List (String × String)) : Program Call Unit :=
  .ask (.log ⟨level, message, fields⟩)

def requeueRejected : Bool := false

def reject (tag : Nat) : Program Call Unit := do
  match ← Program.ask (.reject tag requeueRejected) with
  | .ok () => return ()
  | .error e =>
    log .warn "Failed to reject request" [("delivery_id", toString tag), ("error", e.message)]

def conclude (tag : Nat) (id : ExecutionId) : Except Failure Unit → Program Call Unit
  | .ok () => do
    match ← Program.ask (.acknowledge tag) with
    | .ok () => return ()
    | .error e =>
      log .warn "Failed to acknowledge request"
        [("execution_id", id.toString), ("error", e.message)]
  | .error e => do
    log .error "Execution failed" [("execution_id", id.toString), ("error", e.message)]
    reject tag
    let now ← Program.ask .time
    match ← Program.ask (.send (.finished (.internalError id now))) with
    | .ok () => return ()
    | .error e =>
      log .warn "Failed to report internal error"
        [("execution_id", id.toString), ("error", e.message)]

def handle (config : WorkerConfig) (looks : Nat) (delivery : Queue.Delivery) :
    Program Call Unit :=
  match ExecutionEvent.decode delivery.content with
  | .ok (.requested request) => do
    conclude delivery.tag request.id (← (process config looks request).run)
  | .ok other => do
    log .warn "Unexpected event on request queue"
      [("execution_id", other.id.toString), ("kind", other.kind.name)]
    reject delivery.tag
  | .error _ => do
    log .warn "Failed to decode request" []
    reject delivery.tag

end SandboxWorker.Worker
