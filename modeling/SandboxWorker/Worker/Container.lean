import SandboxWorker.Config.Worker
import SandboxWorker.Execution.Verdict
import SandboxWorker.Worker.Artifacts
/-! One container: made, watched under a deadline, killed if it outlives it, and removed. How often
a container is looked at has no bound of its own, so the loops take the greatest number of looks and
leave the work unfinished beyond it. -/
namespace SandboxWorker.Worker

def about (id : ExecutionId) (container : String) : List (String × String) :=
  [("execution_id", id.toString), ("container_id", container)]

structure ContainerRun where
  config : WorkerConfig
  id : ExecutionId
  container : String
deriving DecidableEq, Repr

namespace ContainerRun

def bucket (r : ContainerRun) : String := r.config.storage.bucket

def paths (r : ContainerRun) : LogsPath := .forExecution r.id

def interval (r : ContainerRun) : Nat := r.config.runner.logsPollInterval

def warn (r : ContainerRun) (message : String) (more : List (String × String)) : Work Unit :=
  Work.log .warn message (about r.id r.container ++ more)

end ContainerRun

def createContainer (config : WorkerConfig) (fileName : String) : Work String := do
  let created ← Work.engine (.create
    { image := config.runner.image
      command := [fileName]
      workingDir := config.runner.workDir
      limits := config.sandbox })
  Work.ensure "create container" created.status
  match created.containerId with
  | some container => return container
  | none => throw .noContainerId

inductive Completion where
  | inTime (exitCode : Option Int64)
  /-- The deadline came first. The cursor tells what was read of the logs by then. -/
  | timedOut (cursor : Option Instant)
deriving DecidableEq, Repr

structure Look where
  status : ContainerStatus
  exitCode : Option Int64
  cursor : Option Instant

/-- Looks at a container and keeps what it wrote. A container that is gone has no logs to give. None
if the deadline came first; once an append has begun it goes on to its end. -/
def look (r : ContainerRun) (deadline : Nat) (cursor : Option Instant) : Work (Option Look) := do
  match ← Work.engineBefore deadline (.inspect r.container) with
  | none => return none
  | some inspected =>
    match inspected.container with
    | none => throw (.refused "inspect container" inspected.status)
    | some status =>
      match ← Work.engineBefore deadline (.logs r.container cursor) with
      | none => return none
      | some fetched =>
        if isSuccess fetched.status then
          appendLogs r.bucket r.paths fetched.logs
          return some ⟨status, inspected.exitCode, fetched.logs.lastTimestamp⟩
        else if status = .notFound then return some ⟨status, inspected.exitCode, cursor⟩
        else throw (.refused "container logs" fetched.status)

def monitor (r : ContainerRun) (deadline : Nat) : Nat → Option Instant → Work Completion
  | 0, _ => Work.unfinished
  | looks + 1, cursor => do
    match ← look r deadline cursor with
    | none => return .timedOut cursor
    | some seen =>
      if seen.status.isFinal then return .inTime seen.exitCode
      if ← Work.ask (.restBefore deadline r.interval) then monitor r deadline looks seen.cursor
      else return .timedOut seen.cursor

/-- Waits for a killed container to be final. None if the deadline came first. -/
def settle (r : ContainerRun) (deadline : Nat) : Nat → Work (Option (Option Int64))
  | 0 => Work.unfinished
  | looks + 1 => do
    match ← Work.engineBefore deadline (.inspect r.container) with
    | none => return none
    | some inspected =>
      if inspected.container.any (·.isFinal) then return some inspected.exitCode
      if ← Work.ask (.restBefore deadline r.interval) then settle r deadline looks
      else return none

/-- Kills a container, and gives it some time to tell its exit code. -/
def kill (r : ContainerRun) (looks : Nat) : Work (Option Int64) := do
  let status ← Work.engine (.kill r.container)
  if !isSuccess status then r.warn "Kill refused" [("status", toString status)]
  let now ← Work.ask .clock
  match ← settle r (now + r.config.runner.killGrace) looks with
  | some exitCode => return exitCode
  | none =>
    r.warn "Killed container did not settle" []
    return none

def collectLogs (r : ContainerRun) (cursor : Option Instant) : Work Unit := do
  let fetched ← Work.engine (.logs r.container cursor)
  if isSuccess fetched.status then appendLogs r.bucket r.paths fetched.logs
  else r.warn "Logs unavailable after kill" [("status", toString fetched.status)]

/-- Brings a container to its end, kept or forced: whether it came to it in time, and its exit
code. -/
def complete (r : ContainerRun) (looks : Nat) : Work (Bool × Option Int64) := do
  let now ← Work.ask .clock
  match ← monitor r (now + r.config.runner.executionTimeout) looks none with
  | .inTime exitCode => return (true, exitCode)
  | .timedOut cursor =>
    r.warn "Execution timed out" []
    let exitCode ← kill r looks
    collectLogs r cursor
    return (false, exitCode)

def exitCodeText : Option Int64 → String
  | some code => s!"Some({code.toInt})"
  | none => "None"

def announce (id : ExecutionId) (inTime : Bool) (exitCode : Option Int64) : Work Unit := do
  let verdict := Verdict.classify inTime exitCode
  let now ← Work.ask .time
  let finished ← Work.ofExcept .domain (FinishedEvent.new id now verdict.stage
    (exitCode.getD FinishedEvent.noExitCode) verdict.failureReason)
  Work.send (.finished finished)
  Work.log .info "Execution finished" [("execution_id", id.toString),
    ("state", verdict.stage.name), ("failure_reason", verdict.failureReason.name),
    ("exit_code", exitCodeText exitCode)]

def runContainer (r : ContainerRun) (looks : Nat) (archive : Bytes) : Work Unit := do
  let copied ← Work.engine (.copy r.container (some archive) r.config.runner.workDir)
  Work.ensure "copy archive" copied
  let started ← Work.engine (.start r.container)
  Work.ensure "start container" started
  let (inTime, exitCode) ← complete r looks
  announce r.id inTime exitCode

/-- Removes a container. Failing to is only reported. -/
def removeContainer (r : ContainerRun) : Work Unit := do
  match ← Work.ask (.engine (.remove r.container)) with
  | .ok status =>
    if isSuccess status then return ()
    else r.warn "Container removal refused" [("status", toString status)]
  | .error e => r.warn "Failed to remove container" [("error", e.message)]

end SandboxWorker.Worker
