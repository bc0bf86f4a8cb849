import SandboxWorker.Execution.Basic
/-! Lifecycle events: an execution is requested, started, finished. -/
namespace SandboxWorker

structure RequestedEvent where
  id : ExecutionId
  createdAt : Instant
  language : Language
  compiler : Compiler
  sourceCodePath : String
deriving DecidableEq, Repr

structure StartedEvent where
  id : ExecutionId
  createdAt : Instant
  logsPath : LogsPath
deriving DecidableEq, Repr

/-- How an execution ended. Completed ones have no failure reason and failed ones have one. -/
structure FinishedEvent where
  id : ExecutionId
  createdAt : Instant
  stage : Stage
  exitCode : Int64
  failureReason : FailureReason
  final : stage.isFinal = true
  reason_none_iff : failureReason = .none ↔ stage = .completed
deriving DecidableEq, Repr

namespace FinishedEvent

/-- The finished event of these fields, if they agree. -/
def new (id : ExecutionId) (createdAt : Instant) (stage : Stage) (exitCode : Int64)
    (failureReason : FailureReason) : Except DomainError FinishedEvent :=
  if final : stage.isFinal = true then
    if agree : failureReason = .none ↔ stage = .completed then
      .ok ⟨id, createdAt, stage, exitCode, failureReason, final, agree⟩
    else if failureReason = .none then .error .missingFailureReason
    else .error (.unexpectedFailureReason stage)
  else .error (.notFinal stage)

/-- The exit code of an execution that was given up before its program had one. -/
def noExitCode : Int64 := -1

def internalError (id : ExecutionId) (createdAt : Instant) : FinishedEvent where
  id := id
  createdAt := createdAt
  stage := .failed
  exitCode := noExitCode
  failureReason := .internalError
  final := rfl
  reason_none_iff := by decide

end FinishedEvent

inductive ExecutionEvent where
  | requested (e : RequestedEvent)
  | started (e : StartedEvent)
  | finished (e : FinishedEvent)
deriving DecidableEq, Repr

namespace ExecutionEvent

def kind : ExecutionEvent → EventKind
  | .requested _ => .requested
  | .started _ => .started
  | .finished _ => .finished

def id : ExecutionEvent → ExecutionId
  | .requested e => e.id
  | .started e => e.id
  | .finished e => e.id

def createdAt : ExecutionEvent → Instant
  | .requested e => e.createdAt
  | .started e => e.createdAt
  | .finished e => e.createdAt

end ExecutionEvent
end SandboxWorker
