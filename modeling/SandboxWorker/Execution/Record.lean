import SandboxWorker.Execution.Event
/-! The record of an execution, what makes one valid, and how events move it on. -/
namespace SandboxWorker

structure ExecutionRecord where
  id : ExecutionId
  createdAt : Instant
  stage : Stage
  sourceCodePath : String
  language : Language
  compiler : Compiler
  finishedAt : Option Instant
  exitCode : Option Int64
  logsPath : Option LogsPath
  failureReason : FailureReason
deriving DecidableEq, Repr

namespace ExecutionRecord

/-- A failure has a reason, an end has a time and an exit code, and whatever was started has logs;
nothing else has any of these. The first rule broken is the error. -/
def validate (r : ExecutionRecord) : Except DomainError Unit :=
  if ¬ r.compiler.supports r.language then .error (.unsupportedLanguage r.compiler r.language)
  else if r.stage = .failed ∧ r.failureReason = .none then .error .missingFailureReason
  else if r.stage ≠ .failed ∧ r.failureReason ≠ .none then .error (.unexpectedFailureReason r.stage)
  else if r.stage.isFinal ∧ r.finishedAt = none then .error .missingFinishedAt
  else if ¬ r.stage.isFinal ∧ r.finishedAt ≠ none then .error (.unexpectedFinishedAt r.stage)
  else if r.stage.isFinal ∧ r.exitCode = none then .error .missingExitCode
  else if ¬ r.stage.isFinal ∧ r.exitCode ≠ none then .error (.unexpectedExitCode r.stage)
  else if r.stage = .created ∧ r.logsPath ≠ none then .error (.unexpectedLogsPath r.stage)
  else if r.stage ≠ .created ∧ r.logsPath = none then .error (.missingLogsPath r.stage)
  else .ok ()

end ExecutionRecord

structure Execution where
  record : ExecutionRecord
  valid : record.validate = .ok ()
deriving DecidableEq, Repr

namespace Execution

def ofRecord (r : ExecutionRecord) : Except DomainError Execution :=
  match valid : r.validate with
  | .ok () => .ok ⟨r, valid⟩
  | .error e => .error e

def submitted (id : ExecutionId) (createdAt : Instant) (sourceCodePath : String)
    (language : Language) (compiler : Compiler) : Except DomainError Execution :=
  ofRecord
    { id, createdAt, stage := .created, sourceCodePath, language, compiler, finishedAt := none,
      exitCode := none, logsPath := none, failureReason := .none }

def started (r : ExecutionRecord) (e : StartedEvent) : ExecutionRecord :=
  { r with stage := .started, logsPath := some e.logsPath }

/-- The record after an end. Work may end before it was announced as started; its logs are then
where they belong. -/
def finished (r : ExecutionRecord) (e : FinishedEvent) : ExecutionRecord :=
  { r with
    stage := e.stage
    exitCode := some e.exitCode
    failureReason := e.failureReason
    finishedAt := some e.createdAt
    logsPath := some (r.logsPath.getD (.forExecution r.id)) }

def apply (x : Execution) (e : ExecutionEvent) : Except DomainError Execution :=
  let stage := x.record.stage
  if e.id ≠ x.record.id then .error (.foreignEvent x.record.id e.id)
  else
    match e with
    | .requested _ => .error (.illegalTransition stage e.kind)
    | .started s =>
      if stage = .created then ofRecord (started x.record s)
      else .error (.illegalTransition stage e.kind)
    | .finished f =>
      if stage.isFinal then .error (.illegalTransition stage e.kind)
      else ofRecord (finished x.record f)

end Execution
end SandboxWorker
