import SandboxWorker.Uuid
import SandboxWorker.Instant.Basic
/-! The vocabulary of code execution: what is run, how far a run has come, and why one failed. -/
namespace SandboxWorker

/-- Identity of an execution, given once when it is submitted. -/
abbrev ExecutionId := Uuid

inductive Language where
  | cSharp
deriving DecidableEq, Repr

def Language.all : List Language := [.cSharp]

def Language.name : Language → String
  | .cSharp => "C_SHARP"

inductive Compiler where
  | mono
deriving DecidableEq, Repr

def Compiler.all : List Compiler := [.mono]

def Compiler.name : Compiler → String
  | .mono => "MONO"

def Compiler.languages : Compiler → List Language
  | .mono => [.cSharp]

def Compiler.supports (c : Compiler) (l : Language) : Bool := c.languages.contains l

inductive Stage where
  | created
  | started
  | completed
  | failed
deriving DecidableEq, Repr

namespace Stage

def all : List Stage := [.created, .started, .completed, .failed]

def name : Stage → String
  | .created => "CREATED"
  | .started => "STARTED"
  | .completed => "COMPLETED"
  | .failed => "FAILED"

def isFinal : Stage → Bool
  | .completed | .failed => true
  | .created | .started => false

end Stage

inductive FailureReason where
  | none
  | timeLimitExceeded
  | nonZeroExitCode
  | internalError
deriving DecidableEq, Repr

namespace FailureReason

def all : List FailureReason := [.none, .timeLimitExceeded, .nonZeroExitCode, .internalError]

def name : FailureReason → String
  | .none => "NONE"
  | .timeLimitExceeded => "TIME_LIMIT_EXCEEDED"
  | .nonZeroExitCode => "NON_ZERO_EXIT_CODE"
  | .internalError => "INTERNAL_ERROR"

end FailureReason

structure LogsPath where
  all : String
  stdout : String
  stderr : String
deriving DecidableEq, Repr

namespace LogsPath

def forExecution (id : ExecutionId) : LogsPath where
  all := id.toString ++ "/all_logs"
  stdout := id.toString ++ "/stdout_logs"
  stderr := id.toString ++ "/stderr_logs"

def toList (p : LogsPath) : List String := [p.all, p.stdout, p.stderr]

end LogsPath

/-- The name of a source file whose path gives none. -/
def sourceFileName : String := "source"

def sourcePath (id : ExecutionId) : String := id.toString ++ "/" ++ sourceFileName

inductive EventKind where
  | requested
  | started
  | finished
deriving DecidableEq, Repr

def EventKind.all : List EventKind := [.requested, .started, .finished]

def EventKind.name : EventKind → String
  | .requested => "CodeExecutionRequestedEvent"
  | .started => "CodeExecutionStartedEvent"
  | .finished => "CodeExecutionFinishedEvent"

inductive DomainError where
  | unsupportedLanguage (compiler : Compiler) (language : Language)
  | missingFailureReason
  | unexpectedFailureReason (stage : Stage)
  | missingFinishedAt
  | unexpectedFinishedAt (stage : Stage)
  | missingExitCode
  | unexpectedExitCode (stage : Stage)
  | missingLogsPath (stage : Stage)
  | unexpectedLogsPath (stage : Stage)
  | notFinal (stage : Stage)
  | foreignEvent (execution event : ExecutionId)
  | illegalTransition (stage : Stage) (event : EventKind)
deriving DecidableEq, Repr

def DomainError.message : DomainError → String
  | .unsupportedLanguage c l => s!"compiler '{c.name}' does not support '{l.name}' language"
  | .missingFailureReason => "failureReason must be set for failed state"
  | .unexpectedFailureReason s => s!"failureReason must be empty for {s.name} state"
  | .missingFinishedAt => "finishedAt must be set for final state"
  | .unexpectedFinishedAt s => s!"finishedAt must be empty for {s.name} state"
  | .missingExitCode => "exitCode must be set for final state"
  | .unexpectedExitCode s => s!"exitCode must be empty for {s.name} state"
  | .missingLogsPath s => s!"logsPath must be set for {s.name} state"
  | .unexpectedLogsPath s => s!"logsPath must be empty for {s.name} state"
  | .notFinal s => s!"state must be final, got {s.name}"
  | .foreignEvent x e => s!"event for {e.toString} cannot be applied to execution {x.toString}"
  | .illegalTransition s e => s!"{e.name} cannot be applied in {s.name} state"

end SandboxWorker
