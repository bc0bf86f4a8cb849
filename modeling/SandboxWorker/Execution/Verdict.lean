import SandboxWorker.Execution.Basic
/-! How an execution ended, judged from how its program did. -/
namespace SandboxWorker

structure Verdict where
  stage : Stage
  failureReason : FailureReason
deriving DecidableEq, Repr

namespace Verdict

def failed (reason : FailureReason) : Verdict := ⟨.failed, reason⟩

/-- Time comes first: a program that ran out of it failed, whatever its exit code. -/
def classify (inTime : Bool) (exitCode : Option Int64) : Verdict :=
  if !inTime then failed .timeLimitExceeded
  else
    match exitCode with
    | some code => if code = 0 then ⟨.completed, .none⟩ else failed .nonZeroExitCode
    | none => failed .internalError

end Verdict
end SandboxWorker
