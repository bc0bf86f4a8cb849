/-! What a worker reports of its work, message by message, with named values. -/
namespace SandboxWorker

inductive Level where
  | info
  | warn
  | error
deriving DecidableEq, Repr

def Level.name : Level → String
  | .info => "INFO"
  | .warn => "WARN"
  | .error => "ERROR"

structure JournalEntry where
  level : Level
  message : String
  fields : List (String × String)
deriving DecidableEq, Repr

end SandboxWorker
