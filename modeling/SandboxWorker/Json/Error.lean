import SandboxWorker.Execution.Basic
import SandboxWorker.Instant.Reading
/-! Why a JSON text is refused. -/
namespace SandboxWorker.Json

inductive DataError where
  | missingField (name : String)
  | duplicateField (name : String)
  | unknownVariant (found : String) (known : List String)
  | invalidType
  | invalidValue
  | invalidLength
  | uuid
  | instant (e : Instant.ReadError)
  | domain (e : DomainError)
deriving DecidableEq, Repr

/-- Names in backquotes, as error texts list them. -/
def quoted (name : String) : String := "`" ++ name ++ "`"

def DataError.message : DataError → String
  | .missingField name => "missing field " ++ quoted name
  | .duplicateField name => "duplicate field " ++ quoted name
  | .unknownVariant found known =>
    "unknown variant " ++ quoted found ++
      (match known with
        | [name] => ", expected " ++ quoted name
        | _ => ", expected one of " ++ ", ".intercalate (known.map quoted))
  | .invalidType => "invalid type"
  | .invalidValue => "invalid value"
  | .invalidLength => "invalid length"
  | .uuid => "UUID parsing failed"
  | .instant e => e.message
  | .domain e => e.message

inductive Error where
  /-- Not JSON, whatever may follow. -/
  | malformed
  /-- The text stops before its value is complete. -/
  | ended
  | data (e : DataError)
deriving DecidableEq, Repr

end SandboxWorker.Json
