import SandboxWorker.Engine.Call
import SandboxWorker.Engine.Model
import SandboxWorker.Json.Fields
/-! What the engine's replies mean. -/
namespace SandboxWorker
open Json

namespace EngineReply

def created : Wire String :=
  (Fields.required "Id" .string |>.pair
    (.required "Warnings" (.optional (.list .string)))).wire.refine
    (fun (id, _) => .ok id) (fun id => (id, none))

def body {α : Type} : Outcome α → Except EngineError α
  | .ok a => .ok a
  | .error e => .error (.payload e)

def ofCreate (status : Nat) (bs : Bytes) : Except EngineError CreateReply := do
  if isSuccess status then return ⟨status, some (← body (created.read bs))⟩
  else return ⟨status, none⟩

def ofLogs (since : Option Instant) (status : Nat) (bs : Bytes) : Except EngineError LogsReply :=
  if isSuccess status then
    match LogBatch.demultiplex bs since with
    | .ok logs => .ok ⟨status, logs⟩
    | .error e => .error (.logs e)
  else .ok ⟨status, .ofFrames since []⟩

/-- A container that does not exist any more is known to be gone; of any other refusal nothing is
known. An exit code counts only once the container is final. -/
def ofInspect (status : Nat) (bs : Bytes) : Except EngineError InspectReply := do
  if status = 404 then return ⟨status, some .notFound, none⟩
  if !isSuccess status then return ⟨status, none, none⟩
  let state := EngineModel.containerState (← body (EngineModel.container.readAll bs))
  let found := state.status.getD .notFound
  return ⟨status, some found, if found.isFinal then state.exitCode else none⟩

end EngineReply

inductive EngineResponse where
  | unreachable
  | hungUp
  | reply (status : Nat) (body : Bytes)
deriving DecidableEq, Repr

namespace EngineResponse

def isStatus (status : Nat) : Bool := 100 ≤ status && status ≤ 999

def switchingProtocols : Nat := 101

/-- Replies of these statuses announce another one; only a switch of protocols is the last. -/
def isInterim (status : Nat) : Bool := status < 200 && status != switchingProtocols

/-- Replies of these statuses have no body, whatever is sent. -/
def hasNoBody (status : Nat) : Bool :=
  status == switchingProtocols || status == 204 || status == 304

end EngineResponse

def EngineCall.ofReply {α : Type} (call : EngineCall α) (status : Nat) (bs : Bytes) :
    Except EngineError α :=
  match call with
  | .ping | .start _ | .copy .. | .kill _ | .remove _ => .ok status
  | .create _ => EngineReply.ofCreate status bs
  | .logs _ since => EngineReply.ofLogs since status bs
  | .inspect _ => EngineReply.ofInspect status bs

/-- The answer of a call, from what comes back. The engine sends one reply and hangs up. -/
def EngineCall.answer {α : Type} (call : EngineCall α) : EngineResponse → Except EngineError α
  | .unreachable => .error (.io "no socket")
  | .hungUp => .error .transport
  | .reply status bs =>
    if !EngineResponse.isStatus status || EngineResponse.isInterim status then .error .transport
    else call.ofReply status (if EngineResponse.hasNoBody status then [] else bs)

end SandboxWorker
