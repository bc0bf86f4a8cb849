import SandboxWorker.Execution.Record
import SandboxWorker.Instant.Writing
import SandboxWorker.Json.Tagged
/-! Executions and their events as JSON. -/
namespace SandboxWorker
open Json

def Uuid.wire : Wire Uuid :=
  .ofText (fun cs => match ofChars? cs with
    | some u => .ok u
    | none => .error .uuid) Uuid.text

def Instant.wire : Wire Instant :=
  .ofText (fun cs => match lenient cs with
    | .ok t => .ok t
    | .error e => .error (.instant e)) Instant.text

def Language.wire : Wire Language := .choice Language.all name

def Compiler.wire : Wire Compiler := .choice Compiler.all name

def Stage.wire : Wire Stage := .choice all name

def FailureReason.wire : Wire FailureReason := .choice all name

/-- What breaks a rule of the domain is wrong content. -/
def Json.ofDomain {α : Type} : Except DomainError α → Decoded α
  | .ok a => .ok a
  | .error e => .error (.domain e)

def LogsPath.wire : Wire LogsPath :=
  (Fields.required "allPath" .string |>.pair <| .pair (.required "stdoutPath" .string)
    (.required "stderrPath" .string)).wire.refine
    (fun (all, stdout, stderr) => .ok { all, stdout, stderr })
    (fun p => (p.all, p.stdout, p.stderr))

def RequestedEvent.wire : Wire RequestedEvent :=
  (Fields.required "id" Uuid.wire |>.pair <| .pair (.required "createdAt" Instant.wire) <|
    .pair (.required "language" Language.wire) <| .pair (.required "compiler" Compiler.wire)
    (.required "sourceCodePath" .string)).wire.refine
    (fun (id, createdAt, language, compiler, sourceCodePath) =>
      .ok { id, createdAt, language, compiler, sourceCodePath })
    (fun e => (e.id, e.createdAt, e.language, e.compiler, e.sourceCodePath))

def StartedEvent.wire : Wire StartedEvent :=
  (Fields.required "id" Uuid.wire |>.pair <| .pair (.required "createdAt" Instant.wire)
    (.required "logsPath" LogsPath.wire)).wire.refine
    (fun (id, createdAt, logsPath) => .ok { id, createdAt, logsPath })
    (fun e => (e.id, e.createdAt, e.logsPath))

def FinishedEvent.wire : Wire FinishedEvent :=
  (Fields.required "id" Uuid.wire |>.pair <| .pair (.required "createdAt" Instant.wire) <|
    .pair (.required "state" Stage.wire) <| .pair (.required "exitCode" .int64)
    (.withDefault "failureReason" FailureReason.wire .none)).wire.refine
    (fun (id, createdAt, stage, exitCode, reason) =>
      ofDomain (FinishedEvent.new id createdAt stage exitCode reason))
    (fun e => (e.id, e.createdAt, e.stage, e.exitCode, e.failureReason))

namespace ExecutionEvent

def kindField : String := "type"

def ofJson (kind : EventKind) (body : Json) : Decoded ExecutionEvent :=
  match kind with
  | .requested => return .requested (← RequestedEvent.wire.buffered body)
  | .started => return .started (← StartedEvent.wire.buffered body)
  | .finished => return .finished (← FinishedEvent.wire.buffered body)

def body : ExecutionEvent → Json
  | .requested e => RequestedEvent.wire.write e
  | .started e => StartedEvent.wire.write e
  | .finished e => FinishedEvent.wire.write e

def toJson (e : ExecutionEvent) : Json :=
  match e.body with
  | .obj members => .obj ((kindField, .str e.kind.name) :: members)
  | body => body

def encode (e : ExecutionEvent) : String := e.toJson.toString

def decode (content : String) : Except Json.Error ExecutionEvent := do
  let ((kind, body), rest) ← tagged kindField EventKind.all EventKind.name (Utf8.encode content)
  let e ← lift (ofJson kind body)
  endText rest
  return e

end ExecutionEvent

def ExecutionRecord.wire : Wire ExecutionRecord :=
  (Fields.required "id" Uuid.wire |>.pair <| .pair (.required "createdAt" Instant.wire) <|
    .pair (.required "state" Stage.wire) <| .pair (.required "sourceCodePath" .string) <|
    .pair (.required "language" Language.wire) <| .pair (.required "compiler" Compiler.wire) <|
    .pair (.withDefault "finishedAt" (.optional Instant.wire) none) <|
    .pair (.withDefault "exitCode" (.optional .int64) none) <|
    .pair (.withDefault "logsPath" (.optional LogsPath.wire) none)
    (.withDefault "failureReason" FailureReason.wire .none)).wire.refine
    (fun (id, createdAt, stage, sourceCodePath, language, compiler, finishedAt, exitCode, logsPath,
        failureReason) =>
      .ok { id, createdAt, stage, sourceCodePath, language, compiler, finishedAt, exitCode,
            logsPath, failureReason })
    (fun r => (r.id, r.createdAt, r.stage, r.sourceCodePath, r.language, r.compiler, r.finishedAt,
      r.exitCode, r.logsPath, r.failureReason))

namespace Execution

def wire : Wire Execution :=
  ExecutionRecord.wire.refine (fun r => ofDomain (ofRecord r)) record

def encode (x : Execution) : String := (wire.write x).toString

def decode (content : String) : Except Json.Error Execution := wire.read (Utf8.encode content)

end Execution
end SandboxWorker
