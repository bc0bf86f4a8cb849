import SandboxWorker.Engine.Sandbox
import SandboxWorker.Engine.Status
import SandboxWorker.Http.Target
import SandboxWorker.Json.Error
import SandboxWorker.Logs.Batch
import SandboxWorker.Text.Percent
/-! Calls to a container engine, each with the type of its answer, and the requests they become. -/
namespace SandboxWorker

structure LogsReply where
  status : Nat
  logs : LogBatch
deriving DecidableEq, Repr

inductive EngineError where
  /-- A file or the engine's socket is out of reach. -/
  | io (text : String)
  /-- The engine hung up. -/
  | transport
  /-- There is no such request. -/
  | request
  | payload (e : Json.Error)
  | logs (e : FrameError)
deriving DecidableEq, Repr

namespace EngineError

def payloadText : Json.Error → String
  | .malformed => "malformed text"
  | .ended => "text ended too early"
  | .data e => e.message

def message : EngineError → String
  | .io text => "engine socket error: " ++ text
  | .transport => "engine transport error: connection closed"
  | .request => "invalid engine request: invalid target"
  | .payload e => "invalid engine payload: " ++ payloadText e
  | .logs e => "malformed log stream: " ++ e.message

end EngineError

inductive EngineCall : Type → Type where
  | ping : EngineCall Nat
  | create (params : SandboxParams) : EngineCall CreateReply
  | start (id : String) : EngineCall Nat
  /-- Unpacks an archive into a directory; none if its file is not there. -/
  | copy (id : String) (archive : Option Bytes) (destination : String) : EngineCall Nat
  | logs (id : String) (since : Option Instant) : EngineCall LogsReply
  | inspect (id : String) : EngineCall InspectReply
  | kill (id : String) : EngineCall Nat
  | remove (id : String) : EngineCall Nat

inductive Method where
  | get
  | post
  | put
  | delete
deriving DecidableEq, Repr

def Method.name : Method → String
  | .get => "GET"
  | .post => "POST"
  | .put => "PUT"
  | .delete => "DELETE"

structure EngineRequest where
  method : Method
  target : String
  contentType : Option String
  body : Bytes
deriving DecidableEq, Repr

namespace EngineRequest

def host : String := "docker"

def line (r : EngineRequest) : String := s!"{r.method.name} {r.target} HTTP/1.1"

def version : String := "/v1.41"

def ofPath (method : Method) (path : String) (content : Option (String × Bytes)) :
    Except EngineError EngineRequest :=
  match Http.target? (version ++ path) with
  | some target =>
    .ok { method, target, contentType := content.map (·.1),
          body := (content.map (·.2)).getD [] }
  | none => .error .request

end EngineRequest

/-- A cursor as seconds since 1970, rounded down, and the nanoseconds past them. -/
def sinceText (t : Instant) : String :=
  String.ofList (Decimal.ofInt t.second ++ '.' :: Decimal.padded 9 t.nano)

namespace EngineCall

def jsonType : String := "application/json"

def archiveType : String := "application/x-tar"

/-- What is asked of a container's output: all of it, both streams, with timestamps. -/
def logsQuery : String := "tail=all&stdout=1&stderr=1&timestamps=true"

def container (id : String) : String := "/containers/" ++ id

/-- The request of a call. An archive is read before anything else. -/
def request {α : Type} : EngineCall α → Except EngineError EngineRequest
  | .ping => EngineRequest.ofPath .get "/_ping" none
  | .create params =>
    EngineRequest.ofPath .post "/containers/create"
      (some (jsonType, Utf8.encodeChars params.toJson.text))
  | .start id => EngineRequest.ofPath .post (container id ++ "/start") none
  | .copy id archive destination =>
    match archive with
    | none => .error (.io "no archive")
    | some archive =>
      EngineRequest.ofPath .put (container id ++ "/archive?path=" ++ Percent.encode destination)
        (some (archiveType, archive))
  | .logs id since =>
    EngineRequest.ofPath .get (container id ++ "/logs?" ++ logsQuery ++
      (match since with
        | some t => "&since=" ++ sinceText t
        | none => "")) none
  | .inspect id => EngineRequest.ofPath .get (container id ++ "/json") none
  | .kill id => EngineRequest.ofPath .post (container id ++ "/kill") none
  | .remove id => EngineRequest.ofPath .delete (container id ++ "?force=true") none

end EngineCall
end SandboxWorker
