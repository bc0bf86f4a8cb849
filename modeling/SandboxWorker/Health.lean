import SandboxWorker.Engine.Call
import SandboxWorker.Journal
/-! Whether a worker is alive: it is as long as its engine answers. -/
namespace SandboxWorker.Health

structure Response where
  status : Nat
  body : String
deriving DecidableEq, Repr

def unavailable : Response := ⟨503, "ENGINE UNAVAILABLE"⟩

def check (ping : Except EngineError Nat) : Response × List JournalEntry :=
  match ping with
  | .ok status =>
    if isSuccess status then (⟨200, "OK"⟩, [])
    else (unavailable, [⟨.warn, "Engine ping refused", [("status", toString status)]⟩])
  | .error e => (unavailable, [⟨.warn, "Engine ping failed", [("error", e.message)]⟩])

def route : String := "/health"

/-- The response to a request for a path. There is one route, for reading only; asking for its head
gives no body. -/
def respond (method path : String) (ping : Except EngineError Nat) :
    Response × List JournalEntry :=
  if path ≠ route then (⟨404, ""⟩, [])
  else if method = "GET" then check ping
  else if method = "HEAD" then ({ (check ping).1 with body := "" }, (check ping).2)
  else (⟨405, ""⟩, [])

end SandboxWorker.Health
