import SandboxWorker.Queue.Exchange
import SandboxWorker.Queue.Keys
import SandboxWorker.Worker.Request
/-! A worker rehearsed: its engine answers by a script, its queues and its store are at hand, and
time passes only while somebody waits. Of every call it is noted when it began. -/
namespace SandboxWorker.Rehearsal

inductive EngineOperation where
  | ping
  | create
  | start
  | copy
  | logs
  | inspect
  | kill
  | remove
deriving DecidableEq, Repr

def operationOf {α : Type} : EngineCall α → EngineOperation
  | .ping => .ping
  | .create _ => .create
  | .start _ => .start
  | .copy .. => .copy
  | .logs .. => .logs
  | .inspect _ => .inspect
  | .kill _ => .kill
  | .remove _ => .remove

structure Cue where
  delay : Nat
  failure : Option String
  status : Option Nat
  containerId : Option String
  container : Option ContainerStatus
  exitCode : Option Int64
  output : Bytes
deriving DecidableEq, Repr

namespace Cue

def standard : Cue := ⟨0, none, none, some "container-1", none, none, []⟩

def answer {α : Type} (cue : Cue) (c : EngineCall α) : Except EngineError α :=
  match cue.failure with
  | some text => .error (.io text)
  | none =>
    match c with
    | .ping => .ok (cue.status.getD 200)
    | .create _ => .ok ⟨cue.status.getD 201, cue.containerId⟩
    | .start _ => .ok (cue.status.getD 204)
    | .copy .. => .ok (cue.status.getD 200)
    | .logs _ since =>
      match LogBatch.demultiplex cue.output since with
      | .ok logs => .ok ⟨cue.status.getD 200, logs⟩
      | .error e => .error (.logs e)
    | .inspect _ => .ok ⟨cue.status.getD 200, cue.container, cue.exitCode⟩
    | .kill _ => .ok (cue.status.getD 204)
    | .remove _ => .ok (cue.status.getD 204)

end Cue

inductive Duty where
  | upload
  | download
  | send
  | acknowledge
  | reject
deriving DecidableEq, Repr

/-- Objects by the end of whose keys the store is slow. -/
structure Slowness where
  ending : String
  upload : Nat
  download : Nat
deriving DecidableEq, Repr

structure Script where
  /-- What each operation does, call by call; the last cue goes for all later calls. -/
  cues : EngineOperation → List Cue
  /-- Which calls fail, counted from 1. -/
  failing : Duty → List Nat
  slowness : Option Slowness
  hasScratch : Bool

def Script.cue (s : Script) (operation : EngineOperation) (number : Nat) : Cue :=
  let cues := s.cues operation
  (cues[number]? <|> cues.getLast?).getD .standard

inductive AnyCall : Type 1 where
  | of {α : Type} (c : Call α)

/-- When a call began; waiting for a message in vain is noted as no call. -/
structure Note : Type 1 where
  time : Nat
  call : Option AnyCall

structure Scene : Type 1 where
  config : WorkerConfig
  script : Script
  exchange : Queue.Exchange
  store : Storage.Store
  /-- How often each operation was called. -/
  cued : EngineOperation → Nat
  done : Duty → Nat
  notes : List Note
  journal : List JournalEntry

namespace Scene

def now (s : Scene) : Nat := s.exchange.now

def consumerId : Nat := 0

def requestsKey (s : Scene) : String := Queue.waitingKey s.config.queue.requestQueue

def responsesKey (s : Scene) : String := Queue.waitingKey s.config.queue.responseQueue

def processingKey (s : Scene) : String :=
  Queue.processingKey s.config.queue.requestQueue ⟨BitVec.ofNat 128 consumerId⟩

def deadKey (s : Scene) : String := Queue.deadLetterKey s.config.queue.requestQueue

def start (config : WorkerConfig) (script : Script) (objects : List (String × Bytes))
    (messages : List String) : Scene :=
  let empty : Scene :=
    { config, script, exchange := .empty, store := .empty config.storage.root, cued := fun _ => 0,
      done := fun _ => 0, notes := [], journal := [] }
  let consumer := Queue.Consumer.start empty.requestsKey empty.processingKey empty.deadKey
    config.queue.requestPrefetch
  let exchange := messages.foldl (fun x m => (x.publish empty.requestsKey m).2) Queue.Exchange.empty
  { empty with
    exchange := exchange.consume consumerId consumer
    store := objects.foldl (fun store (key, content) =>
      (store.upload config.storage.bucket (some content) key).2) empty.store }

def note (s : Scene) (call : Option AnyCall) : Scene :=
  { s with notes := s.notes ++ [⟨s.now, call⟩] }

def pass (s : Scene) (ms : Nat) : Scene := { s with exchange := s.exchange.settle.advance ms }

/-- Lets a span pass unless it goes past a deadline; then time stops there. What takes no time is
done even after it. -/
def passBefore (s : Scene) (deadline span : Nat) : Bool × Scene :=
  if span = 0 then (true, s)
  else if s.now + span ≤ deadline then (true, s.pass span)
  else (false, s.pass (deadline - s.now))

/-- The cue of the next call of an operation. A call that is cut off counts as well. -/
def nextCue (s : Scene) (operation : EngineOperation) : Cue × Scene :=
  (s.script.cue operation (s.cued operation),
    { s with cued := fun o => if o = operation then s.cued o + 1 else s.cued o })

def attempt (s : Scene) (duty : Duty) : Bool × Scene :=
  ((s.script.failing duty).contains (s.done duty + 1),
    { s with done := fun d => if d = duty then s.done d + 1 else s.done d })

def exchanging (s : Scene) (duty : Duty)
    (f : Queue.Exchange → Except Queue.QueueError Unit × Queue.Exchange) :
    Except Queue.QueueError Unit × Scene :=
  match s.attempt duty with
  | (true, s) => (.error .closed, s)
  | (false, s) => ((f s.exchange).1, { s with exchange := (f s.exchange).2 })

def slow (s : Scene) (key : String) (span : Slowness → Nat) : Nat :=
  match s.script.slowness with
  | some slowness => if key.endsWith slowness.ending then span slowness else 0
  | none => 0

def upload (s : Scene) (bucket key : String) (content : Bytes) :
    Except Storage.StoreError Unit × Scene :=
  match (s.pass (s.slow key (·.upload))).attempt .upload with
  | (true, s) => (.error .io, s)
  | (false, s) =>
    let (r, store) := s.store.upload bucket (some content) key
    (r, { s with store })

def download (s : Scene) (bucket key : String) : Except Storage.StoreError Bytes × Scene :=
  match (s.pass (s.slow key (·.download))).attempt .download with
  | (true, s) => (.error .io, s)
  | (false, s) => (s.store.download bucket key true, s)

def beginning : Instant where
  second := 0
  nano := 0
  nano_lt := by decide
  leap_ends_minute := by decide
  least_le := by decide
  le_greatest := by decide

def time (s : Scene) : Instant :=
  (Instant.ofSecond? (s.now / 1000 : Nat) (s.now % 1000 * 1000000)).getD beginning

def answer {α : Type} (c : Call α) (s : Scene) : α × Scene :=
  match c with
  | .clock => (s.now, s)
  | .time => (s.time, s)
  | .scratch _ => (s.script.hasScratch, s)
  | .log entry => ((), { s with journal := s.journal ++ [entry] })
  | .restBefore deadline span => s.passBefore deadline span
  | .engine e =>
    let (cue, s) := (s.note (some (.of c))).nextCue (operationOf e)
    (cue.answer e, s.pass cue.delay)
  | .engineBefore deadline e =>
    let (cue, s) := (s.note (some (.of c))).nextCue (operationOf e)
    match s.passBefore deadline cue.delay with
    | (true, s) => (some (cue.answer e), s)
    | (false, s) => (none, s)
  | .upload bucket key content => (s.note (some (.of c))).upload bucket key content
  | .download bucket key => (s.note (some (.of c))).download bucket key
  | .send event =>
    (s.note (some (.of c))).exchanging .send (·.publish s.responsesKey event.encode)
  | .acknowledge tag =>
    (s.note (some (.of c))).exchanging .acknowledge
      (·.settleDelivery consumerId tag .acknowledge)
  | .reject tag requeue =>
    (s.note (some (.of c))).exchanging .reject
      (·.settleDelivery consumerId tag (if requeue then .requeue else .bury))

def patience : Nat := 10000

def receive (s : Scene) : Option Queue.Delivery × Scene :=
  match s.exchange.settle.receive consumerId with
  | (.delivery d, exchange) => (some d, { s with exchange })
  | (_, exchange) => (none, { s with exchange })

def await (s : Scene) : Option Queue.Delivery × Scene :=
  match s.receive with
  | (some d, s) => (some d, s)
  | (none, s) => (s.pass patience).receive

/-- A container is looked at again after some time, or when the next cue is due. -/
def greatestLooks (s : Scene) : Nat :=
  s.config.runner.executionTimeout + s.config.runner.killGrace +
    (s.script.cues .inspect).length + (s.script.cues .logs).length + 2

def turn (s : Scene) : Scene :=
  match s.await with
  | (some d, s) => ((Worker.handle s.config s.greatestLooks d).run answer s).2
  | (none, s) => s.note none

def turns (s : Scene) : Nat → Scene
  | 0 => s
  | n + 1 => s.turn.turns n

end Scene
end SandboxWorker.Rehearsal
