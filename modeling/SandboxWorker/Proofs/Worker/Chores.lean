import SandboxWorker.Proofs.Worker.Work
import SandboxWorker.Worker.Request
/-! What work on a request asks for besides talking to the queues. Nothing but the three logs of the
execution is ever written, and only watching and settling a container may be left before their
end. -/
namespace SandboxWorker.Worker
open Program

def since? {γ : Type} : Call γ → Option (Option Instant)
  | .engine c | .engineBefore _ c =>
    match c with
    | .logs _ since => some since
    | _ => none
  | _ => none

def sinceOf (s : Step Call) : Option (Option Instant) := since? s.call

def isUpload {γ : Type} : Call γ → Bool
  | .upload .. => true
  | _ => false

/-- A step that has nothing to do with logs: it stores nothing and reads no output. -/
def Bystander (s : Step Call) : Prop := isUpload s.call = false ∧ sinceOf s = none

/-- A step that leaves the queues alone, and every object but the logs. -/
inductive Chore (bucket : String) (paths : LogsPath) : Step Call → Prop where
  | engine {α : Type} (c : EngineCall α) (answer : Except EngineError α) :
    Chore bucket paths ⟨.engine c, answer⟩
  | engineBefore {α : Type} (deadline : Nat) (c : EngineCall α)
    (answer : Option (Except EngineError α)) : Chore bucket paths ⟨.engineBefore deadline c, answer⟩
  | restBefore (deadline span : Nat) (rested : Bool) :
    Chore bucket paths ⟨.restBefore deadline span, rested⟩
  | clock (now : Nat) : Chore bucket paths ⟨.clock, now⟩
  | time (now : Instant) : Chore bucket paths ⟨.time, now⟩
  | scratch (label : String) (made : Bool) : Chore bucket paths ⟨.scratch label, made⟩
  | upload {key : String} (own : key ∈ paths.toList) (content : Bytes)
    (answer : Except Storage.StoreError Unit) :
    Chore bucket paths ⟨.upload bucket key content, answer⟩
  | download (key : String) (answer : Except Storage.StoreError Bytes) :
    Chore bucket paths ⟨.download bucket key, answer⟩
  | log (entry : JournalEntry) : Chore bucket paths ⟨.log entry, ()⟩

def Errand (bucket : String) (paths : LogsPath) (s : Step Call) : Prop :=
  Chore bucket paths s ∧ Bystander s

structure Serves (P : Step Call → Prop) : Prop where
  engine : ∀ {α : Type} (c : EngineCall α) (answer : Except EngineError α),
    since? (.engine c) = none → P ⟨.engine c, answer⟩
  engineBefore : ∀ {α : Type} (deadline : Nat) (c : EngineCall α)
    (answer : Option (Except EngineError α)), since? (.engineBefore deadline c) = none →
      P ⟨.engineBefore deadline c, answer⟩
  restBefore : ∀ deadline span rested, P ⟨.restBefore deadline span, rested⟩
  clock : ∀ now, P ⟨.clock, now⟩
  time : ∀ now, P ⟨.time, now⟩
  scratch : ∀ label made, P ⟨.scratch label, made⟩
  log : ∀ entry, P ⟨.log entry, ()⟩

structure Permits (P : Step Call → Prop) (bucket : String) (paths : LogsPath) : Prop
    extends Serves P where
  fetch : ∀ container since answer, P ⟨.engine (.logs container since), answer⟩
  fetchBefore : ∀ deadline container since answer,
    P ⟨.engineBefore deadline (.logs container since), answer⟩
  upload : ∀ key ∈ paths.toList, ∀ content answer, P ⟨.upload bucket key content, answer⟩
  download : ∀ key ∈ paths.toList, ∀ answer, P ⟨.download bucket key, answer⟩

theorem serves_errand (bucket : String) (paths : LogsPath) : Serves (Errand bucket paths) where
  engine _ _ hc := ⟨.engine _ _, rfl, hc⟩
  engineBefore _ _ _ hc := ⟨.engineBefore _ _ _, rfl, hc⟩
  restBefore _ _ _ := ⟨.restBefore _ _ _, rfl, rfl⟩
  clock _ := ⟨.clock _, rfl, rfl⟩
  time _ := ⟨.time _, rfl, rfl⟩
  scratch _ _ := ⟨.scratch _ _, rfl, rfl⟩
  log _ := ⟨.log _, rfl, rfl⟩

theorem permits_chore (bucket : String) (paths : LogsPath) :
    Permits (Chore bucket paths) bucket paths where
  engine _ _ _ := .engine _ _
  engineBefore _ _ _ _ := .engineBefore _ _ _
  restBefore _ _ _ := .restBefore _ _ _
  clock _ := .clock _
  time _ := .time _
  scratch _ _ := .scratch _ _
  log _ := .log _
  fetch _ _ _ := .engine _ _
  fetchBefore _ _ _ _ := .engineBefore _ _ _
  upload _ own _ _ := .upload own _ _
  download _ _ _ := .download _ _

theorem bystanders_of_errands {bucket : String} {paths : LogsPath} {left : Prop} {α : Type}
    {w : Work α} {steps : List (Step Call)} {result : Option (Except Failure α)}
    (hw : w.Within (Errand bucket paths) left) (h : w.Runs steps result) :
    ∀ s ∈ steps, Bystander s := by
  intro s hs
  exact (hw.of_runs h s hs).2

section Steps
variable {P : Step Call → Prop} {left : Prop}

theorem appendLogs_within (hscratch : ∀ label made, P ⟨.scratch label, made⟩)
    (hdownload : ∀ bucket key answer, P ⟨.download bucket key, answer⟩)
    (hupload : ∀ bucket key content answer, P ⟨.upload bucket key content, answer⟩)
    (bucket : String) (paths : LogsPath) (batch : LogBatch) :
    (appendLogs bucket paths batch).Within P left :=
  .forM fun _ _ => .bind (.scratch (hscratch _)) fun _ => .bind (.download (hdownload _ _))
    fun _ => .upload (hupload _ _ _)

theorem announce_within (htime : ∀ now, P ⟨.time, now⟩)
    (hsend : ∀ event answer, P ⟨.send event, answer⟩) (hlog : ∀ entry, P ⟨.log entry, ()⟩)
    (id : ExecutionId) (inTime : Bool) (exitCode : Option Int64) :
    (announce id inTime exitCode).Within P left := by
  refine .bind (.ask htime) fun now => .bind ?_ fun event => ?_
  · cases FinishedEvent.new id now _ _ _ with
    | ok event => exact .pure _
    | error e => exact .throw _
  · exact .bind (.send (hsend _)) fun _ => .log (hlog _)

theorem complaint_within (hlog : ∀ entry, P ⟨.log entry, ()⟩)
    (answer : Except Queue.QueueError Unit) (level : Level) (message : String)
    (fields : Queue.QueueError → List (String × String)) :
    (match answer with
      | .ok () => pure ()
      | .error e => log level message (fields e) : Program Call Unit).Within P left := by
  cases answer with
  | ok a => trivial
  | error e => exact fun _ => ⟨hlog _, trivial⟩

theorem reject_within (hreject : ∀ tag requeue answer, P ⟨.reject tag requeue, answer⟩)
    (hlog : ∀ entry, P ⟨.log entry, ()⟩) (tag : Nat) : (reject tag).Within P left :=
  fun answer => ⟨hreject _ _ _, complaint_within hlog answer _ _ _⟩

theorem conclude_within (htime : ∀ now, P ⟨.time, now⟩)
    (hsend : ∀ event answer, P ⟨.send event, answer⟩)
    (hacknowledge : ∀ tag answer, P ⟨.acknowledge tag, answer⟩)
    (hreject : ∀ tag requeue answer, P ⟨.reject tag requeue, answer⟩)
    (hlog : ∀ entry, P ⟨.log entry, ()⟩) (tag : Nat) (id : ExecutionId)
    (outcome : Except Failure Unit) : (conclude tag id outcome).Within P left := by
  cases outcome with
  | ok a => exact fun answer => ⟨hacknowledge _ _, complaint_within hlog answer _ _ _⟩
  | error e =>
    have hreport : ∀ now, (do
        match ← Program.ask (.send (.finished (.internalError id now))) with
        | .ok () => return ()
        | .error e =>
          log .warn "Failed to report internal error"
            [("execution_id", id.toString), ("error", e.message)] :
          Program Call Unit).Within P left :=
      fun now answer => ⟨hsend _ _, complaint_within hlog answer _ _ _⟩
    have hentry : ∀ level message fields, (log level message fields).Within P left :=
      fun _ _ _ _ => ⟨hlog _, trivial⟩
    exact Program.Within.bind (hentry _ _ _) fun _ =>
      Program.Within.bind (reject_within hreject hlog tag) fun _ now => ⟨htime now, hreport now⟩

end Steps

/-! ### The parts of the work -/

theorem key_mem_of_additions (paths : LogsPath) {key text : String} {batch : LogBatch}
    (h : (key, text) ∈ additions paths batch) : key ∈ paths.toList := by
  unfold additions at h
  split at h
  · cases h
  · have hmem := (List.mem_filter.mp h).1
    simp only [List.mem_cons, List.not_mem_nil, or_false, Prod.mk.injEq] at hmem
    rcases hmem with ⟨rfl, -⟩ | ⟨rfl, -⟩ | ⟨rfl, -⟩ <;> simp [LogsPath.toList]

/-- A kill that was refused is reported, and settling goes on as after any other. -/
theorem kill_eq (r : ContainerRun) (looks : Nat) : kill r looks = (do
    let status ← Work.engine (.kill r.container)
    (if isSuccess status then pure ()
      else r.warn "Kill refused" [("status", toString status)] : Work Unit)
    let now ← Work.ask .clock
    match ← settle r (now + r.config.runner.killGrace) looks with
    | some exitCode => return exitCode
    | none =>
      r.warn "Killed container did not settle" []
      return none) := by
  unfold kill
  congr 1
  funext status
  cases isSuccess status with
  | true => rfl
  | false => rfl

namespace Serves
variable {P : Step Call → Prop} {left : Prop} (h : Serves P) (r : ContainerRun)
include h

theorem stageSource {bucket : String} {request : RequestedEvent}
    (hsource : ∀ answer, P ⟨.download bucket request.sourceCodePath, answer⟩) :
    (stageSource bucket request).Within P left := by
  refine .bind (.scratch (h.scratch _)) fun _ => .bind (.download hsource) fun content => ?_
  refine .bind (.scratch (h.scratch _)) fun _ => .bind (.ask h.time) fun modified => ?_
  split
  · exact .pure _
  · exact .throw _

theorem createContainer (config : WorkerConfig) (fileName : String) :
    (createContainer config fileName).Within P left := by
  refine .bind (.engine fun _ => h.engine _ _ rfl) fun created => .bind (.ensure _ _) fun _ => ?_
  split
  · exact .pure _
  · exact .throw _

theorem warn (message : String) (more : List (String × String)) :
    (r.warn message more).Within P left := .log (h.log _)

theorem settle (deadline looks : Nat) : (settle r deadline looks).Within P True := by
  induction looks with
  | zero => trivial
  | succ looks ih =>
    refine .bind (.engineBefore fun _ => h.engineBefore _ _ _ rfl) fun inspected => ?_
    cases inspected with
    | none => exact .pure _
    | some inspected =>
      dsimp only
      split
      · exact .pure _
      · refine .bind (.ask (h.restBefore _ _)) fun rested => ?_
        split
        · exact ih
        · exact .pure _

theorem kill (looks : Nat) : (kill r looks).Within P True := by
  rw [kill_eq]
  refine .bind (.engine fun _ => h.engine _ _ rfl) fun status => .bind ?_ fun _ => ?_
  · split
    · exact .pure _
    · exact h.warn r _ _
  · refine .bind (.ask h.clock) fun now => .bind (h.settle r _ looks) fun settled => ?_
    cases settled with
    | none => exact .bind (h.warn r _ _) fun _ => .pure _
    | some exitCode => exact .pure _

theorem removeContainer : (removeContainer r).Within P left := by
  refine .bind (.ask fun _ => h.engine _ _ rfl) fun removed => ?_
  split
  · split
    · exact .pure _
    · exact h.warn r _ _
  · exact h.warn r _ _

end Serves

namespace Permits
variable {P : Step Call → Prop} {left : Prop}

theorem createLogs {bucket : String} {paths : LogsPath} (h : Permits P bucket paths) :
    (createLogs bucket paths).Within P left := by
  refine .bind (.scratch (h.scratch _)) fun _ => .forM fun key own => ?_
  exact .upload (h.upload key own _)

theorem appendLogs {bucket : String} {paths : LogsPath} (h : Permits P bucket paths)
    (batch : LogBatch) : (appendLogs bucket paths batch).Within P left := by
  refine .forM fun addition hmem => .bind (.scratch (h.scratch _)) fun _ => ?_
  have own := key_mem_of_additions paths hmem
  exact .bind (.download (h.download _ own)) fun content => .upload (h.upload _ own _)

variable {r : ContainerRun} (h : Permits P r.bucket r.paths)
include h

theorem look (deadline : Nat) (cursor : Option Instant) :
    (look r deadline cursor).Within P left := by
  refine .bind (.engineBefore fun _ => h.engineBefore _ _ _ rfl) fun inspected => ?_
  cases inspected with
  | none => exact .pure _
  | some inspected =>
    dsimp only
    split
    · exact .throw _
    · refine .bind (.engineBefore (h.fetchBefore _ _ _)) fun fetched => ?_
      cases fetched with
      | none => exact .pure _
      | some fetched =>
        dsimp only
        split
        · exact .bind (h.appendLogs _) fun _ => .pure _
        · split
          · exact .pure _
          · exact .throw _

theorem monitor (deadline looks : Nat) (cursor : Option Instant) :
    (monitor r deadline looks cursor).Within P True := by
  induction looks generalizing cursor with
  | zero => trivial
  | succ looks ih =>
    refine .bind (h.look deadline cursor) fun seen => ?_
    cases seen with
    | none => exact .pure _
    | some seen =>
      dsimp only
      split
      · exact .pure _
      · refine .bind (.ask (h.restBefore _ _)) fun rested => ?_
        split
        · exact ih _
        · exact .pure _

theorem collectLogs (cursor : Option Instant) : (collectLogs r cursor).Within P left := by
  refine .bind (.engine (h.fetch _ _)) fun fetched => ?_
  split
  · exact h.appendLogs _
  · exact h.warn r _ _

theorem complete (looks : Nat) : (complete r looks).Within P True := by
  refine .bind (.ask h.clock) fun now => .bind (h.monitor _ looks none) fun completion => ?_
  cases completion with
  | inTime exitCode => exact .pure _
  | timedOut cursor =>
    refine .bind (h.warn r _ _) fun _ => .bind (h.kill r looks) fun exitCode => ?_
    exact .bind (h.collectLogs cursor) fun _ => .pure _

end Permits

/-! ### Chores and errands -/

section Files
variable (bucket : String) (paths : LogsPath) (left : Prop)

theorem createLogs_chores : (createLogs bucket paths).Within (Chore bucket paths) left :=
  (permits_chore bucket paths).createLogs

theorem stageSource_errands (request : RequestedEvent) :
    (stageSource bucket request).Within (Errand bucket paths) left :=
  (serves_errand bucket paths).stageSource fun _ => ⟨.download _ _, rfl, rfl⟩

theorem stageSource_chores (request : RequestedEvent) :
    (stageSource bucket request).Within (Chore bucket paths) left :=
  (permits_chore bucket paths).stageSource fun _ => .download _ _

theorem createContainer_errands (config : WorkerConfig) (fileName : String) :
    (createContainer config fileName).Within (Errand bucket paths) left :=
  (serves_errand bucket paths).createContainer config fileName

theorem createContainer_chores (config : WorkerConfig) (fileName : String) :
    (createContainer config fileName).Within (Chore bucket paths) left :=
  (permits_chore bucket paths).createContainer config fileName

end Files

section Container
variable (r : ContainerRun) (left : Prop)

theorem warn_errands (message : String) (more : List (String × String)) :
    (r.warn message more).Within (Errand r.bucket r.paths) left :=
  (serves_errand _ _).warn r message more

theorem warn_chores (message : String) (more : List (String × String)) :
    (r.warn message more).Within (Chore r.bucket r.paths) left :=
  (permits_chore _ _).warn r message more

theorem look_chores (deadline : Nat) (cursor : Option Instant) :
    (look r deadline cursor).Within (Chore r.bucket r.paths) left :=
  (permits_chore _ _).look deadline cursor

theorem kill_errands (looks : Nat) : (kill r looks).Within (Errand r.bucket r.paths) True :=
  (serves_errand _ _).kill r looks

theorem collectLogs_chores (cursor : Option Instant) :
    (collectLogs r cursor).Within (Chore r.bucket r.paths) left :=
  (permits_chore _ _).collectLogs cursor

theorem complete_chores (looks : Nat) :
    (complete r looks).Within (Chore r.bucket r.paths) True :=
  (permits_chore _ _).complete looks

theorem removeContainer_errands : (removeContainer r).Within (Errand r.bucket r.paths) left :=
  (serves_errand _ _).removeContainer r

theorem removeContainer_chores : (removeContainer r).Within (Chore r.bucket r.paths) left :=
  (permits_chore _ _).removeContainer r

end Container
end SandboxWorker.Worker
