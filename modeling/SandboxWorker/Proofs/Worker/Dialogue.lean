import SandboxWorker.Proofs.Worker.Chores
import SandboxWorker.Worker.Request
/-! What a worker says to its two queues while it handles one delivery. Everything else it does is
an aside; a run is a few queue calls with asides between them, and `Course` lists all the ways in
which work on a request can go. -/
namespace SandboxWorker.Worker
open Program
universe v

/-! ### Views of a run -/

def eventOf {γ : Type} : Call γ → Option ExecutionEvent
  | .send event => some event
  | _ => none

def isSent {γ : Type} : Call γ → γ → Bool
  | .send _, .ok () => true
  | _, _ => false

def attemptedBy (s : Step Call) : Option ExecutionEvent := eventOf s.call

def toldBy (s : Step Call) : Option ExecutionEvent :=
  if isSent s.call s.answer then eventOf s.call else none

def told (steps : List (Step Call)) : List ExecutionEvent := steps.filterMap toldBy

def attempted (steps : List (Step Call)) : List ExecutionEvent := steps.filterMap attemptedBy

def settles {γ : Type} : Call γ → Bool
  | .acknowledge _ | .reject .. => true
  | _ => false

def isSettlement (s : Step Call) : Bool := settles s.call

/-- The settlements that a run asked for, whatever came of them. -/
def settlements (steps : List (Step Call)) : List (Step Call) := steps.filter isSettlement

def isInspect {α : Type} : EngineCall α → Bool
  | .inspect _ => true
  | _ => false

def inspects {γ : Type} : Call γ → Bool
  | .engine c | .engineBefore _ c => isInspect c
  | _ => false

def isInspection (s : Step Call) : Bool := inspects s.call

def inspections (steps : List (Step Call)) : Nat := steps.countP isInspection

def Aside (s : Step Call) : Prop := attemptedBy s = none ∧ isSettlement s = false

def Asides (steps : List (Step Call)) : Prop := ∀ s ∈ steps, Aside s

@[simp] theorem told_append (a b : List (Step Call)) : told (a ++ b) = told a ++ told b :=
  List.filterMap_append

@[simp] theorem attempted_append (a b : List (Step Call)) :
    attempted (a ++ b) = attempted a ++ attempted b := List.filterMap_append

@[simp] theorem settlements_append (a b : List (Step Call)) :
    settlements (a ++ b) = settlements a ++ settlements b := List.filter_append ..

@[simp] theorem told_nil : told [] = [] := rfl

@[simp] theorem told_cons_sent (e : ExecutionEvent) (u : Unit) (steps : List (Step Call)) :
    told (⟨.send e, .ok u⟩ :: steps) = e :: told steps := rfl

@[simp] theorem told_cons_unsent (e : ExecutionEvent) (q : Queue.QueueError)
    (steps : List (Step Call)) : told (⟨.send e, .error q⟩ :: steps) = told steps := rfl

@[simp] theorem told_cons_acknowledge (tag : Nat) (answer : Except Queue.QueueError Unit)
    (steps : List (Step Call)) : told (⟨.acknowledge tag, answer⟩ :: steps) = told steps := rfl

@[simp] theorem told_cons_reject (tag : Nat) (requeue : Bool)
    (answer : Except Queue.QueueError Unit) (steps : List (Step Call)) :
    told (⟨.reject tag requeue, answer⟩ :: steps) = told steps := rfl

@[simp] theorem attempted_cons_send (e : ExecutionEvent) (answer : Except Queue.QueueError Unit)
    (steps : List (Step Call)) : attempted (⟨.send e, answer⟩ :: steps) = e :: attempted steps :=
  rfl

@[simp] theorem attempted_cons_acknowledge (tag : Nat) (answer : Except Queue.QueueError Unit)
    (steps : List (Step Call)) :
    attempted (⟨.acknowledge tag, answer⟩ :: steps) = attempted steps := rfl

@[simp] theorem attempted_cons_reject (tag : Nat) (requeue : Bool)
    (answer : Except Queue.QueueError Unit) (steps : List (Step Call)) :
    attempted (⟨.reject tag requeue, answer⟩ :: steps) = attempted steps := rfl

theorem inspections_cons (s : Step Call) (steps : List (Step Call)) :
    inspections (s :: steps) = inspections steps + if isInspection s then 1 else 0 :=
  List.countP_cons ..

@[simp] theorem inspections_append (a b : List (Step Call)) :
    inspections (a ++ b) = inspections a + inspections b := List.countP_append

theorem toldBy_eq_none_of_attemptedBy {s : Step Call} (h : attemptedBy s = none) :
    toldBy s = none := by
  unfold toldBy
  split
  · exact h
  · rfl

theorem aside_time (now : Instant) : Aside ⟨.time, now⟩ := ⟨rfl, rfl⟩

theorem aside_engine {α : Type} (c : EngineCall α) (answer : Except EngineError α) :
    Aside ⟨.engine c, answer⟩ := ⟨rfl, rfl⟩

theorem aside_log (entry : JournalEntry) : Aside ⟨.log entry, ()⟩ := ⟨rfl, rfl⟩

namespace Asides
variable {a b steps : List (Step Call)}

@[simp] theorem nil : Asides [] := fun _ h => (List.not_mem_nil h).elim

theorem cons {s : Step Call} (hs : Aside s) (h : Asides steps) : Asides (s :: steps) :=
  List.forall_mem_cons.mpr ⟨hs, h⟩

theorem append (ha : Asides a) (hb : Asides b) : Asides (a ++ b) := by
  intro s hs
  rcases List.mem_append.mp hs with hs | hs
  · exact ha s hs
  · exact hb s hs

@[simp] theorem attempted_eq (h : Asides steps) : attempted steps = [] :=
  List.filterMap_eq_nil_iff.mpr fun s hs => (h s hs).1

@[simp] theorem told_eq (h : Asides steps) : told steps = [] :=
  List.filterMap_eq_nil_iff.mpr fun s hs => toldBy_eq_none_of_attemptedBy (h s hs).1

@[simp] theorem settlements_eq (h : Asides steps) : settlements steps = [] :=
  List.filter_eq_nil_iff.mpr fun s hs => by simp [(h s hs).2]

theorem of_chores {bucket : String} {paths : LogsPath}
    (h : ∀ s ∈ steps, Chore bucket paths s) : Asides steps := by
  intro s hs
  cases h s hs <;> exact ⟨rfl, rfl⟩

end Asides

/-! ### Looking at a container -/

section Container
variable {r : ContainerRun} {steps : List (Step Call)}

theorem look_inspects {deadline : Nat} {cursor : Option Instant}
    {result : Option (Except Failure (Option Look))}
    (h : (look r deadline cursor).Runs steps result) : 1 ≤ inspections steps := by
  unfold look at h
  rw [Work.engineBefore_eq, Work.runs_once_bind] at h
  obtain ⟨answer, rest, rfl, -⟩ := h
  rw [inspections_cons]
  exact Nat.le_add_left _ _

theorem monitor_left {deadline looks : Nat} {cursor : Option Instant}
    (h : (monitor r deadline looks cursor).Runs steps none) : looks ≤ inspections steps := by
  induction looks generalizing cursor steps with
  | zero => exact Nat.zero_le _
  | succ looks ih =>
    rw [monitor, Work.runs_bind] at h
    rcases h with ⟨seen, first, second, rfl, hlook, h⟩ | ⟨e, he, -⟩ | ⟨-, hlook⟩
    · have hfirst := look_inspects hlook
      cases seen with
      | none => cases (Work.runs_pure.mp h).2
      | some seen =>
        dsimp only at h
        split at h
        · cases (Work.runs_pure.mp h).2
        · obtain ⟨rested, rest, rfl, hrested⟩ := Work.runs_ask_bind.mp h
          split at hrested
          · have hrest := ih hrested
            rw [inspections_append, inspections_cons]
            omega
          · cases (Work.runs_pure.mp hrested).2
    · cases he
    · exact ((look_chores r False deadline cursor).left_of_runs hlook).elim

theorem settle_left {deadline looks : Nat} (h : (settle r deadline looks).Runs steps none) :
    looks ≤ inspections steps := by
  induction looks generalizing steps with
  | zero => exact Nat.zero_le _
  | succ looks ih =>
    rw [settle, Work.engineBefore_eq, Work.runs_once_bind] at h
    obtain ⟨answer, rest, rfl, ⟨inspected, -, h⟩ | ⟨e, -, -, he⟩⟩ := h
    · cases inspected with
      | none => cases (Work.runs_pure.mp h).2
      | some inspected =>
        dsimp only at h
        split at h
        · cases (Work.runs_pure.mp h).2
        · obtain ⟨rested, rest, rfl, hrested⟩ := Work.runs_ask_bind.mp h
          split at hrested
          · have hrest := ih hrested
            rw [inspections_cons, inspections_cons]
            exact Nat.add_le_add hrest (Nat.le_refl 1)
          · cases (Work.runs_pure.mp hrested).2
    · cases he

end Container

/-- Work that is left only after this many looks at a container. -/
def LeftAfter {α : Type} (looks : Nat) (w : Work α) : Prop :=
  ∀ steps, w.Runs steps none → looks ≤ inspections steps

namespace LeftAfter
variable {α β : Type} {looks : Nat}

theorem of_within {P : Step Call → Prop} {w : Work α} (h : w.Within P False) : LeftAfter looks w :=
  fun _ hw => (h.left_of_runs hw).elim

theorem bind {w : Work α} {f : α → Work β} (hw : LeftAfter looks w)
    (hf : ∀ a, LeftAfter looks (f a)) : LeftAfter looks (w >>= f) := by
  intro steps h
  rcases Work.runs_bind.mp h with ⟨a, first, second, rfl, -, h⟩ | ⟨e, he, -⟩ | ⟨-, h⟩
  · rw [inspections_append]
    exact Nat.le_add_left_of_le (hf a second h)
  · cases he
  · exact hw steps h

theorem engine (c : EngineCall α) : LeftAfter looks (Work.engine c) := by
  have h : (Work.engine c).Within (fun _ => True) False := .engine fun _ => trivial
  exact of_within h

theorem ask (c : Call α) : LeftAfter looks (Work.ask c) := by
  have h : (Work.ask c).Within (fun _ => True) False := .ask fun _ => trivial
  exact of_within h

theorem pure (a : α) : LeftAfter looks (pure a) := by
  intro steps h
  cases (Work.runs_pure.mp h).2

theorem kill (r : ContainerRun) : LeftAfter looks (kill r looks) := by
  rw [kill_eq]
  refine .bind (.engine _) fun status => .bind ?_ fun _ => .bind (.ask _) fun now => ?_
  · split
    · exact .pure _
    · exact of_within (warn_chores r _ _ _)
  · refine .bind (fun _ => settle_left) fun settled => ?_
    cases settled with
    | none => exact .bind (of_within (warn_chores r _ _ _)) fun _ => .pure _
    | some exitCode => exact .pure _

theorem complete (r : ContainerRun) : LeftAfter looks (complete r looks) := by
  refine .bind (.ask _) fun now => .bind (fun _ => monitor_left) fun completion => ?_
  cases completion with
  | inTime exitCode => exact .pure _
  | timedOut cursor =>
    refine .bind (of_within (warn_chores r _ _ _)) fun _ => .bind (kill r) fun exitCode => ?_
    exact .bind (of_within (collectLogs_chores r _ cursor)) fun _ => .pure _

end LeftAfter

/-! ### Announcing -/

def verdictEvent (id : ExecutionId) (now : Instant) (inTime : Bool) (exitCode : Option Int64) :
    Except DomainError FinishedEvent :=
  FinishedEvent.new id now (Verdict.classify inTime exitCode).stage
    (exitCode.getD FinishedEvent.noExitCode) (Verdict.classify inTime exitCode).failureReason

/-- A verdict always makes an event: it fails exactly those executions it has a reason for. -/
theorem verdictEvent_ok (id : ExecutionId) (now : Instant) (inTime : Bool)
    (exitCode : Option Int64) : ∃ event, verdictEvent id now inTime exitCode = .ok event := by
  have hfinal : (Verdict.classify inTime exitCode).stage.isFinal = true := by
    unfold Verdict.classify
    split
    · rfl
    · split
      · split <;> rfl
      · rfl
  have hreason : (Verdict.classify inTime exitCode).failureReason = .none ↔
      (Verdict.classify inTime exitCode).stage = .completed := by
    unfold Verdict.classify
    split
    · simp [Verdict.failed]
    · split
      · split <;> simp [Verdict.failed]
      · simp [Verdict.failed]
  unfold verdictEvent FinishedEvent.new
  rw [dif_pos hfinal, dif_pos hreason]
  exact ⟨_, rfl⟩

theorem fields_of_verdictEvent {id : ExecutionId} {now : Instant} {inTime : Bool}
    {exitCode : Option Int64} {event : FinishedEvent}
    (h : verdictEvent id now inTime exitCode = .ok event) :
    event.id = id ∧ event.stage = (Verdict.classify inTime exitCode).stage ∧
      event.failureReason = (Verdict.classify inTime exitCode).failureReason ∧
      event.exitCode = exitCode.getD FinishedEvent.noExitCode := by
  unfold verdictEvent FinishedEvent.new at h
  split at h
  · split at h
    · cases h
      exact ⟨rfl, rfl, rfl, rfl⟩
    · split at h <;> cases h
  · cases h

/-- What could be sent next is this event: a container was just watched to its end, and the event is
the verdict on that. -/
def Outcome (config : WorkerConfig) (looks : Nat) (id : ExecutionId) (before : List (Step Call))
    (event : FinishedEvent) : Prop :=
  ∃ container early watched inTime exitCode now,
    before = early ++ watched ++ [⟨.time, now⟩] ∧
    (complete ⟨config, id, container⟩ looks).Runs watched (some (.ok (inTime, exitCode))) ∧
    verdictEvent id now inTime exitCode = .ok event

section Announcing
variable {steps : List (Step Call)} {id : ExecutionId}

theorem announce_runs {inTime : Bool} {exitCode : Option Int64}
    {result : Option (Except Failure Unit)} (h : (announce id inTime exitCode).Runs steps result) :
    ∃ now event answer after, steps = ⟨.time, now⟩ :: ⟨.send (.finished event), answer⟩ :: after ∧
      verdictEvent id now inTime exitCode = .ok event ∧ Asides after ∧
      result = some (answer.mapError .queue) := by
  obtain ⟨now, rest, rfl, hrest⟩ := Work.runs_ask_bind.mp h
  obtain ⟨event, hevent⟩ := verdictEvent_ok id now inTime exitCode
  have hnew := hevent
  unfold verdictEvent at hnew
  rw [hnew] at hrest
  change Work.Runs (Work.send (.finished event) >>= _) rest result at hrest
  rw [Work.send_eq, Work.runs_once_bind] at hrest
  obtain ⟨answer, after, rfl, ⟨_, hok, hlog⟩ | ⟨e, herror, rfl, rfl⟩⟩ := hrest
  · rw [Work.log_eq, Work.runs_once] at hlog
    obtain ⟨_, rfl, rfl⟩ := hlog
    exact ⟨now, event, answer, _, rfl, hevent, .cons (aside_log _) .nil, by rw [hok]⟩
  · exact ⟨now, event, answer, [], rfl, hevent, .nil, by rw [herror]⟩

end Announcing

theorem Outcome.append {config : WorkerConfig} {looks : Nat} {id : ExecutionId}
    {before : List (Step Call)} {event : FinishedEvent} (h : Outcome config looks id before event)
    (front : List (Step Call)) : Outcome config looks id (front ++ before) event := by
  obtain ⟨container, early, watched, inTime, exitCode, now, rfl, hwatched, hevent⟩ := h
  exact ⟨container, front ++ early, watched, inTime, exitCode, now, by simp, hwatched, hevent⟩

/-! ### Courses -/

section Courses
variable (config : WorkerConfig) (looks : Nat) (id : ExecutionId)

/-- How work goes once its start is announced: it breaks down, is left while a container is looked
at, or tells how the execution ended. -/
inductive Ending : List (Step Call) → Option (Except Failure Unit) → Prop where
  | broken {steps : List (Step Call)} (asides : Asides steps) (e : Failure) :
    Ending steps (some (.error e))
  | left {steps : List (Step Call)} (asides : Asides steps) (looked : looks ≤ inspections steps) :
    Ending steps none
  | announced {before after : List (Step Call)} {event : FinishedEvent}
    (outcome : Outcome config looks id before event) (asides : Asides before)
    (answer : Except Queue.QueueError Unit) (asides_after : Asides after) :
    Ending (before ++ ⟨.send (.finished event), answer⟩ :: after) (some (answer.mapError .queue))

/-- How work on a request goes. -/
inductive Course : List (Step Call) → Option (Except Failure Unit) → Prop where
  | unstarted {steps : List (Step Call)} (asides : Asides steps) (e : Failure) :
    Course steps (some (.error e))
  | unsent {before : List (Step Call)} (asides : Asides before) (now : Instant)
    (e : Queue.QueueError) :
    Course (before ++ [⟨.send (.started ⟨id, now, .forExecution id⟩), .error e⟩])
      (some (.error (.queue e)))
  | started {before after : List (Step Call)} {result : Option (Except Failure Unit)}
    (asides : Asides before) (now : Instant) (ending : Ending config looks id after result) :
    Course (before ++ ⟨.send (.started ⟨id, now, .forExecution id⟩), .ok ()⟩ :: after) result

variable {config looks id} {steps : List (Step Call)} {result : Option (Except Failure Unit)}

theorem Ending.append_left {front : List (Step Call)} (hfront : Asides front)
    (h : Ending config looks id steps result) : Ending config looks id (front ++ steps) result := by
  cases h with
  | broken asides e => exact .broken (hfront.append asides) e
  | left asides looked =>
    refine .left (hfront.append asides) ?_
    rw [inspections_append]
    exact Nat.le_add_left_of_le looked
  | announced outcome asides answer asides_after =>
    rw [← List.append_assoc]
    exact .announced (outcome.append front) (hfront.append asides) answer asides_after

theorem Ending.append_right {back : List (Step Call)} (hback : Asides back)
    (h : Ending config looks id steps result) : Ending config looks id (steps ++ back) result := by
  cases h with
  | broken asides e => exact .broken (asides.append hback) e
  | left asides looked =>
    refine .left (asides.append hback) ?_
    rw [inspections_append]
    exact Nat.le_add_right_of_le looked
  | announced outcome asides answer asides_after =>
    rw [List.append_assoc, List.cons_append]
    exact .announced outcome asides answer (asides_after.append hback)

theorem Ending.cons {s : Step Call} (hs : Aside s) (h : Ending config looks id steps result) :
    Ending config looks id (s :: steps) result :=
  h.append_left (.cons hs .nil)

theorem watched_ends {r : ContainerRun}
    (h : (do
      let (inTime, exitCode) ← complete r looks
      announce r.id inTime exitCode : Work Unit).Runs steps result) :
    Ending r.config looks r.id steps result := by
  rcases Work.runs_bind.mp h with ⟨⟨inTime, exitCode⟩, watched, second, rfl, hcomplete, h⟩ |
    ⟨e, rfl, hcomplete⟩ | ⟨rfl, hcomplete⟩
  all_goals have hwatched := Asides.of_chores ((complete_chores r looks).of_runs hcomplete)
  · obtain ⟨now, event, answer, after, rfl, hevent, hafter, rfl⟩ := announce_runs h
    have hnow : Asides [⟨.time, now⟩] := .cons (aside_time now) .nil
    have houtcome : Outcome r.config looks r.id (watched ++ [⟨.time, now⟩]) event :=
      ⟨r.container, [], watched, inTime, exitCode, now, rfl, hcomplete, hevent⟩
    rw [← List.singleton_append, ← List.append_assoc]
    exact .announced houtcome (hwatched.append hnow) answer hafter
  · exact .broken hwatched e
  · exact .left hwatched (LeftAfter.complete r steps hcomplete)

theorem runContainer_ends {r : ContainerRun} {archive : Bytes}
    (h : (runContainer r looks archive).Runs steps result) :
    Ending r.config looks r.id steps result := by
  unfold runContainer at h
  rw [Work.engine_eq, Work.runs_once_bind] at h
  obtain ⟨copied, rest, rfl, ⟨_, -, h⟩ | ⟨e, -, rfl, rfl⟩⟩ := h
  · refine .cons (aside_engine _ _) ?_
    obtain ⟨-, h⟩ | ⟨-, rfl, rfl⟩ := Work.runs_ensure_bind.mp h
    · rw [Work.engine_eq, Work.runs_once_bind] at h
      obtain ⟨started, rest, rfl, ⟨_, -, h⟩ | ⟨e, -, rfl, rfl⟩⟩ := h
      · refine .cons (aside_engine _ _) ?_
        obtain ⟨-, h⟩ | ⟨-, rfl, rfl⟩ := Work.runs_ensure_bind.mp h
        · exact watched_ends h
        · exact .broken .nil _
      · exact .cons (aside_engine _ _) (.broken .nil e)
    · exact .broken .nil _
  · exact .cons (aside_engine _ _) (.broken .nil e)

theorem removeContainer_runs {r : ContainerRun} (h : (removeContainer r).Runs steps result) :
    Asides steps ∧ result = some (.ok ()) := by
  refine ⟨.of_chores ((removeContainer_chores r False).of_runs h), ?_⟩
  obtain ⟨answer, rest, rfl, hrest⟩ := Work.runs_ask_bind.mp h
  split at hrest
  · split at hrest
    · exact (Work.runs_pure.mp hrest).2
    · obtain ⟨_, -, hresult⟩ := Work.runs_once.mp hrest
      exact hresult
  · obtain ⟨_, -, hresult⟩ := Work.runs_once.mp hrest
    exact hresult

theorem cleanedUp_ends {r : ContainerRun} {archive : Bytes}
    (h : (do
      let outcome ← ExceptT.lift (runContainer r looks archive).run
      removeContainer r
      ExceptT.mk (pure outcome) : Work Unit).Runs steps result) :
    Ending r.config looks r.id steps result := by
  rcases Work.runs_bind.mp h with ⟨outcome, first, second, rfl, hrun, hsecond⟩ | ⟨e, -, hrun⟩ |
    ⟨rfl, hrun⟩
  all_goals obtain ⟨inner, hinner, heq⟩ := Work.runs_lift.mp hrun
  · have hfirst : Ending r.config looks r.id first (some outcome) := by
      cases inner with
      | none => cases heq
      | some o =>
        cases heq
        exact runContainer_ends hinner
    rcases Work.runs_bind.mp hsecond with ⟨_, removal, last, rfl, hremove, hlast⟩ |
      ⟨e, -, hremove⟩ | ⟨-, hremove⟩
    all_goals obtain ⟨hasides, hok⟩ := removeContainer_runs hremove
    · obtain ⟨rfl, rfl⟩ := runs_done.mp hlast
      exact hfirst.append_right (hasides.append .nil)
    · cases hok
    · cases hok
  · cases inner <;> cases heq
  · cases inner with
    | none => exact runContainer_ends hinner
    | some o => cases heq

theorem Ending.of_bind {α : Type} {bucket : String} {paths : LogsPath} {w : Work α}
    {f : α → Work Unit} (hw : w.Within (Chore bucket paths) False)
    (hf : ∀ a second, (f a).Runs second result → Ending config looks id second result)
    (h : (w >>= f).Runs steps result) : Ending config looks id steps result := by
  rcases Work.runs_bind.mp h with ⟨a, first, second, rfl, hfirst, hsecond⟩ | ⟨e, rfl, hfirst⟩ |
    ⟨-, hfirst⟩
  · exact (hf a second hsecond).append_left (.of_chores (hw.of_runs hfirst))
  · exact .broken (.of_chores (hw.of_runs hfirst)) e
  · exact (hw.left_of_runs hfirst).elim

theorem process_course {request : RequestedEvent}
    (h : (process config looks request).Runs steps result) :
    Course config looks request.id steps result := by
  have hlogs := createLogs_chores config.storage.bucket (.forExecution request.id) False
  rcases Work.runs_bind.mp h with ⟨_, first, second, rfl, hfirst, hsecond⟩ | ⟨e, rfl, hfirst⟩ |
    ⟨-, hfirst⟩
  · obtain ⟨now, rest, rfl, hrest⟩ := Work.runs_ask_bind.mp hsecond
    have hasides := (Asides.of_chores (hlogs.of_runs hfirst)).append (.cons (aside_time now) .nil)
    rw [Work.send_eq, Work.runs_once_bind] at hrest
    rw [← List.singleton_append, ← List.append_assoc]
    obtain ⟨answer, rest, rfl, ⟨_, hok, hrest⟩ | ⟨e, herror, rfl, rfl⟩⟩ := hrest
    · cases Work.mapError_eq_ok.mp hok
      obtain ⟨rest, rfl, hwork⟩ := Work.runs_log_bind.mp hrest
      refine .started hasides now (.cons (aside_log _) ?_)
      refine .of_bind (stageSource_chores _ (.forExecution request.id) _ request) ?_ hwork
      intro archive second hsecond
      refine .of_bind (createContainer_chores config.storage.bucket (.forExecution request.id) _
        config _) ?_ hsecond
      intro container third hthird
      exact cleanedUp_ends hthird
    · obtain ⟨reason, rfl, rfl⟩ := Work.mapError_eq_error.mp herror
      exact .unsent hasides now reason
  · exact .unstarted (.of_chores (hlogs.of_runs hfirst)) e
  · exact (hlogs.left_of_runs hfirst).elim

end Courses

/-! ### Settling -/

def requestOf (content : String) : Option RequestedEvent :=
  match ExecutionEvent.decode content with
  | .ok (.requested request) => some request
  | _ => none

theorem handle_of_request {config : WorkerConfig} {looks : Nat} {d : Queue.Delivery}
    {request : RequestedEvent} (h : requestOf d.content = some request) :
    handle config looks d = (process config looks request).run >>= conclude d.tag request.id := by
  unfold requestOf at h
  split at h
  · cases h
    unfold handle
    rename_i hdecode
    rw [hdecode]
  · cases h

theorem handle_of_no_request (config : WorkerConfig) (looks : Nat) {d : Queue.Delivery}
    (h : requestOf d.content = none) :
    ∃ entry, handle config looks d = Program.ask (.log entry) >>= fun _ => reject d.tag := by
  unfold requestOf at h
  unfold handle
  split
  · rename_i hdecode
    rw [hdecode] at h
    cases h
  · exact ⟨_, rfl⟩
  · exact ⟨_, rfl⟩

def Entries (steps : List (Step Call)) : Prop := ∀ s ∈ steps, ∃ entry, s = ⟨.log entry, ()⟩

theorem Entries.asides {steps : List (Step Call)} (h : Entries steps) : Asides steps := by
  intro s hs
  obtain ⟨entry, rfl⟩ := h s hs
  exact aside_log entry

inductive Closing (tag : Nat) (id : ExecutionId) :
    Except Failure Unit → List (Step Call) → Prop where
  | acknowledged {after : List (Step Call)} (answer : Except Queue.QueueError Unit)
    (asides : Asides after) : Closing tag id (.ok ()) (⟨.acknowledge tag, answer⟩ :: after)
  | rejected {before middle after : List (Step Call)} (e : Failure) (asides : Asides before)
    (answer : Except Queue.QueueError Unit) (asides_middle : Asides middle) (now : Instant)
    (sent : Except Queue.QueueError Unit) (asides_after : Asides after) :
    Closing tag id (.error e) (before ++ ⟨.reject tag false, answer⟩ :: (middle ++
      ⟨.send (.finished (.internalError id now)), sent⟩ :: after))

section Settling
variable {tag : Nat} {steps : List (Step Call)} {result : Option Unit}

theorem log_runs {level : Level} {message : String} {fields : List (String × String)}
    (h : (log level message fields).Runs steps result) : Entries steps ∧ result = some () := by
  obtain ⟨_, rfl, rfl⟩ := runs_ask.mp h
  exact ⟨fun s hs => ⟨_, List.mem_singleton.mp hs⟩, rfl⟩

theorem complaint_runs {answer : Except Queue.QueueError Unit} {level : Level} {message : String}
    {fields : Queue.QueueError → List (String × String)}
    (h : (match answer with
      | .ok () => pure ()
      | .error e => log level message (fields e) : Program Call Unit).Runs steps result) :
    Entries steps ∧ result = some () := by
  cases answer with
  | ok a =>
    obtain ⟨rfl, rfl⟩ := runs_done.mp h
    exact ⟨by simp [Entries], rfl⟩
  | error e => exact log_runs h

theorem reject_runs (h : (reject tag).Runs steps result) :
    ∃ answer after, steps = ⟨.reject tag false, answer⟩ :: after ∧ Entries after ∧
      result = some () := by
  obtain ⟨answer, after, rfl, hafter⟩ := runs_call.mp h
  obtain ⟨hentries, hresult⟩ := complaint_runs hafter
  exact ⟨answer, after, rfl, hentries, hresult⟩

theorem conclude_closes {id : ExecutionId} {outcome : Except Failure Unit}
    (h : (conclude tag id outcome).Runs steps result) :
    Closing tag id outcome steps ∧ result = some () := by
  cases outcome with
  | ok a =>
    obtain ⟨answer, after, rfl, hafter⟩ := runs_call.mp h
    obtain ⟨hentries, hresult⟩ := complaint_runs hafter
    exact ⟨.acknowledged answer hentries.asides, hresult⟩
  | error e =>
    rcases runs_bind.mp h with ⟨_, before, rest, rfl, hlog, hrest⟩ | ⟨-, hlog⟩
    all_goals obtain ⟨hbefore, hlogged⟩ := log_runs hlog
    · rcases runs_bind.mp hrest with ⟨_, first, second, rfl, hreject, hsecond⟩ | ⟨-, hreject⟩
      all_goals obtain ⟨answer, middle, rfl, hmiddle, hrejected⟩ := reject_runs hreject
      · obtain ⟨now, rest, rfl, hsend⟩ := runs_ask_bind.mp hsecond
        obtain ⟨sent, after, rfl, hafter⟩ := runs_ask_bind.mp hsend
        obtain ⟨hentries, hresult⟩ := complaint_runs hafter
        have hmiddle := hmiddle.asides.append (.cons (aside_time now) .nil)
        have hclosing : Closing tag id (.error e) _ :=
          .rejected e hbefore.asides answer hmiddle now sent hentries.asides
        refine ⟨?_, hresult⟩
        simpa using hclosing
      · cases hrejected
    · cases hlogged

/-- Handling a request works on it and then settles its delivery, unless it is left at work. -/
theorem handle_runs {config : WorkerConfig} {looks : Nat} {d : Queue.Delivery}
    {request : RequestedEvent} (hd : requestOf d.content = some request)
    (h : (handle config looks d).Runs steps result) :
    (result = none ∧ Course config looks request.id steps none) ∨
    ∃ outcome course closing, result = some () ∧ steps = course ++ closing ∧
      Course config looks request.id course (some outcome) ∧
      Closing d.tag request.id outcome closing := by
  rw [handle_of_request hd] at h
  rcases runs_bind.mp h with ⟨outcome, course, closing, rfl, hprocess, hconclude⟩ |
    ⟨rfl, hprocess⟩
  · obtain ⟨hclosing, rfl⟩ := conclude_closes hconclude
    exact .inr ⟨outcome, course, closing, rfl, rfl, process_course hprocess, hclosing⟩
  · exact .inl ⟨rfl, process_course hprocess⟩

theorem handle_runs_of_no_request {config : WorkerConfig} {looks : Nat} {d : Queue.Delivery}
    (hd : requestOf d.content = none) (h : (handle config looks d).Runs steps result) :
    ∃ before answer after, steps = before ++ ⟨.reject d.tag false, answer⟩ :: after ∧
      Entries before ∧ Entries after ∧ result = some () := by
  obtain ⟨entry, heq⟩ := handle_of_no_request config looks hd
  rw [heq] at h
  obtain ⟨_, rest, rfl, hrest⟩ := runs_ask_bind.mp h
  obtain ⟨answer, after, rfl, hafter, hend⟩ := reject_runs hrest
  exact ⟨[⟨.log entry, ()⟩], answer, after, rfl, by simp [Entries], hafter, hend⟩

end Settling
end SandboxWorker.Worker
