import SandboxWorker.Proofs.Worker.Histories
import SandboxWorker.Proofs.Worker.Reporting
/-! The order in which a worker talks to the engine. A container is made once its request was
announced and its source staged, then filled, started, watched, killed if it outlives its deadline,
and removed in the end whatever went wrong before. -/
namespace SandboxWorker

namespace EngineCall
variable {α : Type}

def isCreate : EngineCall α → Bool
  | .create _ => true
  | _ => false

def isStart : EngineCall α → Bool
  | .start _ => true
  | _ => false

def isKill : EngineCall α → Bool
  | .kill _ => true
  | _ => false

def isRemove : EngineCall α → Bool
  | .remove _ => true
  | _ => false

theorem only_create {c : EngineCall α} (h : c.isCreate = true) :
    c.isStart = false ∧ c.isKill = false ∧ c.isRemove = false := by
  cases c with
  | create params => exact ⟨rfl, rfl, rfl⟩
  | _ => cases h

def container? : EngineCall α → Option String
  | .ping | .create _ => none
  | .start id | .copy id _ _ | .logs id _ | .inspect id | .kill id | .remove id => some id

end EngineCall

namespace Worker
open Program
universe v

/-! ### What the engine was asked -/

/-- A call to the engine with its answer; none if a deadline cut it off. -/
structure Exchange where
  {α : Type}
  call : EngineCall α
  answer : Option (Except EngineError α)

def exchange? {γ : Type} : Call γ → γ → Option Exchange
  | .engine c, answer => some ⟨c, some answer⟩
  | .engineBefore _ c, answer => some ⟨c, answer⟩
  | _, _ => none

def exchangeOf (s : Step Call) : Option Exchange := exchange? s.call s.answer

def exchanges (steps : List (Step Call)) : List Exchange := steps.filterMap exchangeOf

def Exchange.made? : Exchange → Option String
  | ⟨.create _, some (.ok reply)⟩ => if isSuccess reply.status then reply.containerId else none
  | _ => none

def made? (steps : List (Step Call)) : Option String := (exchanges steps).findSome? Exchange.made?

def cut? {γ : Type} : Call γ → γ → Option Nat
  | .engineBefore deadline _, none => some deadline
  | .restBefore deadline _, false => some deadline
  | _, _ => none

def cutAt (s : Step Call) : Option Nat := cut? s.call s.answer

@[simp] theorem exchanges_nil : exchanges [] = [] := rfl

@[simp] theorem exchanges_append (a b : List (Step Call)) :
    exchanges (a ++ b) = exchanges a ++ exchanges b := List.filterMap_append

@[simp] theorem exchanges_engine {α : Type} (c : EngineCall α) (answer : Except EngineError α) :
    exchanges [⟨.engine c, answer⟩] = [⟨c, some answer⟩] := rfl

@[simp] theorem exchanges_engineBefore {α : Type} (deadline : Nat) (c : EngineCall α)
    (answer : Option (Except EngineError α)) :
    exchanges [⟨.engineBefore deadline c, answer⟩] = [⟨c, answer⟩] := rfl

theorem mem_exchanges_engine {α : Type} (past : List (Step Call)) (c : EngineCall α)
    (answer : Except EngineError α) :
    ⟨c, some answer⟩ ∈ exchanges (past ++ [⟨.engine c, answer⟩]) := by
  rw [exchanges_append]
  exact List.mem_append_right _ List.mem_cons_self

theorem made?_append {a b : List (Step Call)} {c : String} (h : made? a = some c) :
    made? (a ++ b) = some c := by
  rw [made?, exchanges_append, List.findSome?_append, ← made?, h]
  rfl

def Quiet (s : Step Call) : Prop := exchangeOf s = none

theorem exchanges_of_quiet {steps : List (Step Call)} (h : ∀ s ∈ steps, Quiet s) :
    exchanges steps = [] :=
  List.filterMap_eq_nil_iff.mpr h

theorem exchanges_append_quiet {a b : List (Step Call)} (h : ∀ s ∈ b, Quiet s) :
    exchanges (a ++ b) = exchanges a := by
  rw [exchanges_append, exchanges_of_quiet h, List.append_nil]

/-! ### What may be asked -/

/-- The start of a request got across, and after that its source was fetched and packed. -/
def Staged (bucket : String) (request : RequestedEvent) (past : List (Step Call)) : Prop :=
  ∃ (early late : List (Step Call)) (now modified : Instant) (content archive : Bytes),
    past = early ++ ⟨.send (.started ⟨request.id, now, .forExecution request.id⟩), .ok ()⟩ :: late ∧
    ⟨.download bucket request.sourceCodePath, .ok content⟩ ∈ late ∧ ⟨.time, modified⟩ ∈ late ∧
    Archive.packFile (fileNameOf request.sourceCodePath) content modified.second.toNat =
      some archive

/-- A container was made and not removed. -/
structure Held (c : String) (past : List (Step Call)) : Prop where
  made : made? past = some c
  kept : ∀ x ∈ exchanges past, x.call.isRemove = false

def Copied (c : String) (past : List (Step Call)) : Prop :=
  ∃ archive destination status, ⟨.copy c archive destination, some (.ok status)⟩ ∈ exchanges past ∧
    isSuccess status = true

def Started (c : String) (past : List (Step Call)) : Prop :=
  ∃ status, ⟨.start c, some (.ok status)⟩ ∈ exchanges past ∧ isSuccess status = true

/-- The time for an execution, counted from a reading of the clock, ran out on a step after it, and
the engine was asked nothing more. -/
def Overdue (config : WorkerConfig) (past : List (Step Call)) : Prop :=
  ∃ early now watched s rest, past = early ++ ⟨.clock, now⟩ :: (watched ++ s :: rest) ∧
    cutAt s = some (now + config.runner.executionTimeout) ∧ exchanges rest = []

section Protocol
variable (config : WorkerConfig) (request : RequestedEvent)

/-- What may be asked of the engine after these steps of work on a request. -/
def Permitted (past : List (Step Call)) {α : Type} : EngineCall α → Prop
  | .ping => False
  | .create _ => exchanges past = [] ∧ Staged config.storage.bucket request past
  | .copy c _ _ => Held c past ∧ ∀ x ∈ exchanges past, x.call.isCreate = true
  | .start c => Held c past ∧ Copied c past ∧ ∀ x ∈ exchanges past, x.call.isStart = false
  | .inspect c | .logs c _ => Held c past ∧ Started c past
  | .kill c => Held c past ∧ Started c past ∧ Overdue config past ∧
      ∀ x ∈ exchanges past, x.call.isKill = false
  | .remove c => Held c past

def InOrder (past : List (Step Call)) (s : Step Call) : Prop :=
  ∀ x, exchangeOf s = some x → Permitted config request past x.call

variable {config request} {past : List (Step Call)}

theorem InOrder.engine {α : Type} {c : EngineCall α} {answer : Except EngineError α}
    (h : Permitted config request past c) : InOrder config request past ⟨.engine c, answer⟩ := by
  rintro x ⟨⟩
  exact h

theorem InOrder.engineBefore {α : Type} {deadline : Nat} {c : EngineCall α}
    {answer : Option (Except EngineError α)} (h : Permitted config request past c) :
    InOrder config request past ⟨.engineBefore deadline c, answer⟩ := by
  rintro x ⟨⟩
  exact h

theorem InOrder.of_quiet {s : Step Call} (h : Quiet s) : InOrder config request past s := by
  intro x hx
  rw [h] at hx
  cases hx

end Protocol

/-! ### What work leaves alone -/

section Quiet
variable {bucket : String} {left : Prop}

theorem createLogs_quiet (paths : LogsPath) : (createLogs bucket paths).Within Quiet left :=
  .bind (.scratch fun _ => rfl) fun _ => .forM fun _ _ => .upload fun _ => rfl

theorem appendLogs_quiet (paths : LogsPath) (batch : LogBatch) :
    (appendLogs bucket paths batch).Within Quiet left :=
  appendLogs_within (fun _ _ => rfl) (fun _ _ _ => rfl) (fun _ _ _ _ => rfl) bucket paths batch

theorem stageSource_quiet (request : RequestedEvent) :
    (stageSource bucket request).Within Quiet left := by
  refine .bind (.scratch fun _ => rfl) fun _ => .bind (.download fun _ => rfl) fun content => ?_
  refine .bind (.scratch fun _ => rfl) fun _ => .bind (.ask fun _ => rfl) fun modified => ?_
  split
  · exact .pure _
  · exact .throw _

theorem announce_quiet (id : ExecutionId) (inTime : Bool) (exitCode : Option Int64) :
    (announce id inTime exitCode).Within Quiet left :=
  announce_within (fun _ => rfl) (fun _ _ => rfl) (fun _ => rfl) id inTime exitCode

theorem conclude_quiet (tag : Nat) (id : ExecutionId) (outcome : Except Failure Unit) :
    (conclude tag id outcome).Within Quiet left :=
  conclude_within (fun _ => rfl) (fun _ _ => rfl) (fun _ _ => rfl) (fun _ _ _ => rfl) (fun _ => rfl)
    tag id outcome

end Quiet

/-! ### From the making of a container to its removal -/

section Histories
variable {c : String} {past more : List (Step Call)}

theorem Held.append (h : Held c past) (hmore : ∀ x ∈ exchanges more, x.call.isRemove = false) :
    Held c (past ++ more) where
  made := made?_append h.made
  kept := by
    rw [exchanges_append]
    exact List.forall_mem_append.mpr ⟨h.kept, hmore⟩

theorem Staged.append {bucket : String} {request : RequestedEvent}
    (h : Staged bucket request past) :
    Staged bucket request (past ++ more) := by
  obtain ⟨early, late, now, modified, content, archive, rfl, hfetched, htime, hpacked⟩ := h
  exact ⟨early, late ++ more, now, modified, content, archive, by simp,
    List.mem_append_left _ hfetched, List.mem_append_left _ htime, hpacked⟩

theorem Held.append_quiet (h : Held c past) (hmore : ∀ s ∈ more, Quiet s) :
    Held c (past ++ more) :=
  h.append (by simp [exchanges_of_quiet hmore])

theorem Copied.append (h : Copied c past) : Copied c (past ++ more) := by
  obtain ⟨archive, destination, status, hmem, hsuccess⟩ := h
  refine ⟨archive, destination, status, ?_, hsuccess⟩
  rw [exchanges_append]
  exact List.mem_append_left _ hmem

theorem Started.append (h : Started c past) : Started c (past ++ more) := by
  obtain ⟨status, hmem, hsuccess⟩ := h
  refine ⟨status, ?_, hsuccess⟩
  rw [exchanges_append]
  exact List.mem_append_left _ hmem

structure Running (c : String) (past : List (Step Call)) : Prop where
  held : Held c past
  started : Started c past

theorem Running.append (h : Running c past)
    (hmore : ∀ x ∈ exchanges more, x.call.isRemove = false) : Running c (past ++ more) :=
  ⟨h.held.append hmore, h.started.append⟩

structure Filled (c : String) (past : List (Step Call)) : Prop where
  held : Held c past
  copied : Copied c past
  asleep : ∀ x ∈ exchanges past, x.call.isStart = false ∧ x.call.isKill = false

structure Watching (c : String) (past : List (Step Call)) : Prop extends Running c past where
  alive : ∀ x ∈ exchanges past, x.call.isKill = false

theorem Watching.append (h : Watching c past)
    (hmore : ∀ x ∈ exchanges more, x.call.isRemove = false ∧ x.call.isKill = false) :
    Watching c (past ++ more) where
  toRunning := h.toRunning.append fun x hx => (hmore x hx).1
  alive := by
    rw [exchanges_append]
    exact List.forall_mem_append.mpr ⟨h.alive, fun x hx => (hmore x hx).2⟩

theorem Watching.append_quiet (h : Watching c past) (hmore : ∀ s ∈ more, Quiet s) :
    Watching c (past ++ more) :=
  h.append (by simp [exchanges_of_quiet hmore])

structure Fresh (c : String) (past : List (Step Call)) : Prop where
  made : made? past = some c
  only : ∀ x ∈ exchanges past, x.call.isCreate = true

theorem Fresh.held (h : Fresh c past) : Held c past :=
  ⟨h.made, fun x hx => (EngineCall.only_create (h.only x hx)).2.2⟩

def Refused (past : List (Step Call)) : Prop :=
  (∃ params answer, exchanges past = [⟨.create params, some answer⟩]) ∧ made? past = none

/-- The container that was made was removed once, and the engine was asked nothing more. -/
def Removed (c : String) (past : List (Step Call)) : Prop :=
  made? past = some c ∧ ∃ front answer, exchanges past = front ++ [⟨.remove c, some answer⟩] ∧
    ∀ x ∈ front, x.call.isRemove = false

def Closed (past : List (Step Call)) : Prop :=
  exchanges past = [] ∨ Refused past ∨ ∃ c, Removed c past

theorem Removed.append_quiet (h : Removed c past) (hmore : ∀ s ∈ more, Quiet s) :
    Removed c (past ++ more) := by
  obtain ⟨hmade, hremoved⟩ := h
  refine ⟨made?_append hmade, ?_⟩
  rw [exchanges_append_quiet hmore]
  exact hremoved

theorem Closed.append_quiet (h : Closed past) (hmore : ∀ s ∈ more, Quiet s) :
    Closed (past ++ more) := by
  unfold Closed Refused Removed made?
  rw [exchanges_append_quiet hmore]
  exact h

def CutLast (deadline : Nat) (past now : List (Step Call)) : Prop :=
  ∃ watched s, now = past ++ (watched ++ [s]) ∧ cutAt s = some deadline

theorem CutLast.earlier {deadline : Nat} {middle now : List (Step Call)}
    (h : CutLast deadline middle now) (hpast : past <+: middle) : CutLast deadline past now := by
  obtain ⟨watched, s, rfl, hcut⟩ := h
  obtain ⟨first, rfl⟩ := hpast
  exact ⟨first ++ watched, s, by simp, hcut⟩

theorem CutLast.overdue {config : WorkerConfig} {time : Nat} {now : List (Step Call)}
    (h : CutLast (time + config.runner.executionTimeout) (past ++ [⟨.clock, time⟩]) now)
    (hmore : exchanges more = []) : Overdue config (now ++ more) := by
  obtain ⟨watched, s, rfl, hs⟩ := h
  exact ⟨past, time, watched, s, more, by simp, hs, hmore⟩

end Histories

section Container
variable {r : ContainerRun} {request : RequestedEvent} {past : List (Step Call)}

theorem appendLogs_obeys (h : Watching r.container past) (batch : LogBatch) :
    (appendLogs r.bucket r.paths batch).Obeys (InOrder r.config request) (Held r.container)
      (Held r.container) (fun _ now => Watching r.container now ∧ past <+: now) past := by
  refine .of_within (appendLogs_quiet _ _) (fun _ _ => .of_quiet) (fun _ more _ hmore => ?_) ?_
  · exact ⟨h.append_quiet hmore, past.prefix_append more⟩
  · exact fun more hmore => (h.append_quiet hmore).held

theorem look_obeys (h : Watching r.container past) (deadline : Nat) (cursor : Option Instant) :
    (look r deadline cursor).Obeys (InOrder r.config request) (Held r.container)
      (Held r.container) (fun seen now => Watching r.container now ∧
        match seen with
        | none => CutLast deadline past now
        | some _ => past <+: now) past := by
  have hinspected : ∀ answer, Watching r.container
      (past ++ [⟨.engineBefore deadline (.inspect r.container), answer⟩]) :=
    fun answer => h.append (by simp [EngineCall.isRemove, EngineCall.isKill])
  have hfetched : ∀ inspected answer, Watching r.container
      (past ++ [⟨.engineBefore deadline (.inspect r.container), inspected⟩] ++
        [⟨.engineBefore deadline (.logs r.container cursor), answer⟩]) :=
    fun inspected answer => (hinspected inspected).append
      (by simp [EngineCall.isRemove, EngineCall.isKill])
  unfold look
  refine .bind (.engineBefore ?_ ?_ ?_ ?_) fun _ _ hnext => hnext
  · exact fun _ => .engineBefore ⟨h.held, h.started⟩
  · exact .pure ⟨hinspected none, [], _, rfl, rfl⟩
  · intro inspected
    dsimp only
    split
    · exact .throw (hinspected _).held
    · rename_i status _
      refine .bind (.engineBefore ?_ ?_ ?_ ?_) fun _ _ hnext => hnext
      · exact fun _ => .engineBefore ⟨(hinspected _).held, (hinspected _).started⟩
      · exact .pure ⟨hfetched _ none, [_], _, List.append_assoc .., rfl⟩
      · intro fetched
        have hpast := past.prefix_append [⟨.engineBefore deadline (.inspect r.container),
          some (.ok inspected)⟩, ⟨.engineBefore deadline (.logs r.container cursor),
          some (.ok fetched)⟩]
        have hnow := hfetched (some (.ok inspected)) (some (.ok fetched))
        rw [List.append_assoc] at hnow ⊢
        dsimp only
        split
        · refine .bind (appendLogs_obeys hnow _) fun _ now ⟨hnow, hmore⟩ => ?_
          exact .pure ⟨hnow, hpast.trans hmore⟩
        · split
          · exact .pure ⟨hnow, hpast⟩
          · exact .throw hnow.held
      · exact fun e => (hfetched _ _).held
  · exact fun e => (hinspected _).held

theorem monitor_obeys (h : Watching r.container past) (deadline looks : Nat)
    (cursor : Option Instant) :
    (monitor r deadline looks cursor).Obeys (InOrder r.config request) (Held r.container)
      (Held r.container) (fun completion now => Watching r.container now ∧
        ∀ cursor, completion = .timedOut cursor → CutLast deadline past now) past := by
  induction looks generalizing past cursor with
  | zero => exact .unfinished h.held
  | succ looks ih =>
    rw [monitor]
    refine .bind (look_obeys h deadline cursor) fun seen now hlooked => ?_
    obtain ⟨hnow, hseen⟩ := hlooked
    cases seen with
    | none => exact .pure ⟨hnow, fun _ _ => hseen⟩
    | some seen =>
      dsimp only
      split
      · exact .pure ⟨hnow, fun _ heq => by cases heq⟩
      · refine .bind (.ask fun rested => ?_) fun _ _ hnext => hnext
        refine ⟨.of_quiet rfl, ?_⟩
        have hrested : Watching r.container
            (now ++ [⟨.restBefore deadline r.interval, rested⟩]) :=
          hnow.append fun _ hx => by cases hx
        cases rested with
        | true =>
          refine (ih hrested seen.cursor).mono (fun _ h => h) (fun _ h => h) ?_
          rintro completion last ⟨hlast, hcut⟩
          exact ⟨hlast, fun cursor heq =>
            (hcut cursor heq).earlier (hseen.trans (now.prefix_append _))⟩
        | false =>
          refine .pure ⟨hrested, fun _ _ => ?_⟩
          exact CutLast.earlier ⟨[], _, rfl, rfl⟩ hseen

theorem settle_obeys (h : Running r.container past) (deadline looks : Nat) :
    (settle r deadline looks).Obeys (InOrder r.config request) (Held r.container)
      (Held r.container) (fun _ now => Running r.container now) past := by
  induction looks generalizing past with
  | zero => exact .unfinished h.held
  | succ looks ih =>
    have hinspected : ∀ answer, Running r.container
        (past ++ [⟨.engineBefore deadline (.inspect r.container), answer⟩]) :=
      fun answer => h.append (by simp [EngineCall.isRemove])
    rw [settle]
    refine .bind (.engineBefore ?_ ?_ ?_ ?_) fun _ _ hnext => hnext
    · exact fun _ => .engineBefore ⟨h.held, h.started⟩
    · exact .pure (hinspected none)
    · intro inspected
      dsimp only
      split
      · exact .pure (hinspected _)
      · refine .bind (.ask fun rested => ⟨.of_quiet rfl, ?_⟩) fun _ _ hnext => hnext
        have hrested : Running r.container
            (past ++ [⟨.engineBefore deadline (.inspect r.container), some (.ok inspected)⟩] ++
              [⟨.restBefore deadline r.interval, rested⟩]) :=
          (hinspected _).append fun _ hx => by cases hx
        cases rested with
        | true => exact ih hrested
        | false => exact .pure hrested
    · exact fun e => (hinspected _).held

theorem warn_obeys {left failed : List (Step Call) → Prop} (h : Running r.container past)
    (message : String) (more : List (String × String)) :
    (r.warn message more).Obeys (InOrder r.config request) left failed
      (fun _ now => Running r.container now) past :=
  .ask fun _ => ⟨.of_quiet rfl, h.append fun _ hx => by cases hx⟩

theorem kill_obeys (h : Watching r.container past) (overdue : Overdue r.config past)
    (looks : Nat) :
    (kill r looks).Obeys (InOrder r.config request) (Held r.container)
      (Held r.container) (fun _ now => Running r.container now) past := by
  rw [kill_eq]
  have hkilled : ∀ answer, Running r.container (past ++ [⟨.engine (.kill r.container), answer⟩]) :=
    fun answer => h.toRunning.append (by simp [EngineCall.isRemove])
  refine .bind (.engine ?_ ?_ ?_) fun _ _ hnext => hnext
  · exact fun _ => .engine ⟨h.held, h.started, overdue, h.alive⟩
  · intro status
    refine .bind ?_ fun _ now (hnow : Running r.container now) => ?_
    · split
      · exact .pure (hkilled _)
      · exact warn_obeys (hkilled _) _ _
    · refine .bind (.ask fun time => ⟨.of_quiet rfl, ?_⟩) fun _ _ hnext => hnext
      have htime : Running r.container (now ++ [⟨.clock, time⟩]) :=
        hnow.append fun _ hx => by cases hx
      refine .bind (settle_obeys htime _ looks) fun settled now hnow => ?_
      cases settled with
      | none => exact .bind (warn_obeys hnow _ _) fun _ _ hnow => .pure hnow
      | some exitCode => exact .pure hnow
  · exact fun e => (hkilled _).held

theorem collectLogs_obeys (h : Running r.container past) (cursor : Option Instant) :
    (collectLogs r cursor).Obeys (InOrder r.config request) (Held r.container)
      (Held r.container) (fun _ now => Held r.container now) past := by
  have hfetched : ∀ answer, Running r.container
      (past ++ [⟨.engine (.logs r.container cursor), answer⟩]) :=
    fun answer => h.append (by simp [EngineCall.isRemove])
  refine .bind (.engine ?_ ?_ ?_) fun _ _ hnext => hnext
  · exact fun _ => .engine ⟨h.held, h.started⟩
  · intro fetched
    split
    · refine .of_within (appendLogs_quiet _ _) (fun _ _ => .of_quiet) (fun _ more _ hmore => ?_) ?_
      · exact (hfetched _).held.append_quiet hmore
      · exact fun more hmore => (hfetched _).held.append_quiet hmore
    · exact (warn_obeys (hfetched _) _ _).mono (fun _ h => h) (fun _ h => h) fun _ _ h => h.held
  · exact fun e => (hfetched _).held

theorem complete_obeys (h : Watching r.container past) (looks : Nat) :
    (complete r looks).Obeys (InOrder r.config request) (Held r.container)
      (Held r.container) (fun _ now => Held r.container now) past := by
  refine .bind (.ask fun now => ⟨.of_quiet rfl, ?_⟩) fun _ _ hnext => hnext
  have hclock : Watching r.container (past ++ [⟨.clock, now⟩]) :=
    h.append fun _ hx => by cases hx
  refine .bind (monitor_obeys hclock _ looks none) fun completion past' ⟨hwatching, hcut⟩ => ?_
  cases completion with
  | inTime exitCode => exact .pure hwatching.held
  | timedOut cursor =>
    refine .bind (.ask fun _ => ⟨.of_quiet rfl, ?_⟩) fun _ _ hnext => hnext
    have hwarned : ∀ entry, Watching r.container (past' ++ [⟨.log entry, ()⟩]) :=
      fun entry => hwatching.append fun _ hx => by cases hx
    refine .bind (kill_obeys (hwarned _) ?_ looks) fun exitCode now hnow => ?_
    · exact (hcut cursor rfl).overdue rfl
    · exact .bind (collectLogs_obeys hnow cursor) fun _ _ hnow => .pure hnow

theorem announce_obeys (h : Held r.container past) (inTime : Bool) (exitCode : Option Int64) :
    (announce r.id inTime exitCode).Obeys (InOrder r.config request) (Held r.container)
      (Held r.container) (fun _ now => Held r.container now) past :=
  .of_within (announce_quiet _ _ _) (fun _ _ => .of_quiet) (fun _ _ _ hmore => h.append_quiet hmore)
    fun _ hmore => h.append_quiet hmore

theorem started_obeys (h : Filled r.container past) (looks : Nat) :
    (do
      let started ← Work.engine (.start r.container)
      Work.ensure "start container" started
      let (inTime, exitCode) ← complete r looks
      announce r.id inTime exitCode : Work Unit).Obeys (InOrder r.config request)
      (Held r.container) (Held r.container) (fun _ now => Held r.container now) past := by
  have hstarted : ∀ answer, Held r.container (past ++ [⟨.engine (.start r.container), answer⟩]) :=
    fun answer => h.held.append (by simp [EngineCall.isRemove])
  refine .bind (.engine ?_ ?_ ?_) fun _ _ hnext => hnext
  · exact fun _ => .engine ⟨h.held, h.copied, fun x hx => (h.asleep x hx).1⟩
  · intro started
    refine .bind (.ensure (fun hsuccess => ?_) fun _ => hstarted _) fun _ _ hnext => hnext
    have hwatching : Watching r.container
        (past ++ [⟨.engine (.start r.container), .ok started⟩]) := by
      refine ⟨⟨hstarted _, started, mem_exchanges_engine _ _ _, hsuccess⟩, ?_⟩
      rw [exchanges_append]
      exact List.forall_mem_append.mpr ⟨fun x hx => (h.asleep x hx).2, by simp [EngineCall.isKill]⟩
    refine .bind (complete_obeys hwatching looks) fun ⟨inTime, exitCode⟩ now hnow => ?_
    exact announce_obeys hnow inTime exitCode
  · exact fun e => hstarted _

theorem runContainer_obeys (h : Fresh r.container past) (looks : Nat) (archive : Bytes) :
    (runContainer r looks archive).Obeys (InOrder r.config request) (Held r.container)
      (Held r.container) (fun _ now => Held r.container now) past := by
  have hcopied : ∀ answer, Held r.container
      (past ++ [⟨.engine (.copy r.container (some archive) r.config.runner.workDir), answer⟩]) :=
    fun answer => h.held.append (by simp [EngineCall.isRemove])
  refine .bind (.engine ?_ ?_ ?_) fun _ _ hnext => hnext
  · exact fun _ => .engine ⟨h.held, h.only⟩
  · intro copied
    refine .bind (.ensure (fun hsuccess => ?_) fun _ => hcopied _) fun _ _ hnext => hnext
    refine started_obeys ⟨hcopied _, ⟨_, _, _, mem_exchanges_engine _ _ _, hsuccess⟩, ?_⟩ looks
    rw [exchanges_append]
    refine List.forall_mem_append.mpr ⟨fun x hx => ?_, ?_⟩
    · exact (EngineCall.only_create (h.only x hx)).imp_right And.left
    · simp [EngineCall.isStart, EngineCall.isKill]
  · exact fun e => hcopied _

theorem removeContainer_obeys {left failed : List (Step Call) → Prop}
    (h : Held r.container past) :
    (removeContainer r).Obeys (InOrder r.config request) left failed
      (fun _ now => Removed r.container now) past := by
  have hremoved : ∀ answer, Removed r.container
      (past ++ [⟨.engine (.remove r.container), answer⟩]) := by
    intro answer
    exact ⟨made?_append h.made, _, answer, exchanges_append _ _, h.kept⟩
  have hwarned : ∀ answer message more, (r.warn message more).Obeys (InOrder r.config request)
      left failed (fun _ now => Removed r.container now)
      (past ++ [⟨.engine (.remove r.container), answer⟩]) := by
    intro answer message more
    refine .ask fun _ => ⟨.of_quiet rfl, (hremoved answer).append_quiet ?_⟩
    exact fun s hs => by cases List.mem_singleton.mp hs; rfl
  refine .bind (.ask fun removed => ⟨.engine h, ?_⟩) fun _ _ hnext => hnext
  cases removed with
  | ok status =>
    dsimp only
    split
    · exact .pure (hremoved _)
    · exact hwarned _ _ _
  | error e => exact hwarned _ _ _

end Container

section Request
variable {config : WorkerConfig} {request : RequestedEvent} {past : List (Step Call)}

theorem createContainer_obeys {left : List (Step Call) → Prop} (hpast : exchanges past = [])
    (hstaged : Staged config.storage.bucket request past) (fileName : String) :
    (createContainer config fileName).Obeys (InOrder config request) left Closed Fresh past := by
  have hasked : ∀ params answer, exchanges (past ++ [⟨.engine (.create params), answer⟩]) =
      [⟨.create params, some answer⟩] := by
    intro params answer
    rw [exchanges_append, hpast]
    rfl
  have hmade : ∀ params answer, made? (past ++ [⟨.engine (.create params), answer⟩]) =
      Exchange.made? ⟨.create params, some answer⟩ := by
    intro params answer
    rw [made?, hasked, List.findSome?_singleton]
  have hrefused : ∀ params answer, Exchange.made? ⟨.create params, some answer⟩ = none →
      Closed (past ++ [⟨.engine (.create params), answer⟩]) :=
    fun params answer h => .inr (.inl ⟨⟨params, answer, hasked _ _⟩, (hmade _ _).trans h⟩)
  refine .bind (.engine ?_ ?_ ?_) fun _ _ hnext => hnext
  · exact fun _ => .engine ⟨hpast, hstaged⟩
  · intro created
    refine .bind (.ensure (fun hsuccess => ?_) fun hfailure => ?_) fun _ _ hnext => hnext
    · cases hid : created.containerId with
      | some container =>
        refine .pure ⟨(hmade _ _).trans ?_, by simp [hasked, EngineCall.isCreate]⟩
        simp [Exchange.made?, hsuccess, hid]
      | none => exact .throw (hrefused _ _ (by simp [Exchange.made?, hid]))
    · exact hrefused _ _ (by simp [Exchange.made?, hfailure])
  · exact fun e => hrefused _ _ rfl

theorem stageSource_runs {bucket : String} {archive : Bytes} {steps : List (Step Call)}
    (h : (stageSource bucket request).Runs steps (some (.ok archive))) :
    ∃ content modified, ⟨.download bucket request.sourceCodePath, .ok content⟩ ∈ steps ∧
      ⟨.time, modified⟩ ∈ steps ∧ Archive.packFile (fileNameOf request.sourceCodePath) content
        modified.second.toNat = some archive := by
  obtain ⟨_, rfl, hfetch⟩ := Work.runs_scratch_bind_ok.mp h
  obtain ⟨content, _, rfl, hscratch⟩ := Work.runs_download_bind_ok.mp hfetch
  obtain ⟨_, rfl, htime⟩ := Work.runs_scratch_bind_ok.mp hscratch
  obtain ⟨modified, _, rfl, hpack⟩ := Work.runs_ask_bind.mp htime
  refine ⟨content, modified, by simp, by simp, ?_⟩
  split at hpack
  · rename_i packed hpacked
    cases (Work.runs_pure.mp hpack).2
    exact hpacked
  · cases (Work.runs_throw.mp hpack).2

/-- The container is removed whatever came of running it. -/
theorem cleanedUp_obeys {r : ContainerRun} (h : Fresh r.container past) (looks : Nat)
    (archive : Bytes) :
    (do
      let outcome ← ExceptT.lift (runContainer r looks archive).run
      removeContainer r
      ExceptT.mk (pure outcome) : Work Unit).Obeys (InOrder r.config request)
      (fun now => ∃ c, Held c now) Closed (fun _ now => Closed now) past := by
  have hrun : (runContainer r looks archive).Obeys (InOrder r.config request)
      (fun now => ∃ c, Held c now) (Held r.container) (fun _ now => Held r.container now) past :=
    (runContainer_obeys h looks archive).mono (fun _ hnow => ⟨_, hnow⟩) (fun _ hnow => hnow)
      fun _ _ hnow => hnow
  refine .bind (.lift hrun) fun outcome now hnow => ?_
  have hheld : Held r.container now := by
    cases outcome <;> exact hnow
  refine .bind (removeContainer_obeys hheld) fun _ now hremoved => ?_
  cases outcome with
  | ok a => exact .pure (.inr (.inr ⟨_, hremoved⟩))
  | error e => exact .throw (.inr (.inr ⟨_, hremoved⟩))

theorem announced_obeys (looks : Nat)
    (htold : ∃ early now late, past =
      early ++ ⟨.send (.started ⟨request.id, now, .forExecution request.id⟩), .ok ()⟩ :: late)
    (hquiet : exchanges past = []) :
    (do
      let archive ← stageSource config.storage.bucket request
      let container ← createContainer config (fileNameOf request.sourceCodePath)
      let run : ContainerRun := ⟨config, request.id, container⟩
      let outcome ← ExceptT.lift (runContainer run looks archive).run
      removeContainer run
      ExceptT.mk (pure outcome) : Work Unit).Obeys (InOrder config request)
      (fun now => ∃ c, Held c now) Closed (fun _ now => Closed now) past := by
  obtain ⟨early, now, late, hpast⟩ := htold
  refine .bind (.of_within (stageSource_quiet _) (fun _ _ => .of_quiet) ?_ fun more hmore => ?_)
    fun _ _ hnext => hnext
  · intro archive more hstaged hmore
    obtain ⟨content, modified, hfetched, htime, hpacked⟩ := stageSource_runs hstaged
    refine .bind (createContainer_obeys ?_ ?_ _) fun container now hfresh => ?_
    · rw [exchanges_append_quiet hmore, hquiet]
    · exact ⟨early, late ++ more, now, modified, content, archive, by simp [hpast],
        List.mem_append_right _ hfetched, List.mem_append_right _ htime, hpacked⟩
    · exact cleanedUp_obeys (r := ⟨config, request.id, container⟩) hfresh looks archive
  · refine .inl ?_
    rw [exchanges_append_quiet hmore, hquiet]

theorem process_obeys (looks : Nat) :
    (process config looks request).Obeys (InOrder config request) (fun now => ∃ c, Held c now)
      Closed (fun _ now => Closed now) [] := by
  refine .bind (.of_within (createLogs_quiet _) (fun _ _ => .of_quiet) (fun _ early _ hearly => ?_)
    fun early hearly => .inl (exchanges_of_quiet hearly)) fun _ _ hnext => hnext
  refine .bind (.ask fun now => ⟨.of_quiet rfl, ?_⟩) fun _ _ hnext => hnext
  have hquiet : ∀ later : List (Step Call), exchanges later = [] →
      exchanges ([] ++ early ++ later) = [] := by
    intro later hlater
    rw [exchanges_append, List.nil_append, exchanges_of_quiet hearly, hlater, List.nil_append]
  refine .bind (.send (fun _ => .of_quiet rfl) ?_ fun e => .inl ?_) fun _ _ hnext => hnext
  · refine .bind (.ask fun _ => ⟨.of_quiet rfl, ?_⟩) fun _ _ hnext => hnext
    refine announced_obeys looks ⟨_, now, [_], List.append_assoc ..⟩ ?_
    rw [List.append_assoc, List.append_assoc]
    exact hquiet _ rfl
  · rw [List.append_assoc]
    exact hquiet _ rfl

end Request

/-! ### Protocol -/

section Handling
variable {config : WorkerConfig} {looks : Nat} {request : RequestedEvent} {d : Queue.Delivery}
variable {steps : List (Step Call)} {result : Option Unit}

theorem handle_obeys (hd : requestOf d.content = some request)
    (h : (handle config looks d).Runs steps result) :
    (∀ early s late, steps = early ++ s :: late → InOrder config request early s) ∧
      (result = some () → Closed steps) ∧ (result = none → ∃ c, Held c steps) := by
  have hobeys : (handle config looks d).Obeys (InOrder config request) (fun now result =>
      (result = some () → Closed now) ∧ (result = none → ∃ c, Held c now)) [] := by
    rw [handle_of_request hd]
    refine .bind (process_obeys looks) (fun now outcome hnow => ?_)
      fun now hnow => ⟨nofun, fun _ => hnow⟩
    have hquiet : (conclude d.tag request.id outcome).Within Quiet False := conclude_quiet _ _ _
    refine .mono ?_ (.of_within hquiet fun _ _ => .of_quiet)
    rintro now' result ⟨more, rfl, hruns, hmore⟩
    refine ⟨fun _ => ?_, fun hnone => ?_⟩
    · cases outcome with
      | ok a => exact Closed.append_quiet hnow hmore
      | error e => exact Closed.append_quiet hnow hmore
    · rw [hnone] at hruns
      exact (hquiet.left_of_runs hruns).elim
  exact hobeys.of_runs h

theorem handle_quiet (hd : requestOf d.content = none)
    (h : (handle config looks d).Runs steps result) : exchanges steps = [] := by
  obtain ⟨before, answer, after, rfl, hbefore, hafter, -⟩ := handle_runs_of_no_request hd h
  refine exchanges_of_quiet (List.forall_mem_append.mpr ⟨fun s hs => ?_, ?_⟩)
  · obtain ⟨entry, rfl⟩ := hbefore s hs
    rfl
  · refine List.forall_mem_cons.mpr ⟨rfl, fun s hs => ?_⟩
    obtain ⟨entry, rfl⟩ := hafter s hs
    rfl

theorem container?_of_inOrder {c : String} {x : Exchange}
    (horder : ∀ early s late, steps = early ++ s :: late → InOrder config request early s)
    (hmade : made? steps = some c) (hx : x ∈ exchanges steps) :
    x.call.isCreate = true ∨ x.call.container? = some c := by
  obtain ⟨s, hs, hasked⟩ := List.mem_filterMap.mp hx
  obtain ⟨early, late, rfl⟩ := List.append_of_mem hs
  have hpermitted := horder early s late rfl x hasked
  have hsame : ∀ {c'}, Held c' early → some c' = some c :=
    fun hheld => (made?_append hheld.made).symm.trans hmade
  obtain ⟨call, answer⟩ := x
  cases call with
  | ping => exact hpermitted.elim
  | create params => exact .inl rfl
  | remove id => exact .inr (hsame hpermitted)
  | _ => exact .inr (hsame hpermitted.1)

theorem create_of_made? {c : String} (h : made? steps = some c) :
    ∃ early s late params answer, steps = early ++ s :: late ∧
      exchangeOf s = some ⟨.create params, answer⟩ := by
  obtain ⟨x, hx, hc⟩ := List.exists_of_findSome?_eq_some h
  obtain ⟨s, hs, hasked⟩ := List.mem_filterMap.mp hx
  obtain ⟨early, late, rfl⟩ := List.append_of_mem hs
  obtain ⟨call, answer⟩ := x
  cases call with
  | create params => exact ⟨early, s, late, params, answer, rfl, hasked⟩
  | _ => cases hc

/-- Where all is in order, nothing is asked of the engine before the source is staged. -/
theorem staged_of_inOrder {early late : List (Step Call)} {s : Step Call} {x : Exchange}
    (horder : ∀ early s late, steps = early ++ s :: late → InOrder config request early s)
    (hsteps : steps = early ++ s :: late) (hx : exchangeOf s = some x) :
    Staged config.storage.bucket request early := by
  have hpermitted := horder early s late hsteps x hx
  have hheld : ∀ {c}, Held c early → Staged config.storage.bucket request early := by
    intro c hheld
    obtain ⟨first, s', rest, params, answer, rfl, hcreate⟩ := create_of_made? hheld.made
    have hfirst := horder first s' (rest ++ s :: late) (by simp [hsteps]) _ hcreate
    exact hfirst.2.append
  obtain ⟨call, answer⟩ := x
  cases call with
  | ping => exact hpermitted.elim
  | create params => exact hpermitted.2
  | remove id => exact hheld hpermitted
  | _ => exact hheld hpermitted.1

end Handling

/-- Whatever happens while a delivery is handled, each call to the engine is permitted by what came
before it, and none comes before the source is staged. If no container was made, nothing but that
was asked for; a container that was made is named by all other calls, and it is removed once, by the
last of them. Only a run that never stopped looking at its container is left before that, and none
is where the clock goes on and a worker may look often enough. -/
theorem engine_protocol (config : WorkerConfig) (looks : Nat) (d : Queue.Delivery) {σ : Type v}
    (answer : {γ : Type} → Call γ → σ → γ × σ) (s : σ) :
    let steps := (handle config looks d).trace answer s
    let result := ((handle config looks d).run answer s).1
    match requestOf d.content with
    | none => exchanges steps = []
    | some request =>
      (∀ early s late, steps = early ++ s :: late → ∀ x, exchangeOf s = some x →
        Staged config.storage.bucket request early ∧ Permitted config request early x.call) ∧
      match made? steps with
      | none => exchanges steps = [] ∨
          ∃ params answer, exchanges steps = [⟨.create params, some answer⟩]
      | some c =>
        (∀ x ∈ exchanges steps, x.call.isCreate = true ∨ x.call.container? = some c) ∧
        ((∃ front answer, exchanges steps = front ++ [⟨.remove c, some answer⟩] ∧
            ∀ x ∈ front, x.call.isRemove = false) ∨
          (result = none ∧ (∀ x ∈ exchanges steps, x.call.isRemove = false) ∧
            looks ≤ inspections steps ∧
            ∀ (clock : σ → Nat) (pace : Nat), Ticking answer clock pace s →
              ¬Ample config looks pace)) := by
  intro steps result
  have hruns : (handle config looks d).Runs steps result := runs_trace answer _ s
  cases hd : requestOf d.content with
  | none => exact handle_quiet hd hruns
  | some request =>
    obtain ⟨horder, hends, hleft⟩ := handle_obeys hd hruns
    refine ⟨fun early s late hsteps x hx =>
      ⟨staged_of_inOrder horder hsteps hx, horder early s late hsteps x hx⟩, ?_⟩
    rcases handle_runs hd hruns with ⟨hresult, course⟩ | ⟨-, -, -, hresult, -⟩
    · obtain ⟨c, hheld⟩ := hleft hresult
      rw [hheld.made]
      refine ⟨fun x hx => container?_of_inOrder horder hheld.made hx,
        .inr ⟨hresult, hheld.kept, ?_⟩⟩
      exact ⟨course.looked rfl, fun clock pace hticking ample =>
        handle_ends hticking ample d hresult⟩
    · rcases hends hresult with hnothing | ⟨hrefused, hmade⟩ | ⟨c, hmade, hremoved⟩
      · rw [made?, hnothing]
        exact .inl rfl
      · rw [hmade]
        exact .inr hrefused
      · rw [hmade]
        exact ⟨fun x hx => container?_of_inOrder horder hmade hx, .inl hremoved⟩

end Worker
end SandboxWorker
