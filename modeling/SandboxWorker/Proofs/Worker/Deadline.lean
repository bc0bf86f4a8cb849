import SandboxWorker.Proofs.Worker.Dialogue
/-! Why handling a delivery comes to an end. No inspection and no rest lasts beyond a deadline, so
where the clock goes on with them the loops make no more looks than fit before theirs. -/
namespace SandboxWorker.Worker
open Program
universe v
variable {σ : Type v} {answer : {γ : Type} → Call γ → σ → γ × σ} {clock : σ → Nat}
  {pace : Nat} {s s' s'' : σ}

inductive Reaches (answer : {γ : Type} → Call γ → σ → γ × σ) : σ → σ → Prop where
  | refl (s : σ) : Reaches @answer s s
  | call {γ : Type} (c : Call γ) {s s' : σ} (h : Reaches @answer (answer c s).2 s') :
    Reaches @answer s s'

/-- A span passes; if it takes time, it begins before a deadline. -/
structure Spends (clock : σ → Nat) (deadline span : Nat) (s s' : σ) : Prop where
  begins : 0 < span → clock s < deadline
  passes : clock s + span ≤ clock s'

namespace Spends
variable {deadline a b : Nat}

theorem next (h : Spends clock deadline a s s') (h' : Spends clock deadline b s' s'') :
    Spends clock deadline (a + b) s s'' := by
  have hpassed := h.passes
  have hpassed' := h'.passes
  refine ⟨fun takes_time => ?_, by omega⟩
  rcases Nat.eq_zero_or_pos a with rfl | ha
  · have hlater := h'.begins (by omega)
    omega
  · exact h.begins ha

theorem until_later (h : Spends clock deadline a s s') (hlater : clock s' ≤ clock s'') :
    Spends clock deadline a s s'' :=
  ⟨h.begins, Nat.le_trans h.passes hlater⟩

theorem of_longer (h : Spends clock deadline b s s') (hle : a ≤ b) :
    Spends clock deadline a s s' :=
  ⟨fun takes_time => h.begins (Nat.lt_of_lt_of_le takes_time hle),
    Nat.le_trans (Nat.add_le_add_left hle _) h.passes⟩

/-- The deadline is nearer by the span, and not over before it: another one still fits. -/
theorem nearer {looks : Nat} (h : Spends clock deadline a s s') (takes_time : 0 < a)
    (near : deadline + a ≤ clock s + (looks + 1) * a) :
    0 < looks ∧ deadline + a ≤ clock s' + looks * a := by
  rw [Nat.succ_mul] at near
  have hearly := h.begins takes_time
  have hpassed := h.passes
  refine ⟨Nat.pos_of_ne_zero fun hzero => ?_, by omega⟩
  rw [hzero] at near
  omega

end Spends

/-- The surroundings have a clock. It never goes back, and it goes on by every rest that was kept
and, at a pace, with every inspection of a container that was not cut off. -/
structure Ticks (answer : {γ : Type} → Call γ → σ → γ × σ) (clock : σ → Nat) (pace : Nat)
    (s : σ) : Prop where
  reads : (answer .clock s).1 = clock s
  goes_on : ∀ {γ : Type} (c : Call γ), clock s ≤ clock (answer c s).2
  rests : ∀ deadline span, (answer (.restBefore deadline span) s).1 = true →
    Spends clock deadline span s (answer (.restBefore deadline span) s).2
  inspects : ∀ deadline container,
    (answer (.engineBefore deadline (.inspect container)) s).1.isSome = true →
      Spends clock deadline pace s (answer (.engineBefore deadline (.inspect container)) s).2

def Ticking (answer : {γ : Type} → Call γ → σ → γ × σ) (clock : σ → Nat) (pace : Nat) (s : σ) :
    Prop :=
  ∀ s', Reaches answer s s' → Ticks answer clock pace s'

/-- A bound on looks that no deadline lets a worker reach. There is none if neither a look nor the
rest after it need take any time. -/
def Ample (config : WorkerConfig) (looks pace : Nat) : Prop :=
  0 < pace + config.runner.logsPollInterval ∧
    max config.runner.executionTimeout config.runner.killGrace +
        (pace + config.runner.logsPollInterval) ≤
      looks * (pace + config.runner.logsPollInterval)

theorem Ample.looks_pos {config : WorkerConfig} {looks : Nat} (h : Ample config looks pace) :
    0 < looks := by
  obtain ⟨takes_time, hlooks⟩ := h
  apply Nat.pos_of_ne_zero
  intro hzero
  rw [hzero, Nat.zero_mul] at hlooks
  omega

namespace Ticking
variable {α : Type}

theorem here (h : Ticking answer clock pace s) : Ticks answer clock pace s := h s (.refl s)

theorem call (h : Ticking answer clock pace s) (c : Call α) :
    Ticking answer clock pace (answer c s).2 := fun s' hs' => h s' (.call c hs')

theorem run (h : Ticking answer clock pace s) (p : Program Call α) :
    Ticking answer clock pace (p.run answer s).2 := by
  induction p generalizing s with
  | done a => exact h
  | unfinished => exact h
  | call c next ih => exact ih _ (h.call c)

theorem run_goes_on (h : Ticking answer clock pace s) (p : Program Call α) :
    clock s ≤ clock (p.run answer s).2 := by
  induction p generalizing s with
  | done a => exact Nat.le_refl _
  | unfinished => exact Nat.le_refl _
  | call c next ih => exact Nat.le_trans (h.here.goes_on c) (ih _ (h.call c))

theorem inspected (h : Ticking answer clock pace s) {deadline : Nat} {container : String}
    {inspection : InspectReply}
    (hresult : ((Work.engineBefore deadline (.inspect container)).run.run answer s).1 =
      some (.ok (some inspection))) :
    Spends clock deadline pace s
      ((Work.engineBefore deadline (.inspect container)).run.run answer s).2 := by
  rw [Work.engineBefore_eq] at hresult ⊢
  refine h.here.inspects deadline container (Option.isSome_iff_ne_none.mpr fun hnone => ?_)
  change some (Work.beforeDeadline _) = _ at hresult
  rw [hnone] at hresult
  cases hresult

end Ticking

theorem work_bind_succeeds {α β : Type} {w : Work α} {f : α → Work β} {b : β}
    (h : ((w >>= f).run.run answer s).1 = some (.ok b)) :
    ∃ a, (w.run.run answer s).1 = some (.ok a) ∧
      ((f a).run.run answer (w.run.run answer s).2).1 = some (.ok b) ∧
      ((w >>= f).run.run answer s).2 = ((f a).run.run answer (w.run.run answer s).2).2 := by
  rw [ExceptT.run_bind, run_bind] at h ⊢
  cases hrun : w.run.run answer s with
  | mk result s' =>
    rw [hrun] at h
    rcases result with _ | (e | a)
    · cases h
    · cases h
    · exact ⟨a, rfl, h, rfl⟩

def Ends {α : Type} (answer : {γ : Type} → Call γ → σ → γ × σ) (p : Program Call α) (s : σ) :
    Prop :=
  (p.run answer s).1 ≠ none

namespace Ends
variable {α β : Type}

theorem bind {p : Program Call α} {f : α → Program Call β} (hp : Ends answer p s)
    (hf : ∀ a, (p.run answer s).1 = some a → Ends answer (f a) (p.run answer s).2) :
    Ends answer (p >>= f) s := by
  unfold Ends at hp ⊢
  rw [run_bind]
  cases hrun : p.run answer s with
  | mk result s' =>
    rw [hrun] at hp hf
    cases result with
    | none => exact absurd rfl hp
    | some a => exact hf a rfl

theorem work_pure (a : α) : Ends answer (pure a : Work α).run s := Option.some_ne_none _

theorem work_bind {w : Work α} {f : α → Work β} (hw : Ends answer w.run s)
    (hf : ∀ a, (w.run.run answer s).1 = some (.ok a) →
      Ends answer (f a).run (w.run.run answer s).2) : Ends answer (w >>= f).run s := by
  rw [ExceptT.run_bind]
  refine bind hw fun result hresult => ?_
  cases result with
  | ok a => exact hf a hresult
  | error e => exact Option.some_ne_none _

theorem of_runs {p : Program Call α} (h : ∀ steps, ¬p.Runs steps none) : Ends answer p s := by
  intro hnone
  have hruns := runs_trace answer p s
  rw [hnone] at hruns
  exact h _ hruns

theorem of_within {P : Step Call → Prop} {w : Work α} (h : w.Within P False) :
    Ends answer w.run s := of_runs fun _ => h.left_of_runs

theorem ask_bind {c : Call α} {f : α → Work β}
    (h : Ends answer (f (answer c s).1).run (answer c s).2) :
    Ends answer (Work.ask c >>= f).run s := h

theorem ask_clock_bind {f : Nat → Work β} (h : Ticking answer clock pace s)
    (hf : Ends answer (f (clock s)).run (answer .clock s).2) :
    Ends answer (Work.ask .clock >>= f).run s :=
  ask_bind (by rwa [h.here.reads])

theorem once {γ : Type} (c : Call γ) (outcome : γ → Except Failure α) :
    Ends answer (Work.once c outcome).run s := Option.some_ne_none _

theorem engine (c : EngineCall α) : Ends answer (Work.engine c).run s :=
  Work.engine_eq c ▸ once _ _

theorem engineBefore (deadline : Nat) (c : EngineCall α) :
    Ends answer (Work.engineBefore deadline c).run s :=
  Work.engineBefore_eq deadline c ▸ once _ _

theorem send (event : ExecutionEvent) : Ends answer (Work.send event).run s :=
  Work.send_eq event ▸ once _ _

theorem ensure (operation : String) (status : Nat) :
    Ends answer (Work.ensure operation status).run s := by
  unfold Work.ensure
  split
  · exact work_pure _
  · exact Option.some_ne_none _

end Ends

section Container
variable (r : ContainerRun) {looks deadline : Nat}

theorem look_spends (h : Ticking answer clock pace s) {cursor : Option Instant} {seen : Look}
    (hseen : ((look r deadline cursor).run.run answer s).1 = some (.ok (some seen))) :
    Spends clock deadline pace s ((look r deadline cursor).run.run answer s).2 := by
  obtain ⟨inspected, hinspected, hrest, hafter⟩ := work_bind_succeeds hseen
  cases inspected with
  | none => cases hrest
  | some inspected =>
    rw [look, hafter]
    exact (h.inspected hinspected).until_later ((h.run _).run_goes_on _)

/-- Each look with its rest brings the clock nearer to the deadline. -/
theorem monitor_ends (takes_time : 0 < pace + r.interval) (cursor : Option Instant)
    (h : Ticking answer clock pace s) (left : 0 < looks)
    (near : deadline + (pace + r.interval) ≤ clock s + looks * (pace + r.interval)) :
    Ends answer (monitor r deadline looks cursor).run s := by
  induction looks generalizing cursor s with
  | zero => exact absurd left (Nat.lt_irrefl 0)
  | succ looks ih =>
    rw [monitor]
    refine .work_bind (.of_within (look_chores r False deadline cursor)) fun seen hseen => ?_
    cases seen with
    | none => exact .work_pure _
    | some seen =>
      have looked := look_spends r h hseen
      dsimp only
      split
      · exact .work_pure _
      · refine .ask_bind ?_
        split
        · rename_i hrested
          have rested := (h.run _).here.rests _ _ hrested
          obtain ⟨left, near⟩ := (looked.next rested).nearer takes_time near
          exact ih _ ((h.run _).call _) left near
        · exact .work_pure _

theorem settle_ends (takes_time : 0 < pace + r.interval) (h : Ticking answer clock pace s)
    (left : 0 < looks)
    (near : deadline + (pace + r.interval) ≤ clock s + looks * (pace + r.interval)) :
    Ends answer (settle r deadline looks).run s := by
  induction looks generalizing s with
  | zero => exact absurd left (Nat.lt_irrefl 0)
  | succ looks ih =>
    rw [settle]
    refine .work_bind (.engineBefore _ _) fun inspected hinspected => ?_
    cases inspected with
    | none => exact .work_pure _
    | some inspected =>
      have looked := h.inspected hinspected
      dsimp only
      split
      · exact .work_pure _
      · refine .ask_bind ?_
        split
        · rename_i hrested
          have rested := (h.run _).here.rests _ _ hrested
          obtain ⟨left, near⟩ := (looked.next rested).nearer takes_time near
          exact ih ((h.run _).call _) left near
        · exact .work_pure _

theorem Ample.near {span now : Nat} (h : Ample r.config looks pace)
    (hspan : span ≤ max r.config.runner.executionTimeout r.config.runner.killGrace)
    (hnow : now ≤ clock s) :
    now + span + (pace + r.interval) ≤ clock s + looks * (pace + r.interval) := by
  have hample := h.2
  change _ + (pace + r.interval) ≤ looks * (pace + r.interval) at hample
  omega

theorem kill_ends (h : Ticking answer clock pace s) (ample : Ample r.config looks pace) :
    Ends answer (kill r looks).run s := by
  rw [kill_eq]
  refine .work_bind (.engine _) fun status _ => .work_bind ?_ fun _ _ => ?_
  · split
    · exact .work_pure _
    · exact .of_within (warn_chores r False _ _)
  · refine .ask_clock_bind ((h.run _).run _) (.work_bind ?_ fun settled _ => ?_)
    · refine settle_ends r ample.1 (((h.run _).run _).call _) ample.looks_pos ?_
      exact ample.near r (Nat.le_max_right ..) (((h.run _).run _).here.goes_on _)
    · cases settled with
      | none => exact .work_bind (.of_within (warn_chores r False _ _)) fun _ _ => .work_pure _
      | some exitCode => exact .work_pure _

theorem complete_ends (h : Ticking answer clock pace s) (ample : Ample r.config looks pace) :
    Ends answer (complete r looks).run s := by
  refine .ask_clock_bind h (.work_bind ?_ fun completion _ => ?_)
  · refine monitor_ends r ample.1 none (h.call _) ample.looks_pos ?_
    exact ample.near r (Nat.le_max_left ..) (h.here.goes_on _)
  · cases completion with
    | inTime exitCode => exact .work_pure _
    | timedOut cursor =>
      refine .work_bind (.of_within (warn_chores r False _ _)) fun _ _ => ?_
      refine .work_bind (kill_ends r (((h.call _).run _).run _) ample) fun exitCode _ => ?_
      exact .work_bind (.of_within (collectLogs_chores r False cursor)) fun _ _ => .work_pure _

theorem runContainer_comes_to_end (h : Ticking answer clock pace s)
    (ample : Ample r.config looks pace) (archive : Bytes) :
    Ends answer (runContainer r looks archive).run s := by
  refine .work_bind (.engine _) fun copied _ => .work_bind (.ensure _ _) fun _ _ => ?_
  refine .work_bind (.engine _) fun started _ => .work_bind (.ensure _ _) fun _ _ => ?_
  refine .work_bind ?_ fun watched _ => .of_runs fun steps hsteps => ?_
  · exact complete_ends r ((((h.run _).run _).run _).run _) ample
  obtain ⟨now, event, a, after, -, -, -, hresult⟩ := announce_runs hsteps
  cases hresult

end Container

variable {config : WorkerConfig} {looks : Nat}

theorem process_ends (h : Ticking answer clock pace s) (ample : Ample config looks pace)
    (request : RequestedEvent) : Ends answer (process config looks request).run s := by
  have hlogs := createLogs_chores config.storage.bucket (.forExecution request.id) False
  have hsource := stageSource_chores config.storage.bucket (.forExecution request.id) False request
  refine .work_bind (.of_within hlogs) fun _ _ => .ask_bind (.work_bind (.send _) fun _ _ => ?_)
  refine .ask_bind (.work_bind (.of_within hsource) fun archive _ => ?_)
  refine .work_bind (.of_within (createContainer_chores config.storage.bucket
    (.forExecution request.id) False _ _)) fun container _ => ?_
  refine .work_bind (.bind ?_ fun _ _ => Option.some_ne_none _) fun outcome _ => ?_
  · exact runContainer_comes_to_end ⟨config, request.id, container⟩
      ((((((h.run _).call _).run _).call _).run _).run _) ample archive
  · exact .work_bind (.of_within (removeContainer_chores _ False)) fun _ _ => Option.some_ne_none _

/-- A worker that may look often enough brings every delivery to its end. -/
theorem handle_ends (h : Ticking answer clock pace s) (ample : Ample config looks pace)
    (d : Queue.Delivery) : Ends answer (handle config looks d) s := by
  cases hd : requestOf d.content with
  | none =>
    refine .of_runs fun steps hsteps => ?_
    obtain ⟨before, a, after, -, -, -, hresult⟩ := handle_runs_of_no_request hd hsteps
    cases hresult
  | some request =>
    rw [handle_of_request hd]
    refine .bind (process_ends h ample request) fun outcome _ => .of_runs fun steps hsteps => ?_
    cases (conclude_closes hsteps).2

-- Five seconds with ten looks in each, and a last look.
example : Ample (.ofLookup fun _ => none) 51 0 := by
  constructor <;> decide +kernel

end SandboxWorker.Worker
