import SandboxWorker.Proofs.Worker.Dialogue
/-! Why running a container may break down: the engine, the store and the queue may fail it, and a
scratch file may be missing, but it always knows how to tell how the execution ended. -/
namespace SandboxWorker

namespace Work
variable {α β γ : Type}

def Agrees (w : Work α) : Prop := ∀ steps reason, ¬w.Runs steps (some (.error (.domain reason)))

namespace Agrees

theorem pure (a : α) : (pure a : Work α).Agrees := by
  intro steps reason h
  cases (runs_pure.mp h).2

theorem throw {e : Failure} (h : ∀ reason, e ≠ .domain reason) : (throw e : Work α).Agrees := by
  intro steps reason hruns
  exact h reason (Except.error.inj (Option.some.inj (runs_throw.mp hruns).2)).symm

theorem unfinished : (unfinished : Work α).Agrees := by
  intro steps reason h
  cases (runs_unfinished.mp h).2

theorem bind {w : Work α} {f : α → Work β} (hw : w.Agrees) (hf : ∀ a, (f a).Agrees) :
    (w >>= f).Agrees := by
  intro steps reason h
  rcases runs_bind.mp h with ⟨a, first, second, -, -, hsecond⟩ | ⟨e, he, hfirst⟩ | ⟨hnone, -⟩
  · exact hf a second reason hsecond
  · cases he
    exact hw steps reason hfirst
  · cases hnone

theorem once {c : Call γ} {outcome : γ → Except Failure α}
    (h : ∀ answer reason, outcome answer ≠ .error (.domain reason)) : (once c outcome).Agrees := by
  intro steps reason hruns
  obtain ⟨answer, -, hresult⟩ := runs_once.mp hruns
  exact h answer reason (Option.some.inj hresult).symm

theorem of_mapError {ε : Type} {c : Call (Except ε α)} {failure : ε → Failure}
    (h : ∀ e reason, failure e ≠ .domain reason) :
    (Work.once c (·.mapError failure) : Work α).Agrees := by
  refine .once fun answer reason hfailed => ?_
  obtain ⟨e, -, he⟩ := mapError_eq_error.mp hfailed
  exact h e reason he

theorem ask (c : Call α) : (ask c).Agrees := .once nofun

theorem engine (c : EngineCall α) : (engine c).Agrees := engine_eq c ▸ .of_mapError nofun

theorem engineBefore (deadline : Nat) (c : EngineCall α) : (engineBefore deadline c).Agrees := by
  rw [engineBefore_eq]
  refine .once fun answer reason h => ?_
  rcases answer with _ | _ | _ <;> cases h

theorem scratch (label : String) : (scratch label).Agrees := by
  rw [scratch_eq]
  refine .once fun made reason h => ?_
  cases made <;> cases h

theorem upload (bucket key : String) (content : Bytes) : (upload bucket key content).Agrees :=
  upload_eq bucket key content ▸ .of_mapError nofun

theorem download (bucket key : String) : (download bucket key).Agrees :=
  download_eq bucket key ▸ .of_mapError nofun

theorem ensure (operation : String) (status : Nat) : (ensure operation status).Agrees := by
  unfold Work.ensure
  split
  · exact .pure ()
  · exact .throw nofun

theorem forM {xs : List β} {f : β → Work Unit} (h : ∀ x ∈ xs, (f x).Agrees) :
    (xs.forM f).Agrees := by
  induction xs with
  | nil => exact .pure ()
  | cons x xs ih =>
    show (f x >>= fun _ => xs.forM f).Agrees
    exact bind (h x List.mem_cons_self) fun _ => ih fun y hy => h y (List.mem_cons_of_mem x hy)

end Agrees
end Work

namespace Worker
variable (r : ContainerRun) (looks : Nat)

theorem appendLogs_agrees (bucket : String) (paths : LogsPath) (batch : LogBatch) :
    (appendLogs bucket paths batch).Agrees :=
  .forM fun _ _ => .bind (.scratch _) fun _ => .bind (.download _ _) fun _ => .upload _ _ _

theorem look_agrees (deadline : Nat) (cursor : Option Instant) :
    (look r deadline cursor).Agrees := by
  refine .bind (.engineBefore _ _) fun inspected => ?_
  cases inspected with
  | none => exact .pure _
  | some inspected =>
    dsimp only
    split
    · exact .throw nofun
    · refine .bind (.engineBefore _ _) fun fetched => ?_
      cases fetched with
      | none => exact .pure _
      | some fetched =>
        dsimp only
        split
        · exact .bind (appendLogs_agrees _ _ _) fun _ => .pure _
        · split
          · exact .pure _
          · exact .throw nofun

theorem monitor_agrees (deadline : Nat) (cursor : Option Instant) :
    (monitor r deadline looks cursor).Agrees := by
  induction looks generalizing cursor with
  | zero => exact .unfinished
  | succ looks ih =>
    refine .bind (look_agrees r deadline cursor) fun seen => ?_
    cases seen with
    | none => exact .pure _
    | some seen =>
      dsimp only
      split
      · exact .pure _
      · refine .bind (.ask _) fun rested => ?_
        split
        · exact ih _
        · exact .pure _

theorem settle_agrees (deadline : Nat) : (settle r deadline looks).Agrees := by
  induction looks with
  | zero => exact .unfinished
  | succ looks ih =>
    refine .bind (.engineBefore _ _) fun inspected => ?_
    cases inspected with
    | none => exact .pure _
    | some inspected =>
      dsimp only
      split
      · exact .pure _
      · refine .bind (.ask _) fun rested => ?_
        split
        · exact ih
        · exact .pure _

theorem warn_agrees (message : String) (more : List (String × String)) :
    (r.warn message more).Agrees := .ask _

theorem kill_agrees : (kill r looks).Agrees := by
  rw [kill_eq]
  refine .bind (.engine _) fun status => .bind ?_ fun _ => .bind (.ask _) fun now => ?_
  · split
    · exact .pure _
    · exact warn_agrees r _ _
  · refine .bind (settle_agrees r looks _) fun settled => ?_
    cases settled with
    | none => exact .bind (warn_agrees r _ _) fun _ => .pure _
    | some exitCode => exact .pure _

theorem collectLogs_agrees (cursor : Option Instant) : (collectLogs r cursor).Agrees := by
  refine .bind (.engine _) fun fetched => ?_
  split
  · exact appendLogs_agrees _ _ _
  · exact warn_agrees r _ _

theorem complete_agrees : (complete r looks).Agrees := by
  refine .bind (.ask _) fun now => .bind (monitor_agrees r looks _ none) fun completion => ?_
  cases completion with
  | inTime exitCode => exact .pure _
  | timedOut cursor =>
    refine .bind (warn_agrees r _ _) fun _ => .bind (kill_agrees r looks) fun exitCode => ?_
    exact .bind (collectLogs_agrees r cursor) fun _ => .pure _

/-- The verdict always makes an event, so only sending it can fail. -/
theorem announce_agrees (id : ExecutionId) (inTime : Bool) (exitCode : Option Int64) :
    (announce id inTime exitCode).Agrees := by
  intro steps reason h
  obtain ⟨now, event, answer, after, -, -, -, hresult⟩ := announce_runs h
  obtain ⟨e, -, he⟩ := Work.mapError_eq_error.mp (Option.some.inj hresult).symm
  cases he

theorem runContainer_agrees (archive : Bytes) : (runContainer r looks archive).Agrees := by
  refine .bind (.engine _) fun copied => .bind (.ensure _ _) fun _ => ?_
  refine .bind (.engine _) fun started => .bind (.ensure _ _) fun _ => ?_
  exact .bind (complete_agrees r looks) fun _ => announce_agrees _ _ _

end Worker
end SandboxWorker
