import SandboxWorker.Proofs.Execution.Deliveries
/-! What an execution answers to an event: which events apply, what becomes of the execution, and
why the others are refused. What an event makes of a valid record is valid, so the check that
follows refuses nothing; and it takes just the ends that the event's own check takes. -/
namespace SandboxWorker

namespace FinishedEvent

theorem isOk_new (id : ExecutionId) (createdAt : Instant) (stage : Stage) (exitCode : Int64)
    (reason : FailureReason) :
    (∃ e, new id createdAt stage exitCode reason = .ok e) ↔
      stage.isFinal = true ∧ (reason = .none ↔ stage = .completed) := by
  unfold new
  by_cases final : stage.isFinal = true
  · by_cases agree : reason = .none ↔ stage = .completed
    · simp [final, agree]
    · by_cases hnone : reason = .none <;> simp_all
  · simp [final]

end FinishedEvent

namespace Execution
open ExecutionRecord
variable {x y : Execution} {e : ExecutionEvent}

def ended (r : ExecutionRecord) (createdAt : Instant) (stage : Stage) (exitCode : Int64)
    (reason : FailureReason) : ExecutionRecord :=
  { r with
    stage := stage
    exitCode := some exitCode
    failureReason := reason
    finishedAt := some createdAt
    logsPath := some (r.logsPath.getD (.forExecution r.id)) }

/-- What an event makes of a record, before that is checked. -/
def next (r : ExecutionRecord) : ExecutionEvent → ExecutionRecord
  | .requested _ => r
  | .started e => started r e
  | .finished e => ended r e.createdAt e.stage e.exitCode e.failureReason

/-- The end of an execution is valid if it is one that could be told. -/
theorem validate_ended (x : Execution) (createdAt : Instant) (stage : Stage) (exitCode : Int64)
    (reason : FailureReason) :
    (ended x.record createdAt stage exitCode reason).validate = .ok () ↔
      stage.isFinal = true ∧ (reason = .none ↔ stage = .completed) := by
  have hcompiler := ((validate_eq_ok_iff _).mp x.valid).1
  rw [validate_eq_ok_iff]
  cases stage <;> simp [ended, Stage.isFinal, hcompiler]

theorem awaits_iff : x.record.Awaits e ↔ e.id = x.record.id ∧
    (e.kind = .started ∧ x.record.stage = .created ∨
      e.kind = .finished ∧ (x.record.stage = .created ∨ x.record.stage = .started)) := by
  have hgoing : x.record.stage.isFinal = false ↔
      x.record.stage = .created ∨ x.record.stage = .started := by
    cases x.record.stage <;> simp [Stage.isFinal]
  constructor
  · rintro (⟨s, own, created⟩ | ⟨f, own, going⟩)
    · exact ⟨own, .inl ⟨rfl, created⟩⟩
    · exact ⟨own, .inr ⟨rfl, hgoing.mp going⟩⟩
  · rintro ⟨own, h⟩
    cases e with
    | requested r => simp [ExecutionEvent.kind] at h
    | started s => exact .started s own (by simpa [ExecutionEvent.kind] using h)
    | finished f => exact .finished f own (hgoing.mpr (by simpa [ExecutionEvent.kind] using h))

theorem apply_of_awaits (h : x.record.Awaits e) :
    ∃ y, x.apply e = .ok y ∧ y.record = next x.record e := by
  cases h with
  | started s own created => exact apply_started created own
  | finished f own going => exact apply_finished going own

/-- Whatever an execution is told, its answer is one of three. What it waits for makes of it a valid
record; anything else of its own does not fit its stage, and the rest is not its own. No end that
can be told is refused for what it says. -/
theorem apply_answers (x : Execution) (e : ExecutionEvent) :
    let awaited := e.id = x.record.id ∧
      (e.kind = .started ∧ x.record.stage = .created ∨
        e.kind = .finished ∧ (x.record.stage = .created ∨ x.record.stage = .started))
    ((∃ y, x.apply e = .ok y) ↔ awaited) ∧
    (∀ y, x.apply e = .ok y → y.record = next x.record e) ∧
    (∀ reason, x.apply e = .error reason ↔
      e.id ≠ x.record.id ∧ reason = .foreignEvent x.record.id e.id ∨
      e.id = x.record.id ∧ ¬awaited ∧ reason = .illegalTransition x.record.stage e.kind) ∧
    (awaited → (next x.record e).validate = .ok ()) ∧
    ∀ createdAt stage exitCode reason,
      (ended x.record createdAt stage exitCode reason).validate = .ok () ↔
        ∃ f, FinishedEvent.new x.record.id createdAt stage exitCode reason = .ok f := by
  intro awaited
  have hawaits : x.record.Awaits e ↔ awaited := awaits_iff
  have hends : ∀ createdAt stage exitCode reason,
      (ended x.record createdAt stage exitCode reason).validate = .ok () ↔
        ∃ f, FinishedEvent.new x.record.id createdAt stage exitCode reason = .ok f := by
    intro createdAt stage exitCode reason
    rw [validate_ended, FinishedEvent.isOk_new]
  by_cases h : awaited
  · obtain ⟨y, hy, hrecord⟩ := apply_of_awaits (hawaits.mpr h)
    have hvalid : (next x.record e).validate = .ok () := hrecord ▸ y.valid
    rw [hy]
    refine ⟨by simp [h], ?_, ?_, fun _ => hvalid, hends⟩
    · rintro _ ⟨⟩
      exact hrecord
    · simp [h, h.1]
  · have hnot : ¬x.record.Awaits e := mt hawaits.mp h
    by_cases own : e.id = x.record.id
    · rw [apply_of_not_awaits own hnot]
      refine ⟨by simp [h], by simp, ?_, fun h' => absurd h' h, hends⟩
      simp [h, own, eq_comm]
    · rw [apply_of_foreign own]
      refine ⟨by simp [h], by simp, ?_, fun h' => absurd h' h, hends⟩
      simp [own, eq_comm]

/-- The end of an execution comes in before its start, which is then refused, whatever it tells. -/
theorem apply_answers_overtaken :
    let broken : ExecutionEvent := .finished (.internalError ⟨1⟩ dayOne)
    (next unstarted.record broken).validate = .ok () ∧
    ∃ y, unstarted.apply broken = .ok y ∧
      y.record.logsPath = some (.forExecution ⟨1⟩) ∧
      ∀ createdAt logsPath, y.apply (.started ⟨⟨1⟩, createdAt, logsPath⟩) =
        .error (.illegalTransition .failed .started) := by
  intro broken
  obtain ⟨happlies, hrecord, -, hvalid, -⟩ := apply_answers unstarted broken
  have hawaited := awaits_iff.mp
    (show unstarted.record.Awaits broken from .finished _ rfl rfl)
  obtain ⟨y, hy⟩ := happlies.mpr hawaited
  have hy' := hrecord y hy
  refine ⟨hvalid hawaited, y, hy, by rw [hy']; rfl, fun createdAt logsPath => ?_⟩
  have hid : y.record.id = ⟨1⟩ := by rw [hy']; rfl
  have hstage : y.record.stage = .failed := by rw [hy']; rfl
  obtain ⟨-, -, hrefused, -⟩ := apply_answers y (.started ⟨⟨1⟩, createdAt, logsPath⟩)
  rw [hrefused, hid, hstage]
  exact .inr ⟨rfl, by simp [ExecutionEvent.kind], rfl⟩

end Execution
end SandboxWorker
