import SandboxWorker.Execution.Record
/-! Which records are valid, which events apply, and what a list of events makes of an execution. -/
namespace SandboxWorker

private theorem error_else_eq_ok {ε α : Type} {p : Prop} [Decidable p] {e : ε} {x : Except ε α}
    {a : α} : (if p then .error e else x) = .ok a ↔ ¬ p ∧ x = .ok a := by
  by_cases h : p <;> simp [h]

theorem ExecutionRecord.validate_eq_ok_iff (r : ExecutionRecord) :
    r.validate = .ok () ↔
      r.compiler.supports r.language = true ∧
      (r.stage = .failed ↔ r.failureReason ≠ .none) ∧
      (r.stage.isFinal = true ↔ r.finishedAt ≠ none) ∧
      (r.stage.isFinal = true ↔ r.exitCode ≠ none) ∧
      (r.stage = .created ↔ r.logsPath = none) := by
  simp only [validate, error_else_eq_ok]
  cases r.stage <;> simp [Stage.isFinal]

namespace Execution

theorem ofRecord_of_valid {r : ExecutionRecord} (h : r.validate = .ok ()) :
    ofRecord r = .ok ⟨r, h⟩ := by
  unfold ofRecord
  split
  · rfl
  · simp_all

theorem apply_started {x : Execution} {e : StartedEvent} (created : x.record.stage = .created)
    (own : e.id = x.record.id) :
    ∃ y, x.apply (.started e) = .ok y ∧ y.record = started x.record e := by
  have hx := (ExecutionRecord.validate_eq_ok_iff _).mp x.valid
  have valid : (started x.record e).validate = .ok () := by
    rw [created] at hx
    rw [ExecutionRecord.validate_eq_ok_iff]
    simp_all [started, Stage.isFinal]
  refine ⟨⟨_, valid⟩, ?_, rfl⟩
  have hid : (ExecutionEvent.started e).id = x.record.id := own
  simp only [apply, hid, created, ne_eq, not_true_eq_false, if_false, if_true]
  exact ofRecord_of_valid valid

theorem apply_finished {x : Execution} {e : FinishedEvent} (going : x.record.stage.isFinal = false)
    (own : e.id = x.record.id) :
    ∃ y, x.apply (.finished e) = .ok y ∧ y.record = finished x.record e := by
  have hx := (ExecutionRecord.validate_eq_ok_iff _).mp x.valid
  have hf := e.final
  have hr := e.reason_none_iff
  have valid : (finished x.record e).validate = .ok () := by
    rw [ExecutionRecord.validate_eq_ok_iff]
    cases hs : e.stage <;> simp_all [finished, Stage.isFinal]
  refine ⟨⟨_, valid⟩, ?_, rfl⟩
  have hid : (ExecutionEvent.finished e).id = x.record.id := own
  simp only [apply, hid, going, ne_eq, not_true_eq_false, if_false, Bool.false_eq_true]
  exact ofRecord_of_valid valid

/-- The execution after all these events, each of which must apply. -/
def replay (x : Execution) (events : List ExecutionEvent) : Except DomainError Execution :=
  events.foldlM apply x

end Execution
end SandboxWorker
