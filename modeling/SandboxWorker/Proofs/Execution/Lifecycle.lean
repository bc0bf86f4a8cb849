import SandboxWorker.Proofs.Execution.Replay
/-! The life of an execution to which any events come in, its own and foreign ones, in any order and
any number of times. What is known of it always fits how far it has come, it only moves forward, and
its end is final. -/
namespace SandboxWorker

inductive Stage.Move : Stage → Stage → Prop where
  | start : Move .created .started
  | finish {s t : Stage} (going : s.isFinal = false) (final : t.isFinal = true) : Move s t

namespace Stage.Move
variable {r s t : Stage}

theorem going (h : Move s t) : s.isFinal = false := by
  cases h with
  | start => rfl
  | finish going _ => exact going

/-- No two moves lead on from where they started but to an end. -/
theorem trans (h : Move r s) (h' : Move s t) : Move r t := by
  refine .finish h.going ?_
  cases h with
  | start => cases h' with
    | finish _ final => exact final
  | finish _ final =>
    rw [h'.going] at final
    cases final

end Stage.Move

namespace ExecutionRecord

structure Consistent (r : ExecutionRecord) : Prop where
  failureReason : r.failureReason ≠ .none ↔ r.stage = .failed
  finishedAt : r.finishedAt.isSome = true ↔ r.stage = .completed ∨ r.stage = .failed
  exitCode : r.exitCode.isSome = true ↔ r.stage = .completed ∨ r.stage = .failed
  logsPath : r.logsPath.isSome = true ↔ r.stage ≠ .created
  compiler : r.compiler.supports r.language = true

structure Precedes (r s : ExecutionRecord) : Prop where
  id : s.id = r.id
  createdAt : s.createdAt = r.createdAt
  sourceCodePath : s.sourceCodePath = r.sourceCodePath
  language : s.language = r.language
  compiler : s.compiler = r.compiler
  logsPath : ∀ p, r.logsPath = some p → s.logsPath = some p
  stage : s.stage = r.stage ∨ r.stage.Move s.stage
  final : r.stage.isFinal = true → s = r

/-- The events that an execution waits for: its start while it is just created, and its end while it
has none. -/
inductive Awaits (r : ExecutionRecord) : ExecutionEvent → Prop where
  | started (e : StartedEvent) (own : e.id = r.id) (created : r.stage = .created) :
    Awaits r (.started e)
  | finished (e : FinishedEvent) (own : e.id = r.id) (going : r.stage.isFinal = false) :
    Awaits r (.finished e)

theorem consistent_of_valid {r : ExecutionRecord} (h : r.validate = .ok ()) : r.Consistent := by
  obtain ⟨hcompiler, hreason, hfinished, hcode, hlogs⟩ := (validate_eq_ok_iff r).mp h
  have hfinal : r.stage.isFinal = true ↔ r.stage = .completed ∨ r.stage = .failed := by
    cases r.stage <;> simp [Stage.isFinal]
  refine ⟨hreason.symm, ?_, ?_, ?_, hcompiler⟩
  · rw [Option.isSome_iff_ne_none, ← hfinished, hfinal]
  · rw [Option.isSome_iff_ne_none, ← hcode, hfinal]
  · rw [Option.isSome_iff_ne_none, ne_eq, ← hlogs]

namespace Precedes
variable {r s t : ExecutionRecord}

theorem refl (r : ExecutionRecord) : Precedes r r :=
  ⟨rfl, rfl, rfl, rfl, rfl, fun _ h => h, .inl rfl, fun _ => rfl⟩

theorem trans (h : Precedes r s) (h' : Precedes s t) : Precedes r t where
  id := h'.id.trans h.id
  createdAt := h'.createdAt.trans h.createdAt
  sourceCodePath := h'.sourceCodePath.trans h.sourceCodePath
  language := h'.language.trans h.language
  compiler := h'.compiler.trans h.compiler
  logsPath p hp := h'.logsPath p (h.logsPath p hp)
  stage := by
    rcases h'.stage with heq | hmove
    · rw [heq]
      exact h.stage
    · rcases h.stage with heq | hfirst
      · rw [← heq]
        exact .inr hmove
      · exact .inr (hfirst.trans hmove)
  final hr := by
    have hs := h.final hr
    rw [h'.final (by rw [hs]; exact hr), hs]

end Precedes
end ExecutionRecord

namespace Execution
open ExecutionRecord
variable {x y : Execution} {e : ExecutionEvent}

/-- The execution after an event has come in; one that does not apply changes nothing. -/
def receive (x : Execution) (e : ExecutionEvent) : Execution :=
  match x.apply e with
  | .ok y => y
  | .error _ => x

def reached (x : Execution) (events : List ExecutionEvent) : List Execution :=
  events.scanl receive x

theorem receive_of_apply (h : x.apply e = .ok y) : x.receive e = y := by
  rw [receive, h]

theorem apply_of_foreign (h : e.id ≠ x.record.id) :
    x.apply e = .error (.foreignEvent x.record.id e.id) :=
  if_pos h

theorem apply_of_not_awaits (own : e.id = x.record.id) (h : ¬x.record.Awaits e) :
    x.apply e = .error (.illegalTransition x.record.stage e.kind) := by
  cases e with
  | requested r => rw [apply, if_neg (not_not_intro own)]
  | started s =>
    rw [apply, if_neg (not_not_intro own)]
    exact if_neg fun created => h (.started s own created)
  | finished f =>
    rw [apply, if_neg (not_not_intro own)]
    exact if_pos (Bool.of_not_eq_false fun going => h (.finished f own going))

theorem receive_of_not_awaits (h : ¬x.record.Awaits e) : x.receive e = x := by
  by_cases own : e.id = x.record.id
  · rw [receive, apply_of_not_awaits own h]
  · rw [receive, apply_of_foreign own]

theorem receive_cases (x : Execution) (e : ExecutionEvent) :
    (¬x.record.Awaits e ∧ x.receive e = x) ∨
    (∃ s, e = .started s ∧ x.record.stage = .created ∧
      (x.receive e).record = started x.record s) ∨
    (∃ f, e = .finished f ∧ x.record.stage.isFinal = false ∧
      (x.receive e).record = finished x.record f) := by
  by_cases h : x.record.Awaits e
  · cases h with
    | started s own created =>
      obtain ⟨y, hy, hrecord⟩ := apply_started created own
      rw [receive_of_apply hy]
      exact .inr (.inl ⟨s, rfl, created, hrecord⟩)
    | finished f own going =>
      obtain ⟨y, hy, hrecord⟩ := apply_finished going own
      rw [receive_of_apply hy]
      exact .inr (.inr ⟨f, rfl, going, hrecord⟩)
  · exact .inl ⟨h, receive_of_not_awaits h⟩

theorem receive_ne_iff : x.receive e ≠ x ↔ x.record.Awaits e := by
  constructor
  · intro hne
    by_cases h : x.record.Awaits e
    · exact h
    · exact absurd (receive_of_not_awaits h) hne
  · intro h heq
    rcases receive_cases x e with ⟨hnot, -⟩ | ⟨s, -, created, hrecord⟩ | ⟨f, -, going, hrecord⟩
    · exact hnot h
    · rw [heq] at hrecord
      have hstage := congrArg ExecutionRecord.stage hrecord
      rw [created] at hstage
      cases hstage
    · rw [heq] at hrecord
      have hstage := congrArg ExecutionRecord.stage hrecord
      have hfinal := f.final
      rw [← show x.record.stage = f.stage from hstage, going] at hfinal
      cases hfinal

theorem precedes_receive (x : Execution) (e : ExecutionEvent) :
    x.record.Precedes (x.receive e).record := by
  rcases receive_cases x e with ⟨-, heq⟩ | ⟨s, -, created, hrecord⟩ | ⟨f, -, going, hrecord⟩
  · rw [heq]
    exact .refl _
  · have hlogs : x.record.logsPath = none :=
      ((validate_eq_ok_iff _).mp x.valid).2.2.2.2.mp created
    rw [hrecord]
    refine ⟨rfl, rfl, rfl, rfl, rfl, fun p hp => ?_, .inr ?_, fun hfinal => ?_⟩
    · rw [hlogs] at hp
      cases hp
    · rw [created]
      exact .start
    · rw [created] at hfinal
      cases hfinal
  · rw [hrecord]
    refine ⟨rfl, rfl, rfl, rfl, rfl, fun p hp => ?_, .inr (.finish going f.final), fun hfinal => ?_⟩
    · simp [finished, hp]
    · rw [going] at hfinal
      cases hfinal

theorem precedes_of_mem_reached {events : List ExecutionEvent} (h : y ∈ x.reached events) :
    x.record.Precedes y.record := by
  induction events generalizing x with
  | nil =>
    rw [reached, List.scanl_nil, List.mem_singleton] at h
    rw [h]
    exact .refl _
  | cons e events ih =>
    rw [reached, List.scanl_cons] at h
    rcases List.mem_cons.mp h with rfl | h
    · exact .refl _
    · exact (precedes_receive x e).trans (ih h)

/-- Whatever events come in, every execution reached is consistent and comes from those before it,
and none but the events it waits for change it. -/
theorem lifecycle (x : Execution) (events : List ExecutionEvent) :
    (∀ y ∈ x.reached events, y.record.Consistent) ∧
    (x.reached events).Pairwise (fun y z => y.record.Precedes z.record) ∧
    ∀ y ∈ x.reached events, ∀ e, y.receive e ≠ y ↔ y.record.Awaits e := by
  refine ⟨fun y _ => consistent_of_valid y.valid, ?_, fun y _ e => receive_ne_iff⟩
  induction events generalizing x with
  | nil =>
    rw [reached, List.scanl_nil]
    exact List.pairwise_singleton _ x
  | cons e events ih =>
    rw [reached, List.scanl_cons, List.pairwise_cons]
    exact ⟨fun z hz => (precedes_receive x e).trans (precedes_of_mem_reached hz), ih _⟩

end Execution
end SandboxWorker
