import SandboxWorker.Proofs.Execution.Lifecycle
/-! Events that are delivered again, or out of order. An execution never comes to wait for an event
that it does not wait for, so what was delivered once has no effect when it comes again. The order
does not matter where all starts tell of the same logs and there is one end: an end that overtakes
the start puts the logs where the start would have put them. -/
namespace SandboxWorker

theorem Stage.Move.ne_created {s t : Stage} (h : Move s t) : t ≠ .created := by
  rintro rfl
  cases h with
  | finish _ final => cases final

theorem ExecutionRecord.Precedes.awaits {r s : ExecutionRecord} {e : ExecutionEvent}
    (h : r.Precedes s) (waits : s.Awaits e) : r.Awaits e := by
  cases waits with
  | started e own created =>
    refine .started e (own.trans h.id) ?_
    rcases h.stage with heq | hmove
    · exact heq ▸ created
    · exact absurd created hmove.ne_created
  | finished e own going =>
    refine .finished e (own.trans h.id) ?_
    rw [Bool.eq_false_iff]
    intro hfinal
    rw [h.final hfinal, hfinal] at going
    cases going

/-- Events of which those of one execution tell the same story: its starts tell of the places where
its logs belong, and it ends in one way. -/
structure Agreeing (id : ExecutionId) (events : List ExecutionEvent) : Prop where
  started : ∀ e, .started e ∈ events → e.id = id → e.logsPath = .forExecution id
  finished : ∀ e f, .finished e ∈ events → .finished f ∈ events → e.id = id → f.id = id → e = f

theorem Agreeing.mono {id : ExecutionId} {events fewer : List ExecutionEvent}
    (h : Agreeing id events) (hsub : fewer ⊆ events) : Agreeing id fewer where
  started e he := h.started e (hsub he)
  finished e f he hf := h.finished e f (hsub he) (hsub hf)

namespace Execution
variable {x : Execution} {a b : ExecutionEvent}

theorem record_inj {x y : Execution} : x.record = y.record → x = y := by
  cases x; cases y
  simp

theorem record_receive_started {e : StartedEvent} (own : e.id = x.record.id)
    (created : x.record.stage = .created) :
    (x.receive (.started e)).record = started x.record e := by
  obtain ⟨y, hy, hrecord⟩ := apply_started created own
  rw [receive_of_apply hy, hrecord]

theorem record_receive_finished {e : FinishedEvent} (own : e.id = x.record.id)
    (going : x.record.stage.isFinal = false) :
    (x.receive (.finished e)).record = finished x.record e := by
  obtain ⟨y, hy, hrecord⟩ := apply_finished going own
  rw [receive_of_apply hy, hrecord]

/-! ### Again -/

theorem receive_of_precedes {y : Execution} (h : x.record.Precedes y.record)
    (hnot : ¬x.record.Awaits a) : y.receive a = y :=
  receive_of_not_awaits fun waits => hnot (h.awaits waits)

theorem not_awaits_receive (x : Execution) (e : ExecutionEvent) :
    ¬(x.receive e).record.Awaits e := by
  intro waits
  cases (precedes_receive x e).awaits waits with
  | started e own created =>
    cases waits with
    | started _ _ created' =>
      rw [record_receive_started own created] at created'
      cases created'
  | finished e own going =>
    cases waits with
    | finished _ _ going' =>
      rw [record_receive_finished own going] at going'
      have hfinal := e.final
      simp_all [finished]

theorem receive_again (x : Execution) (e : ExecutionEvent) :
    (x.receive e).receive e = x.receive e :=
  receive_of_not_awaits (not_awaits_receive x e)

theorem precedes_foldl (x : Execution) (events : List ExecutionEvent) :
    x.record.Precedes (events.foldl receive x).record := by
  induction events generalizing x with
  | nil => exact .refl _
  | cons e events ih => exact (precedes_receive x e).trans (ih (x.receive e))

theorem foldl_receive_again (x : Execution) (early : List ExecutionEvent) (e : ExecutionEvent)
    (middle late : List ExecutionEvent) :
    (early ++ e :: middle ++ e :: late).foldl receive x =
      (early ++ e :: middle ++ late).foldl receive x := by
  simp only [List.foldl_append, List.foldl_cons]
  rw [receive_of_precedes (precedes_foldl _ middle) (not_awaits_receive _ e)]

/-! ### Out of order -/

theorem receive_receive_of_not_awaits (h : ¬x.record.Awaits a) :
    (x.receive a).receive b = (x.receive b).receive a := by
  rw [receive_of_not_awaits h, receive_of_precedes (precedes_receive x b) h]

theorem receive_started_started {e f : StartedEvent} (hpath : e.logsPath = f.logsPath)
    (own : e.id = x.record.id) (own' : f.id = x.record.id) (created : x.record.stage = .created) :
    (x.receive (.started e)).receive (.started f) =
      (x.receive (.started f)).receive (.started e) := by
  -- Either start makes of the execution what the other one does.
  have hsame : x.receive (.started e) = x.receive (.started f) := by
    apply record_inj
    rw [record_receive_started own created, record_receive_started own' created]
    simp only [started, hpath]
  calc (x.receive (.started e)).receive (.started f)
      = x.receive (.started f) := by rw [hsame, receive_again]
    _ = (x.receive (.started f)).receive (.started e) := by rw [← hsame, receive_again]

/-- An end that overtakes the start puts the logs where the start would have put them. -/
theorem receive_started_finished {e : StartedEvent} {f : FinishedEvent}
    (hpath : e.logsPath = .forExecution x.record.id) (own : e.id = x.record.id)
    (own' : f.id = x.record.id) (created : x.record.stage = .created) :
    (x.receive (.started e)).receive (.finished f) =
      (x.receive (.finished f)).receive (.started e) := by
  have hstart := record_receive_started own created
  have hend := record_receive_finished own' (by rw [created]; rfl)
  have hlogs : x.record.logsPath = none :=
    ((ExecutionRecord.validate_eq_ok_iff _).mp x.valid).2.2.2.2.mp created
  have hlate : (x.receive (.finished f)).receive (.started e) = x.receive (.finished f) := by
    apply receive_of_not_awaits
    rintro ⟨-, -, created'⟩
    have hfinal := f.final
    rw [hend] at created'
    rw [show f.stage = .created from created'] at hfinal
    cases hfinal
  apply record_inj
  rw [hlate, hend, record_receive_finished (by rw [hstart]; exact own') (by rw [hstart]; rfl),
    hstart]
  simp only [finished, started, hlogs, hpath, Option.getD_some, Option.getD_none]

theorem receive_comm (h : Agreeing x.record.id [a, b]) :
    (x.receive a).receive b = (x.receive b).receive a := by
  by_cases ha : x.record.Awaits a
  · by_cases hb : x.record.Awaits b
    · cases ha with
      | started e own created =>
        have he := h.started e (by simp) own
        cases hb with
        | started f own' _ =>
          exact receive_started_started (he.trans (h.started f (by simp) own').symm) own own'
            created
        | finished f own' going =>
          exact receive_started_finished he own own' created
      | finished e own going =>
        cases hb with
        | started f own' created =>
          exact (receive_started_finished (h.started f (by simp) own') own' own created).symm
        | finished f own' _ => rw [h.finished e f (by simp) (by simp) own own']
    · exact (receive_receive_of_not_awaits hb).symm
  · exact receive_receive_of_not_awaits ha

theorem foldl_receive_perm {events events' : List ExecutionEvent} (hperm : events.Perm events')
    (h : Agreeing x.record.id events) :
    events.foldl receive x = events'.foldl receive x := by
  induction hperm generalizing x with
  | nil => rfl
  | cons e _ ih =>
    apply ih
    rw [(precedes_receive x e).id]
    exact h.mono (List.subset_cons_self e _)
  | swap a b events =>
    have hpair : Agreeing x.record.id [b, a] := h.mono (by simp)
    have hcomm := receive_comm hpair
    rw [List.foldl_cons, List.foldl_cons, List.foldl_cons, List.foldl_cons, hcomm]
  | trans hperm _ ih ih' =>
    exact (ih h).trans (ih' (h.mono hperm.symm.subset))

/-- An event that has come in has no effect when it comes again, whatever came in between. Where the
events of an execution tell one story, it does not matter in which order they come in, nor what
foreign events come in with them. -/
theorem deliveries_converge (x : Execution) :
    (∀ early e middle late, (early ++ e :: middle ++ e :: late).foldl receive x =
      (early ++ e :: middle ++ late).foldl receive x) ∧
    ∀ events events', Agreeing x.record.id events → events.Perm events' →
      events.foldl receive x = events'.foldl receive x :=
  ⟨foldl_receive_again x, fun _ _ h hperm => foldl_receive_perm hperm h⟩

def dayOne : Instant := ⟨86400, 5, by decide, by decide, by decide, by decide⟩

def unstarted : Execution where
  record :=
    { id := ⟨1⟩, createdAt := dayOne, stage := .created, sourceCodePath := "main.cs"
      language := .cSharp, compiler := .mono, finishedAt := none, exitCode := none
      logsPath := none, failureReason := .none }
  valid := rfl

/-- Its end comes in before its start, and a start of another execution in between. -/
def overtaken : List ExecutionEvent :=
  [.finished ⟨⟨1⟩, dayOne, .completed, 0, .none, rfl, by decide⟩,
    .started ⟨⟨2⟩, dayOne, ⟨"a", "b", "c"⟩⟩, .started ⟨⟨1⟩, dayOne, .forExecution ⟨1⟩⟩]

theorem deliveries_converge_overtaken :
    Agreeing ⟨1⟩ overtaken ∧
    overtaken.foldl receive unstarted = overtaken.reverse.foldl receive unstarted ∧
    (overtaken.foldl receive unstarted).record.stage = .completed := by
  have hagree : Agreeing ⟨1⟩ overtaken := by
    constructor
    · simp [overtaken]
    · simp [overtaken]
  refine ⟨hagree, ?_, by rfl⟩
  exact (deliveries_converge unstarted).2 _ _ hagree overtaken.reverse_perm.symm

end Execution
end SandboxWorker
