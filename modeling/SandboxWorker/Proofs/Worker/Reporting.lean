import SandboxWorker.Proofs.Execution.Replay
import SandboxWorker.Proofs.Worker.Deadline
/-! What the queue of responses hears of a delivery: nothing, a start, an end, or a start and an
end, and always something that an execution just created can follow. The end is heard of unless no
attempt at telling it got across. -/
namespace SandboxWorker.Worker
open Program
universe v

/-- A start or none, and then an end or none. -/
def account (start : Option StartedEvent) (finish : Option FinishedEvent) : List ExecutionEvent :=
  start.toList.map .started ++ finish.toList.map .finished

theorem finished_mem_account {start : Option StartedEvent} {finish : Option FinishedEvent}
    {f : FinishedEvent} : .finished f ∈ account start finish ↔ finish = some f := by
  simp [account]

theorem id_of_mem_account {id : ExecutionId} {start : Option StartedEvent}
    {finish : Option FinishedEvent} (hstart : ∀ e ∈ start, e.id = id)
    (hfinish : ∀ f ∈ finish, f.id = id) {e : ExecutionEvent} (he : e ∈ account start finish) :
    e.id = id := by
  rcases List.mem_append.mp he with he | he
  · obtain ⟨a, ha, rfl⟩ := List.mem_map.mp he
    exact hstart a (Option.mem_toList.mp ha)
  · obtain ⟨a, ha, rfl⟩ := List.mem_map.mp he
    exact hfinish a (Option.mem_toList.mp ha)

/-- An execution just created follows a start or none. After that it is not final, and has its logs
in place if it was started. -/
theorem replay_start {x : Execution} {start : Option StartedEvent}
    (created : x.record.stage = .created)
    (hstart : ∀ e ∈ start, e.id = x.record.id ∧ e.logsPath = .forExecution x.record.id) :
    ∃ w, x.replay (account start none) = .ok w ∧ w.record.id = x.record.id ∧
      w.record.stage.isFinal = false ∧
      w.record.logsPath = if start.isSome then some (.forExecution x.record.id) else none := by
  cases start with
  | none =>
    have hx := (ExecutionRecord.validate_eq_ok_iff _).mp x.valid
    exact ⟨x, rfl, rfl, by rw [created]; rfl, hx.2.2.2.2.mp created⟩
  | some e =>
    obtain ⟨own, place⟩ := hstart e rfl
    obtain ⟨w, hw, hrecord⟩ := Execution.apply_started created own
    have hreplay : x.replay (account (some e) none) = .ok w := by
      show x.apply (.started e) >>= pure = .ok w
      rw [hw]
      rfl
    refine ⟨w, hreplay, ?_⟩
    rw [hrecord, ← place]
    exact ⟨rfl, rfl, rfl⟩

theorem replay_account {x : Execution} {start : Option StartedEvent} {finish : Option FinishedEvent}
    (created : x.record.stage = .created)
    (hstart : ∀ e ∈ start, e.id = x.record.id ∧ e.logsPath = .forExecution x.record.id)
    (hfinish : ∀ f ∈ finish, f.id = x.record.id) :
    ∃ y, x.replay (account start finish) = .ok y ∧
      (y.record.stage.isFinal = true ↔ finish.isSome = true) ∧
      (account start finish ≠ [] → y.record.logsPath = some (.forExecution x.record.id)) := by
  obtain ⟨w, hw, hid, hgoing, hlogs⟩ := replay_start created hstart
  cases finish with
  | none =>
    refine ⟨w, hw, by simp [hgoing], fun hne => ?_⟩
    cases start with
    | none => exact absurd rfl hne
    | some e => exact hlogs
  | some f =>
    have own : f.id = w.record.id := (hfinish f rfl).trans hid.symm
    obtain ⟨y, hy, hrecord⟩ := Execution.apply_finished hgoing own
    have hreplay : x.replay (account start (some f)) = .ok y := by
      have happend : account start (some f) = account start none ++ [.finished f] := by
        simp [account]
      rw [happend, Execution.replay, List.foldlM_append]
      change x.replay (account start none) >>= _ = _
      rw [hw]
      show w.apply (.finished f) >>= pure = .ok y
      rw [hy]
      rfl
    refine ⟨y, hreplay, ?_, fun _ => ?_⟩
    · rw [hrecord]
      simpa [Execution.finished] using f.final
    · rw [hrecord]
      simp only [Execution.finished, hlogs, hid]
      cases start <;> rfl

/-- The end of the execution was tried to be told, and no try got across. -/
def Unheard (steps : List (Step Call)) : Prop :=
  (∃ f, .finished f ∈ attempted steps) ∧
  ∀ s ∈ steps, ∀ f, attemptedBy s = some (.finished f) → isSent s.call s.answer = false

theorem unheard_of_not_told {steps : List (Step Call)} (htried : ∃ f, .finished f ∈ attempted steps)
    (htold : ∀ f, .finished f ∉ told steps) : Unheard steps := by
  refine ⟨htried, fun s hs f hf => ?_⟩
  cases hsent : isSent s.call s.answer with
  | false => rfl
  | true =>
    have htoldBy : toldBy s = some (.finished f) := by
      rw [toldBy, hsent, if_pos rfl]
      exact hf
    exact absurd (List.mem_filterMap.mpr ⟨s, hs, htoldBy⟩) (htold f)

section Telling
variable {config : WorkerConfig} {looks tag : Nat} {id : ExecutionId} {steps : List (Step Call)}

theorem Outcome.id_eq {event : FinishedEvent} (h : Outcome config looks id steps event) :
    event.id = id := by
  obtain ⟨-, -, -, inTime, exitCode, now, -, -, hevent⟩ := h
  exact (fields_of_verdictEvent hevent).1

theorem Ending.told_eq {result : Option (Except Failure Unit)}
    (h : Ending config looks id steps result) :
    (told steps = [] ∧ result ≠ some (.ok ())) ∨
    ∃ f, f.id = id ∧ told steps = [.finished f] ∧ result = some (.ok ()) := by
  cases h with
  | broken asides e => exact .inl ⟨asides.told_eq, by simp⟩
  | left asides looked => exact .inl ⟨asides.told_eq, by simp⟩
  | @announced before after event outcome asides answer asides_after =>
    cases answer with
    | ok a => exact .inr ⟨event, outcome.id_eq, by simp [asides.told_eq, asides_after.told_eq], rfl⟩
    | error q =>
      exact .inl ⟨by simp [asides.told_eq, asides_after.told_eq], fun hresult => by cases hresult⟩

theorem Course.told_eq {result : Option (Except Failure Unit)}
    (h : Course config looks id steps result) :
    ∃ start : Option StartedEvent, (∀ e ∈ start, e.id = id ∧ e.logsPath = .forExecution id) ∧
      ((told steps = account start none ∧ result ≠ some (.ok ())) ∨
      ∃ f, f.id = id ∧ told steps = account start (some f) ∧ result = some (.ok ())) := by
  cases h with
  | unstarted asides e => exact ⟨none, by simp, .inl ⟨asides.told_eq, by simp⟩⟩
  | unsent asides now e =>
    exact ⟨none, by simp, .inl ⟨by simp [asides.told_eq, account], by simp⟩⟩
  | @started before after _ asides now ending =>
    refine ⟨some ⟨id, now, .forExecution id⟩, by simp, ?_⟩
    rw [told_append, asides.told_eq, told_cons_sent]
    obtain ⟨htold, hresult⟩ | ⟨f, hid, htold, hresult⟩ := ending.told_eq
    · exact .inl ⟨by rw [htold]; rfl, hresult⟩
    · exact .inr ⟨f, hid, by rw [htold]; rfl, hresult⟩

theorem Course.looked {result : Option (Except Failure Unit)}
    (h : Course config looks id steps result) (hresult : result = none) :
    looks ≤ inspections steps := by
  cases h with
  | unstarted asides e => cases hresult
  | unsent asides now e => cases hresult
  | started asides now ending =>
    cases ending with
    | broken asides e => cases hresult
    | announced outcome asides answer asides_after => cases hresult
    | left asides looked =>
      rw [inspections_append, inspections_cons]
      exact Nat.le_add_left_of_le (Nat.le_add_right_of_le looked)

theorem Closing.told_eq {outcome : Except Failure Unit} (h : Closing tag id outcome steps) :
    (outcome = .ok () ∧ told steps = []) ∨
    (∃ e, outcome = .error e) ∧ (∃ f, .finished f ∈ attempted steps) ∧
      ∃ finish : Option FinishedEvent, (∀ f ∈ finish, f.id = id) ∧
        told steps = account none finish := by
  cases h with
  | acknowledged answer asides => exact .inl ⟨rfl, by simp [asides.told_eq]⟩
  | rejected e asides answer asides_middle now sent asides_after =>
    refine .inr ⟨⟨e, rfl⟩, ⟨.internalError id now, ?_⟩, ?_⟩
    · rw [attempted_append, attempted_cons_reject, attempted_append, attempted_cons_send]
      exact List.mem_append_right _ (List.mem_append_right _ List.mem_cons_self)
    cases sent with
    | ok a =>
      refine ⟨some (.internalError id now), by simp [FinishedEvent.internalError], ?_⟩
      simp [asides.told_eq, asides_middle.told_eq, asides_after.told_eq, account]
    | error q =>
      refine ⟨none, by simp, ?_⟩
      simp [asides.told_eq, asides_middle.told_eq, asides_after.told_eq, account]

/-- A run on a request accounts for it, and a missing end was tried to be told or the run was
left. -/
theorem handle_account {d : Queue.Delivery} {request : RequestedEvent} {result : Option Unit}
    (hd : requestOf d.content = some request) (h : (handle config looks d).Runs steps result) :
    ∃ start finish, told steps = account start finish ∧
      (∀ e ∈ start, e.id = request.id ∧ e.logsPath = .forExecution request.id) ∧
      (∀ f ∈ finish, f.id = request.id) ∧
      (finish = none → Unheard steps ∨ (result = none ∧ looks ≤ inspections steps)) := by
  rcases handle_runs hd h with ⟨rfl, course⟩ | ⟨outcome, first, closing, rfl, rfl, course, hclosing⟩
  · obtain ⟨start, hstart, ⟨htold, -⟩ | ⟨f, -, -, hresult⟩⟩ := course.told_eq
    · exact ⟨start, none, htold, hstart, by simp, fun _ => .inr ⟨rfl, course.looked rfl⟩⟩
    · cases hresult
  · obtain ⟨start, hstart, hcourse⟩ := course.told_eq
    rcases hclosing.told_eq with ⟨rfl, hsettled⟩ | ⟨⟨e, rfl⟩, htried, finish, hfinish, hsettled⟩
    · rcases hcourse with ⟨-, hresult⟩ | ⟨f, hid, htold, -⟩
      · exact absurd rfl hresult
      · refine ⟨start, some f, ?_, hstart, by simp [hid], by simp⟩
        rw [told_append, htold, hsettled, List.append_nil]
    · rcases hcourse with ⟨htold, -⟩ | ⟨f, -, -, hresult⟩
      · have happend : told (first ++ closing) = account start finish := by
          rw [told_append, htold, hsettled]
          simp [account]
        refine ⟨start, finish, happend, hstart, hfinish, fun hnone => .inl ?_⟩
        obtain ⟨f, hf⟩ := htried
        refine unheard_of_not_told ⟨f, ?_⟩ fun g hg => ?_
        · rw [attempted_append]
          exact List.mem_append_right _ hf
        · rw [happend, finished_mem_account, hnone] at hg
          cases hg
      · cases hresult

end Telling

/-- Every run of handling a delivery tells the queue of responses an account of its request and
nothing else, and tells nothing where there is no request. The end is missing from it only if every
try at telling it failed. Only a run that never stopped looking at its container is left, and none
is where the clock goes on and a worker may look often enough. -/
theorem told_handle (config : WorkerConfig) (looks : Nat) (d : Queue.Delivery) {σ : Type v}
    (answer : {γ : Type} → Call γ → σ → γ × σ) (s : σ) :
    let steps := (handle config looks d).trace answer s
    let result := ((handle config looks d).run answer s).1
    match requestOf d.content with
    | none => told steps = []
    | some request =>
      (∃ start finish, told steps = account start finish) ∧
      (∀ e ∈ told steps, e.id = request.id) ∧
      ((∃ f, .finished f ∈ told steps) ∨ Unheard steps ∨
        (result = none ∧ looks ≤ inspections steps ∧
          ∀ (clock : σ → Nat) (pace : Nat), Ticking answer clock pace s →
            ¬Ample config looks pace)) ∧
      ∀ x : Execution, x.record.id = request.id → x.record.stage = .created →
        ∃ y, x.replay (told steps) = .ok y ∧
          (y.record.stage.isFinal = true ↔ ∃ f, .finished f ∈ told steps) ∧
          (told steps ≠ [] → y.record.logsPath = some (.forExecution request.id)) := by
  intro steps result
  have hruns : (handle config looks d).Runs steps result := runs_trace answer _ s
  cases hd : requestOf d.content with
  | none =>
    obtain ⟨before, a, after, hsteps, hbefore, hafter, -⟩ := handle_runs_of_no_request hd hruns
    show told steps = []
    rw [hsteps, told_append, told_cons_reject, hbefore.asides.told_eq, hafter.asides.told_eq]
    rfl
  | some request =>
    obtain ⟨start, finish, htold, hstart, hfinish, hmissing⟩ := handle_account hd hruns
    refine ⟨⟨start, finish, htold⟩, fun e he => ?_, ?_, fun x hid created => ?_⟩
    · rw [htold] at he
      exact id_of_mem_account (fun e he => (hstart e he).1) hfinish he
    · cases hf : finish with
      | none =>
        refine .inr ((hmissing hf).imp_right fun ⟨hnone, hlooked⟩ => ⟨hnone, hlooked, ?_⟩)
        exact fun clock pace hticking ample => handle_ends hticking ample d hnone
      | some f =>
        refine .inl ⟨f, ?_⟩
        rw [htold, finished_mem_account, hf]
    · rw [← hid] at hstart hfinish ⊢
      obtain ⟨y, hy, hfinal, hlogs⟩ := replay_account created hstart hfinish
      rw [htold]
      refine ⟨y, hy, hfinal.trans ?_, hlogs⟩
      simp only [finished_mem_account]
      exact Option.isSome_iff_exists

end SandboxWorker.Worker
