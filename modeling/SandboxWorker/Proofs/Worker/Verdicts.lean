import SandboxWorker.Engine.Reply
import SandboxWorker.Proofs.Worker.Breakdowns
import SandboxWorker.Proofs.Worker.Logs
import SandboxWorker.Proofs.Worker.Protocol
/-! The verdict on a run. It failed for want of time just if the deadline cut off the watching of
its container; if not, watching stopped at the first inspection that told the container's end, and
the verdict is on the exit code which that inspection carried. -/
namespace SandboxWorker

namespace EngineReply

/-- An inspection that tells a container's end, with the exit code that it carries: the container is
gone, or its state is one of the final ones or missing. -/
inductive TellsEnd (status : Nat) (body : Bytes) : Option Int64 → Prop where
  | gone (missing : status = 404) : TellsEnd status body none
  | over {container : Json} (success : isSuccess status = true)
    (read : EngineModel.container.readAll body = .ok container)
    (final : (EngineModel.containerState container).status ∈
      [none, some .notFound, some .exited, some .dead]) :
    TellsEnd status body (EngineModel.containerState container).exitCode

theorem mem_final {found : Option ContainerStatus} (h : (found.getD .notFound).isFinal = true) :
    found ∈ [none, some .notFound, some .exited, some .dead] := by
  cases found with
  | none => decide
  | some status => cases status <;> revert h <;> decide

end EngineReply

def InspectReply.isOver (reply : InspectReply) : Bool := reply.container.any (·.isFinal)

theorem EngineReply.tellsEnd_of_isOver {status : Nat} {body : Bytes} {reply : InspectReply}
    (h : ofInspect status body = .ok reply) (hover : reply.isOver = true) :
    TellsEnd status body reply.exitCode := by
  unfold ofInspect at h
  split at h
  · rename_i hmissing
    cases h
    exact .gone hmissing
  · split at h
    · cases h
      cases hover
    · rename_i hrefused
      have hsuccess : isSuccess status = true := by
        simpa using hrefused
      cases hread : EngineModel.container.readAll body with
      | error e =>
        rw [hread] at h
        cases h
      | ok container =>
        rw [hread] at h
        cases h
        have hfinal : ((EngineModel.containerState container).status.getD .notFound).isFinal =
            true := hover
        rw [if_pos hfinal]
        exact .over hsuccess hread (mem_final hfinal)

namespace Worker
open Program
universe v

/-! ### What inspections show -/

def shownBy? {α : Type} : EngineCall α → α → Option InspectReply
  | .inspect _, reply => some reply
  | _, _ => none

def shown? {γ : Type} : Call γ → γ → Option InspectReply
  | .engine c, .ok reply => shownBy? c reply
  | .engineBefore _ c, some (.ok reply) => shownBy? c reply
  | _, _ => none

def shownBy (s : Step Call) : Option InspectReply := shown? s.call s.answer

def shown (steps : List (Step Call)) : List InspectReply := steps.filterMap shownBy

@[simp] theorem shown_append (a b : List (Step Call)) : shown (a ++ b) = shown a ++ shown b :=
  List.filterMap_append

def isKilling {γ : Type} : Call γ → Bool
  | .engine c => c.isKill
  | _ => false

/-- A step that no deadline cut off and that kills no container. -/
def Undisturbed (s : Step Call) : Prop := cutAt s = none ∧ isKilling s.call = false

def Unrelated (s : Step Call) : Prop := Undisturbed s ∧ shownBy s = none

theorem shown_of_unrelated {steps : List (Step Call)} (h : ∀ s ∈ steps, Unrelated s) :
    shown steps = [] :=
  List.filterMap_eq_nil_iff.mpr fun s hs => (h s hs).2

section Watching
variable {r : ContainerRun} {config : WorkerConfig} {deadline looks : Nat}
variable {steps front back : List (Step Call)} {inTime : Bool} {exitCode : Option Int64}

theorem appendLogs_unrelated (bucket : String) (paths : LogsPath) (batch : LogBatch) :
    (appendLogs bucket paths batch).Within Unrelated False :=
  appendLogs_within (fun _ _ => ⟨⟨rfl, rfl⟩, rfl⟩) (fun _ _ _ => ⟨⟨rfl, rfl⟩, rfl⟩)
    (fun _ _ _ _ => ⟨⟨rfl, rfl⟩, rfl⟩) bucket paths batch

theorem announce_unrelated (id : ExecutionId) (inTime : Bool) (exitCode : Option Int64) :
    (announce id inTime exitCode).Within Unrelated False :=
  announce_within (fun _ => ⟨⟨rfl, rfl⟩, rfl⟩) (fun _ _ => ⟨⟨rfl, rfl⟩, rfl⟩)
    (fun _ => ⟨⟨rfl, rfl⟩, rfl⟩) id inTime exitCode

theorem Looked.shown_eq {cursor : Option Instant} {seen : Look}
    (h : Looked r deadline cursor steps (some seen)) :
    (∀ s ∈ steps, Undisturbed s) ∧ ∃ reply, shown steps = [reply] ∧
      reply.container = some seen.status ∧ reply.exitCode = seen.exitCode := by
  cases h with
  | @read inspected status fetched appends stands success appended =>
    have hrest := (appendLogs_unrelated _ _ _).of_runs appended
    refine ⟨?_, inspected, ?_, stands, rfl⟩
    · simp only [List.forall_mem_cons]
      exact ⟨⟨rfl, rfl⟩, ⟨rfl, rfl⟩, fun s hs => (hrest s hs).1⟩
    · change inspected :: shown appends = [inspected]
      rw [shown_of_unrelated hrest]
  | @gone inspected status fetched stands refused =>
    refine ⟨?_, inspected, rfl, stands, rfl⟩
    simp only [List.forall_mem_cons]
    exact ⟨⟨rfl, rfl⟩, ⟨rfl, rfl⟩, List.forall_mem_nil _⟩

/-- The deadline cut off the last of these steps, and nothing disturbed those before it. -/
def CutShort (deadline : Nat) (steps : List (Step Call)) : Prop :=
  ∃ watched s, steps = watched ++ [s] ∧ cutAt s = some deadline ∧ ∀ t ∈ watched, Undisturbed t

theorem Looked.cutShort {cursor : Option Instant} (h : Looked r deadline cursor steps none) :
    CutShort deadline steps := by
  cases h with
  | late => exact ⟨[], _, rfl, rfl, List.forall_mem_nil _⟩
  | cut inspected =>
    refine ⟨[_], _, rfl, rfl, fun t ht => ?_⟩
    rw [List.mem_singleton.mp ht]
    exact ⟨rfl, rfl⟩

theorem CutShort.append_left (h : CutShort deadline steps) (hfront : ∀ s ∈ front, Undisturbed s) :
    CutShort deadline (front ++ steps) := by
  obtain ⟨watched, s, rfl, hcut, hwatched⟩ := h
  exact ⟨front ++ watched, s, by simp, hcut, List.forall_mem_append.mpr ⟨hfront, hwatched⟩⟩

/-- Nothing disturbed these steps, and of their inspections the last one, and no other, told the end
of the container. -/
structure SeenToEnd (steps : List (Step Call)) (exitCode : Option Int64) : Prop where
  undisturbed : ∀ s ∈ steps, Undisturbed s
  ended : ∃ before reply, shown steps = before ++ [reply] ∧ (∀ b ∈ before, b.isOver = false) ∧
    reply.isOver = true ∧ reply.exitCode = exitCode

theorem SeenToEnd.append_left (h : SeenToEnd steps exitCode)
    (hfront : ∀ s ∈ front, Undisturbed s) (hgoing : ∀ b ∈ shown front, b.isOver = false) :
    SeenToEnd (front ++ steps) exitCode where
  undisturbed := List.forall_mem_append.mpr ⟨hfront, h.undisturbed⟩
  ended := by
    obtain ⟨before, reply, hshown, hbefore, hreply⟩ := h.ended
    refine ⟨shown front ++ before, reply, ?_, List.forall_mem_append.mpr ⟨hgoing, hbefore⟩, hreply⟩
    rw [shown_append, hshown, List.append_assoc]

theorem SeenToEnd.cons {s : Step Call} (hs : Unrelated s) (h : SeenToEnd steps exitCode) :
    SeenToEnd (s :: steps) exitCode := by
  have hfront : ∀ t ∈ [s], Unrelated t := fun t ht => by rwa [List.mem_singleton.mp ht]
  refine h.append_left (fun t ht => (hfront t ht).1) ?_
  rw [shown_of_unrelated hfront]
  exact List.forall_mem_nil _

theorem SeenToEnd.append_unrelated (h : SeenToEnd steps exitCode)
    (hback : ∀ s ∈ back, Unrelated s) : SeenToEnd (steps ++ back) exitCode where
  undisturbed := List.forall_mem_append.mpr ⟨h.undisturbed, fun s hs => (hback s hs).1⟩
  ended := by
    rw [shown_append, shown_of_unrelated hback, List.append_nil]
    exact h.ended

def Went (deadline : Nat) (steps : List (Step Call)) : Completion → Prop
  | .inTime exitCode => SeenToEnd steps exitCode
  | .timedOut _ => CutShort deadline steps

theorem Went.append_left {completion : Completion} (h : Went deadline steps completion)
    (hfront : ∀ s ∈ front, Undisturbed s) (hgoing : ∀ b ∈ shown front, b.isOver = false) :
    Went deadline (front ++ steps) completion := by
  cases completion with
  | inTime exitCode => exact SeenToEnd.append_left h hfront hgoing
  | timedOut cursor => exact CutShort.append_left h hfront

theorem monitor_went {cursor : Option Instant} {completion : Completion}
    (h : (monitor r deadline looks cursor).Runs steps (some (.ok completion))) :
    Went deadline steps completion := by
  -- On the looks that are left: a look that does not end watching goes in front of the rest.
  induction looks generalizing cursor steps with
  | zero => cases (Work.runs_unfinished.mp h).2
  | succ looks ih =>
    rw [monitor] at h
    obtain ⟨seen, first, second, rfl, hlook, hsecond⟩ := Work.runs_bind_ok.mp h
    have hlooked := look_looked hlook
    cases seen with
    | none =>
      obtain ⟨rfl, hresult⟩ := Work.runs_pure.mp hsecond
      cases hresult
      rw [List.append_nil]
      exact hlooked.cutShort
    | some seen =>
      obtain ⟨hfirst, reply, hshown, hstands, hcode⟩ := hlooked.shown_eq
      have hover : reply.isOver = seen.status.isFinal := by
        rw [InspectReply.isOver, hstands]
        rfl
      dsimp only at hsecond
      split at hsecond
      · rename_i hfinal
        obtain ⟨rfl, hresult⟩ := Work.runs_pure.mp hsecond
        cases hresult
        rw [List.append_nil]
        exact ⟨hfirst, [], reply, hshown, List.forall_mem_nil _, hover.trans hfinal, hcode⟩
      · rename_i hgoing
        obtain ⟨rested, rest, rfl, hrest⟩ := Work.runs_ask_bind.mp hsecond
        split at hrest
        · rename_i hrested
          have hlook : ∀ s ∈ first ++ [⟨.restBefore deadline r.interval, rested⟩],
              Undisturbed s := by
            refine List.forall_mem_append.mpr ⟨hfirst, fun s hs => ?_⟩
            rw [List.mem_singleton.mp hs, hrested]
            exact ⟨rfl, rfl⟩
          have hreplies : ∀ b ∈ shown (first ++ [⟨.restBefore deadline r.interval, rested⟩]),
              b.isOver = false := by
            intro b hb
            rw [shown_append, hshown] at hb
            rw [List.mem_singleton.mp hb, hover]
            exact Bool.eq_false_iff.mpr hgoing
          rw [← List.singleton_append, ← List.append_assoc]
          exact (ih hrest).append_left hlook hreplies
        · rename_i hrested
          obtain ⟨rfl, hresult⟩ := Work.runs_pure.mp hrest
          cases hresult
          rw [Bool.eq_false_iff.mpr hrested]
          exact CutShort.append_left ⟨[], _, rfl, rfl, List.forall_mem_nil _⟩ hfirst

/-! ### The run -/

/-- The time for an execution, counted from a reading of the clock, ran out on a step before any
container was killed. -/
def RanOut (config : WorkerConfig) (steps : List (Step Call)) : Prop :=
  ∃ early now watched s late, steps = early ++ ⟨.clock, now⟩ :: (watched ++ s :: late) ∧
    (∀ t ∈ early ++ watched, isKilling t.call = false) ∧
    cutAt s = some (now + config.runner.executionTimeout)

theorem RanOut.append_left (h : RanOut config steps)
    (hfront : ∀ s ∈ front, isKilling s.call = false) : RanOut config (front ++ steps) := by
  obtain ⟨early, now, watched, s, late, rfl, halive, hcut⟩ := h
  refine ⟨front ++ early, now, watched, s, late, by simp, ?_, hcut⟩
  rw [List.append_assoc]
  exact List.forall_mem_append.mpr ⟨hfront, halive⟩

theorem RanOut.append_right (h : RanOut config steps) (back : List (Step Call)) :
    RanOut config (steps ++ back) := by
  obtain ⟨early, now, watched, s, late, rfl, halive, hcut⟩ := h
  exact ⟨early, now, watched, s, late ++ back, by simp, halive, hcut⟩

theorem CutShort.ranOut {now : Nat}
    (h : CutShort (now + config.runner.executionTimeout) steps) (late : List (Step Call)) :
    RanOut config (⟨.clock, now⟩ :: (steps ++ late)) := by
  obtain ⟨watched, s, rfl, hcut, hwatched⟩ := h
  exact ⟨[], now, watched, s, late, by simp, fun t ht => (hwatched t ht).2, hcut⟩

theorem SeenToEnd.not_ranOut (h : SeenToEnd steps exitCode) : ¬RanOut config steps := by
  rintro ⟨early, now, watched, s, late, rfl, -, hcut⟩
  rw [(h.undisturbed s (by simp)).1] at hcut
  cases hcut

/-- What the steps of a run show of how it ended. -/
def Concludes (config : WorkerConfig) (steps : List (Step Call)) (inTime : Bool)
    (exitCode : Option Int64) : Prop :=
  if inTime then SeenToEnd steps exitCode else RanOut config steps

theorem Concludes.cons {s : Step Call} (hs : Unrelated s)
    (h : Concludes config steps inTime exitCode) :
    Concludes config (s :: steps) inTime exitCode := by
  cases inTime with
  | true => exact SeenToEnd.cons hs h
  | false => exact RanOut.append_left h (List.forall_mem_singleton.mpr hs.1.2)

theorem Concludes.append_unrelated (h : Concludes config steps inTime exitCode)
    (hback : ∀ s ∈ back, Unrelated s) : Concludes config (steps ++ back) inTime exitCode := by
  cases inTime with
  | true => exact SeenToEnd.append_unrelated h hback
  | false => exact RanOut.append_right h back

theorem complete_concludes
    (h : (complete r looks).Runs steps (some (.ok (inTime, exitCode)))) :
    Concludes r.config steps inTime exitCode := by
  obtain ⟨now, rest, rfl, hrest⟩ := Work.runs_ask_bind.mp h
  obtain ⟨completion, watched, after, rfl, hwatch, hafter⟩ := Work.runs_bind_ok.mp hrest
  have hwent := monitor_went hwatch
  cases completion with
  | inTime code =>
    obtain ⟨rfl, hresult⟩ := Work.runs_pure.mp hafter
    cases hresult
    rw [List.append_nil]
    exact SeenToEnd.cons ⟨⟨rfl, rfl⟩, rfl⟩ hwent
  | timedOut cursor =>
    obtain ⟨rest, rfl, hkilled⟩ := Work.runs_log_bind.mp hafter
    obtain ⟨code, killed, _, rfl, -, hcollect⟩ := Work.runs_bind_ok.mp hkilled
    obtain ⟨_, reading, _, rfl, -, hreturn⟩ := Work.runs_bind_ok.mp hcollect
    cases (Work.runs_pure.mp hreturn).2
    exact CutShort.ranOut hwent _

/-- A run that succeeds tells one event, the verdict on what its steps show. -/
theorem runContainer_concludes {archive : Bytes}
    (h : (runContainer r looks archive).Runs steps (some (.ok ()))) :
    ∃ inTime exitCode now event, told steps = [.finished event] ∧
      verdictEvent r.id now inTime exitCode = .ok event ∧
      Concludes r.config steps inTime exitCode := by
  obtain ⟨copied, rest, rfl, hcopied⟩ := Work.runs_engine_bind_ok.mp h
  obtain ⟨-, hcopied⟩ := Work.runs_ensure_bind_ok.mp hcopied
  obtain ⟨started, rest, rfl, hstarted⟩ := Work.runs_engine_bind_ok.mp hcopied
  obtain ⟨-, hstarted⟩ := Work.runs_ensure_bind_ok.mp hstarted
  obtain ⟨⟨inTime, exitCode⟩, watched, after, rfl, hwatch, hannounce⟩ :=
    Work.runs_bind_ok.mp hstarted
  have hquiet := (announce_unrelated r.id inTime exitCode).of_runs hannounce
  have hasides := Asides.of_chores ((complete_chores r looks).of_runs hwatch)
  have hconcludes := complete_concludes hwatch
  obtain ⟨now, event, answer, rest, rfl, hevent, hrest, hresult⟩ := announce_runs hannounce
  cases Work.mapError_eq_ok.mp (Option.some.inj hresult).symm
  refine ⟨inTime, exitCode, now, event, ?_, hevent, ?_⟩
  · change told ([_, _] ++ (watched ++ ([_] ++ (_ :: rest)))) = _
    rw [told_append, told_append, told_append, told_cons_sent, hasides.told_eq, hrest.told_eq]
    rfl
  · exact .cons ⟨⟨rfl, rfl⟩, rfl⟩ (.cons ⟨⟨rfl, rfl⟩, rfl⟩ (hconcludes.append_unrelated hquiet))

end Watching

/-! ### The verdict -/

def Tells (event : FinishedEvent) (stage : Stage) (reason : FailureReason) (exitCode : Int64) :
    Prop :=
  event.stage = stage ∧ event.failureReason = reason ∧ event.exitCode = exitCode

theorem tells_iff_of_inTime {id : ExecutionId} {now : Instant} {exitCode : Option Int64}
    {event : FinishedEvent} (h : verdictEvent id now true exitCode = .ok event) :
    (Tells event .completed .none 0 ↔ exitCode = some 0) ∧
    (∀ code, code ≠ 0 → (Tells event .failed .nonZeroExitCode code ↔ exitCode = some code)) ∧
    (Tells event .failed .internalError (-1) ↔ exitCode = none) := by
  obtain ⟨-, hstage, hreason, hcode⟩ := fields_of_verdictEvent h
  unfold Tells
  rw [hstage, hreason, hcode]
  cases exitCode with
  | none => simp [Verdict.classify, Verdict.failed, FinishedEvent.noExitCode]
  | some code =>
    by_cases hzero : code = 0
    · simpa [Verdict.classify, hzero] using fun code hne heq => hne heq.symm
    · simp [Verdict.classify, Verdict.failed, hzero]

theorem succeeds_of_told {r : ContainerRun} {looks : Nat} {archive : Bytes}
    {steps : List (Step Call)} {result : Option (Except Failure Unit)} {event : FinishedEvent}
    (h : (runContainer r looks archive).Runs steps result) (htold : .finished event ∈ told steps) :
    result = some (.ok ()) := by
  cases runContainer_ends h with
  | broken asides e =>
    rw [asides.told_eq] at htold
    cases htold
  | left asides looked =>
    rw [asides.told_eq] at htold
    cases htold
  | announced outcome asides answer asides_after =>
    cases answer with
    | ok u => rfl
    | error e =>
      rw [told_append, told_cons_unsent, asides.told_eq, asides_after.told_eq] at htold
      cases htold

/-- Whatever the engine answers and wherever the deadline falls, running a container never fails for
want of a verdict. The verdict is that time ran out just if the deadline cut off a step of watching
the container. If it did not, watching ended with the first inspection that told the end of the
container, and the verdict is on the exit code that this inspection carried. -/
theorem verdict_of_run (r : ContainerRun) (looks : Nat) (archive : Bytes) {σ : Type v}
    (answer : {γ : Type} → Call γ → σ → γ × σ) (s : σ) :
    let run := (runContainer r looks archive).run
    let steps := run.trace answer s
    (∀ reply ∈ shown steps, ∃ status body, EngineReply.ofInspect status body = .ok reply) →
    (∀ reason, (run.run answer s).1 ≠ some (.error (.domain reason))) ∧
    ∀ event, .finished event ∈ told steps → event.id = r.id ∧
      (event.stage = .failed ∧ event.failureReason = .timeLimitExceeded ↔
        RanOut r.config steps) ∧
      (¬RanOut r.config steps → ∃ before reply status body, shown steps = before ++ [reply] ∧
        (∀ b ∈ before, b.isOver = false) ∧ EngineReply.ofInspect status body = .ok reply ∧
        EngineReply.TellsEnd status body reply.exitCode ∧
        (Tells event .completed .none 0 ↔ reply.exitCode = some 0) ∧
        (∀ code, code ≠ 0 →
          (Tells event .failed .nonZeroExitCode code ↔ reply.exitCode = some code)) ∧
        (Tells event .failed .internalError (-1) ↔ reply.exitCode = none)) := by
  intro run steps hread
  have hruns : (runContainer r looks archive).Runs steps (run.run answer s).1 :=
    runs_trace answer run s
  refine ⟨fun reason hfailed => ?_, fun event htold => ?_⟩
  · rw [hfailed] at hruns
    exact runContainer_agrees r looks archive steps reason hruns
  · rw [succeeds_of_told hruns htold] at hruns
    obtain ⟨inTime, exitCode, now, event', htold', hevent, hconcludes⟩ :=
      runContainer_concludes hruns
    rw [htold'] at htold
    cases List.mem_singleton.mp htold
    refine ⟨(fields_of_verdictEvent hevent).1, ?_, fun hinTime => ?_⟩
    · cases inTime with
      | true =>
        refine ⟨fun h => ?_, fun h => absurd h (SeenToEnd.not_ranOut hconcludes)⟩
        cases (failureReason_of_verdictEvent hevent).mp h.2
      | false =>
        obtain ⟨-, hstage, hreason, -⟩ := fields_of_verdictEvent hevent
        exact ⟨fun _ => hconcludes, fun _ => ⟨hstage, hreason⟩⟩
    · cases inTime with
      | false => exact absurd hconcludes hinTime
      | true =>
        obtain ⟨before, reply, hshown, hbefore, hover, rfl⟩ := SeenToEnd.ended hconcludes
        obtain ⟨status, body, hreply⟩ := hread reply (by simp [hshown])
        exact ⟨before, reply, status, body, hshown, hbefore, hreply,
          EngineReply.tellsEnd_of_isOver hreply hover, tells_iff_of_inTime hevent⟩

/-! ### A container that ends with an exit code -/

def stateBody (status : String) (exitCode : Int) : Bytes :=
  Utf8.encodeChars
    (Json.obj [("State", .obj [("Status", .str status), ("ExitCode", .int exitCode)])]).text

def runningBody : Bytes := stateBody "running" 0

def exitedBody : Bytes := stateBody "exited" 3

/-- The container runs at the first look and has ended at the second. The state counts the looks. -/
def ending {γ : Type} : Call γ → Nat → γ × Nat
  | .engineBefore _ (.inspect _), n =>
    (some (EngineReply.ofInspect 200 (if n = 0 then runningBody else exitedBody)), n + 1)
  | .engineBefore _ (.logs _ since), n => (some (.ok ⟨200, .ofFrames since []⟩), n)
  | c, n => overdue c n

def endingRun : Work Unit := runContainer ⟨overdueConfig, ⟨0⟩, "c"⟩ 3 []

theorem ending_shown : shown (endingRun.run.trace ending 0) =
    [⟨200, some .running, none⟩, ⟨200, some .exited, some 3⟩] := by
  decide +kernel

theorem ending_read : ∀ reply ∈ shown (endingRun.run.trace ending 0),
    ∃ status body, EngineReply.ofInspect status body = .ok reply := by
  rw [ending_shown]
  simp only [List.forall_mem_cons]
  exact ⟨⟨200, runningBody, toOption_eq_some.mp (by decide +kernel)⟩,
    ⟨200, exitedBody, toOption_eq_some.mp (by decide +kernel)⟩, List.forall_mem_nil _⟩

theorem ending_undisturbed : ∀ s ∈ endingRun.run.trace ending 0, cutAt s = none := by
  decide +kernel

theorem ending_tells : ∃ event, .finished event ∈ told (endingRun.run.trace ending 0) := by
  have hsome : (told (endingRun.run.trace ending 0)).any (·.kind = .finished) = true := by
    decide +kernel
  obtain ⟨event, hmem, hkind⟩ := List.any_eq_true.mp hsome
  cases event with
  | finished event => exact ⟨event, hmem⟩
  | _ => cases of_decide_eq_true hkind

theorem verdict_of_run_ending :
    (∀ reply ∈ shown (endingRun.run.trace ending 0),
      ∃ status body, EngineReply.ofInspect status body = .ok reply) ∧
    ∃ event, .finished event ∈ told (endingRun.run.trace ending 0) ∧
      Tells event .failed .nonZeroExitCode 3 := by
  obtain ⟨event, htold⟩ := ending_tells
  obtain ⟨-, hverdict⟩ := verdict_of_run ⟨overdueConfig, ⟨0⟩, "c"⟩ 3 [] ending 0 ending_read
  have hinTime : ¬RanOut overdueConfig (endingRun.run.trace ending 0) := by
    rintro ⟨early, now, watched, s, late, hsteps, -, hcut⟩
    rw [ending_undisturbed s (by simp [hsteps])] at hcut
    cases hcut
  obtain ⟨before, reply, status, body, hshown, -, -, -, -, hcode, -⟩ :=
    (hverdict event htold).2.2 hinTime
  have hlast : some reply = some ⟨200, some .exited, some 3⟩ := by
    have hlast := congrArg List.getLast? (hshown.symm.trans ending_shown)
    rwa [List.getLast?_concat] at hlast
  cases hlast
  exact ⟨ending_read, event, htold, (hcode 3 (by decide)).mpr rfl⟩

end Worker
end SandboxWorker
