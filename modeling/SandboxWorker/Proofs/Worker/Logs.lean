import SandboxWorker.Proofs.Success
import SandboxWorker.Proofs.Worker.Dialogue
import SandboxWorker.Proofs.Worker.Following
/-! The logs of an execution hold exactly what was read of its container's output, each of the three
the same batches in the same order, wherever the deadline falls. -/
namespace SandboxWorker.Worker
open Program Storage
universe v

/-! ### One look -/

inductive Looked (r : ContainerRun) (deadline : Nat) (cursor : Option Instant) :
    List (Step Call) → Option Look → Prop where
  /-- The deadline came before it was known how the container stands. -/
  | late : Looked r deadline cursor [⟨.engineBefore deadline (.inspect r.container), none⟩] none
  /-- The deadline came before its output was read. -/
  | cut (inspected : InspectReply) :
    Looked r deadline cursor
      [⟨.engineBefore deadline (.inspect r.container), some (.ok inspected)⟩,
        ⟨.engineBefore deadline (.logs r.container cursor), none⟩] none
  | read {inspected : InspectReply} {status : ContainerStatus} {fetched : LogsReply}
    {appends : List (Step Call)} (stands : inspected.container = some status)
    (success : isSuccess fetched.status = true)
    (appended : (appendLogs r.bucket r.paths fetched.logs).Runs appends (some (.ok ()))) :
    Looked r deadline cursor
      (⟨.engineBefore deadline (.inspect r.container), some (.ok inspected)⟩ ::
        ⟨.engineBefore deadline (.logs r.container cursor), some (.ok fetched)⟩ :: appends)
      (some ⟨status, inspected.exitCode, fetched.logs.lastTimestamp⟩)
  | gone {inspected : InspectReply} {status : ContainerStatus} {fetched : LogsReply}
    (stands : inspected.container = some status) (refused : isSuccess fetched.status = false) :
    Looked r deadline cursor
      [⟨.engineBefore deadline (.inspect r.container), some (.ok inspected)⟩,
        ⟨.engineBefore deadline (.logs r.container cursor), some (.ok fetched)⟩]
      (some ⟨status, inspected.exitCode, cursor⟩)

section Container
variable {r : ContainerRun} {deadline looks : Nat} {cursor : Option Instant}
variable {steps : List (Step Call)} {store last : Store} {bs : List LogBatch}

theorem look_looked {seen : Option Look}
    (h : (look r deadline cursor).Runs steps (some (.ok seen))) :
    Looked r deadline cursor steps seen := by
  obtain ⟨inspected, rest, rfl, hrest⟩ := Work.runs_engineBefore_bind_ok.mp h
  cases inspected with
  | none =>
    obtain ⟨rfl, hseen⟩ := Work.runs_pure.mp hrest
    cases hseen
    exact .late
  | some inspected =>
    dsimp only at hrest
    split at hrest
    · cases (Work.runs_throw.mp hrest).2
    · rename_i status hstatus
      obtain ⟨fetched, appends, rfl, happends⟩ := Work.runs_engineBefore_bind_ok.mp hrest
      cases fetched with
      | none =>
        obtain ⟨rfl, hseen⟩ := Work.runs_pure.mp happends
        cases hseen
        exact .cut inspected
      | some fetched =>
        dsimp only at happends
        split at happends
        · rename_i hsuccess
          obtain ⟨_, first, second, rfl, hfirst, hsecond⟩ := Work.runs_bind_ok.mp happends
          obtain ⟨rfl, hseen⟩ := Work.runs_pure.mp hsecond
          cases hseen
          rw [List.append_nil]
          exact .read hstatus hsuccess hfirst
        · rename_i hrefused
          split at happends
          · obtain ⟨rfl, hseen⟩ := Work.runs_pure.mp happends
            cases hseen
            exact .gone hstatus (Bool.eq_false_iff.mpr hrefused)
          · cases (Work.runs_throw.mp happends).2

theorem Looked.tracked {seen : Option Look} (h : Looked r deadline (cursorAfter bs) steps seen)
    (hstored : Stored store steps last) (hkept : Kept r.bucket r.paths store bs)
    (hplain : AllPlain steps) :
    Tracked r.bucket r.paths bs steps last ∧
      (seen.map (·.cursor)).getD (cursorAfter bs) = cursorAfter (bs ++ batches steps) := by
  cases h with
  | late =>
    refine ⟨.of_bystanders (fun s hs => ?_) hstored hkept, ?_⟩
    · rw [List.mem_singleton.mp hs]
      exact ⟨rfl, rfl⟩
    · rw [show batches _ = [] from rfl, List.append_nil]
      rfl
  | cut inspected =>
    refine ⟨.cons rfl (.of_refused rfl rfl rfl (hstored.of_cons rfl) hkept), ?_⟩
    rw [show batches _ = [] from rfl, List.append_nil]
    rfl
  | @read inspected status fetched appends stands success appended =>
    have hbatch : batchOf ⟨.engineBefore deadline (.logs r.container (cursorAfter bs)),
        some (.ok fetched)⟩ = some fetched.logs := if_pos success
    have hplain : Plain fetched.logs := by
      apply hplain
      rw [batches_cons, batches_cons, hbatch]
      simp
    obtain ⟨htracked, hbatches⟩ := Tracked.of_read rfl rfl hbatch hplain appended
      (hstored.of_cons rfl) hkept
    refine ⟨.cons rfl htracked, ?_⟩
    rw [batches_cons, hbatches]
    simp [cursorAfter, batchOf, batch?, replied]
  | gone stands refused =>
    have hbatch : ∀ fetched : LogsReply, isSuccess fetched.status = false →
        batchOf ⟨.engineBefore deadline (.logs r.container (cursorAfter bs)), some (.ok fetched)⟩ =
          none := fun fetched h => if_neg (Bool.eq_false_iff.mp h)
    refine ⟨.cons rfl (.of_refused rfl rfl (hbatch _ refused) (hstored.of_cons rfl) hkept), ?_⟩
    rw [batches_cons, batches_cons, hbatch _ refused]
    simp [batchOf, batch?, replied]

end Container

/-! ### The last reading -/

def ShowsFinal (s : Step Call) : Prop :=
  ∃ deadline container reply status,
    s = ⟨.engineBefore deadline (.inspect container), some (.ok reply)⟩ ∧
    reply.container = some status ∧ status.isFinal = true

def Kills (s : Step Call) : Prop := ∃ container answer, s = ⟨.engine (.kill container), answer⟩

def ReadAtEnd (steps : List (Step Call)) : Prop :=
  ∃ early inspect fetch late, steps = early ++ inspect :: fetch :: late ∧ ShowsFinal inspect ∧
    (sinceOf fetch).isSome = true ∧ Unread late

def ReadAfterKill (steps : List (Step Call)) : Prop :=
  ∃ early kill middle fetch late, steps = early ++ kill :: (middle ++ fetch :: late) ∧ Kills kill ∧
    (sinceOf fetch).isSome = true ∧ Unread middle ∧ Unread late

section LastReading
variable {steps back : List (Step Call)}

/-- What the last reading of a run came after. -/
def ReadLast (inTime : Bool) (steps : List (Step Call)) : Prop :=
  if inTime then ReadAtEnd steps else ReadAfterKill steps

theorem ReadLast.append_left {inTime : Bool} (h : ReadLast inTime steps)
    (front : List (Step Call)) : ReadLast inTime (front ++ steps) := by
  cases inTime with
  | true =>
    obtain ⟨early, inspect, fetch, late, rfl, hlast⟩ := h
    exact ⟨front ++ early, inspect, fetch, late, by simp, hlast⟩
  | false =>
    obtain ⟨early, kill, middle, fetch, late, rfl, hlast⟩ := h
    exact ⟨front ++ early, kill, middle, fetch, late, by simp, hlast⟩

theorem ReadLast.cons {inTime : Bool} (s : Step Call) (h : ReadLast inTime steps) :
    ReadLast inTime (s :: steps) := h.append_left [s]

theorem ReadLast.append_right {inTime : Bool} (h : ReadLast inTime steps) (hback : Unread back) :
    ReadLast inTime (steps ++ back) := by
  cases inTime with
  | true =>
    obtain ⟨early, inspect, fetch, late, rfl, hfinal, hfetch, hlate⟩ := h
    exact ⟨early, inspect, fetch, late ++ back, by simp, hfinal, hfetch, hlate.append hback⟩
  | false =>
    obtain ⟨early, kill, middle, fetch, late, rfl, hkill, hfetch, hmiddle, hlate⟩ := h
    exact ⟨early, kill, middle, fetch, late ++ back, by simp, hkill, hfetch, hmiddle,
      hlate.append hback⟩

end LastReading

section Container
variable {r : ContainerRun} {deadline looks : Nat}
variable {steps : List (Step Call)} {store last : Store} {bs : List LogBatch}

theorem Looked.readLast {cursor : Option Instant} {seen : Look}
    (h : Looked r deadline cursor steps (some seen)) (hfinal : seen.status.isFinal = true) :
    ReadLast true steps := by
  cases h with
  | read stands success appended =>
    exact ⟨[], _, _, _, rfl, ⟨deadline, r.container, _, _, rfl, stands, hfinal⟩, rfl,
      appendLogs_unread appended⟩
  | gone stands refused =>
    exact ⟨[], _, _, [], rfl, ⟨deadline, r.container, _, _, rfl, stands, hfinal⟩, rfl, .nil⟩

/-- What watching a container comes to: its end was seen before the last reading, or the cursor
tells how far it was read. -/
def Watched (bs : List LogBatch) (steps : List (Step Call)) : Completion → Prop
  | .inTime _ => ReadLast true steps
  | .timedOut cursor => cursor = cursorAfter (bs ++ batches steps)

theorem Watched.append_left {front : List (Step Call)} {completion : Completion}
    (h : Watched (bs ++ batches front) steps completion) :
    Watched bs (front ++ steps) completion := by
  cases completion with
  | inTime exitCode => exact ReadLast.append_left h front
  | timedOut cursor =>
    rw [Watched, batches_append, ← List.append_assoc]
    exact h

theorem Watched.cons {s : Step Call} {completion : Completion} (hs : batchOf s = none)
    (h : Watched bs steps completion) : Watched bs (s :: steps) completion := by
  have hsingle : batches [s] = [] := by
    rw [batches_cons, hs]
    rfl
  rw [← List.singleton_append]
  apply Watched.append_left
  rw [hsingle, List.append_nil]
  exact h

theorem monitor_tracked {completion : Completion}
    (h : (monitor r deadline looks (cursorAfter bs)).Runs steps (some (.ok completion)))
    (hstored : Stored store steps last) (hkept : Kept r.bucket r.paths store bs)
    (hplain : AllPlain steps) :
    Tracked r.bucket r.paths bs steps last ∧ Watched bs steps completion := by
  -- On the looks that are left. What was read so far, and the store that has it, grow on the way.
  induction looks generalizing bs steps store with
  | zero => cases (Work.runs_unfinished.mp h).2
  | succ looks ih =>
    rw [monitor] at h
    obtain ⟨seen, first, second, rfl, hlook, hsecond⟩ := Work.runs_bind_ok.mp h
    obtain ⟨middle, hfirstStored, hsecondStored⟩ := Stored.append_iff.mp hstored
    have hlooked := look_looked hlook
    obtain ⟨hfirstPlain, hsecondPlain⟩ := allPlain_append.mp hplain
    obtain ⟨htracked, hcursor⟩ := hlooked.tracked hfirstStored hkept hfirstPlain
    cases seen with
    | none =>
      obtain ⟨rfl, hresult⟩ := Work.runs_pure.mp hsecond
      cases hresult
      cases hsecondStored
      rw [List.append_nil]
      exact ⟨htracked, hcursor⟩
    | some seen =>
      dsimp only at hsecond
      split at hsecond
      · rename_i hfinal
        obtain ⟨rfl, hresult⟩ := Work.runs_pure.mp hsecond
        cases hresult
        cases hsecondStored
        rw [List.append_nil]
        exact ⟨htracked, hlooked.readLast hfinal⟩
      · obtain ⟨rested, rest, rfl, hrest⟩ := Work.runs_ask_bind.mp hsecond
        have hseen : seen.cursor = cursorAfter (bs ++ batches first) := hcursor
        rw [hseen] at hrest
        split at hrest
        · obtain ⟨hmore, hwatched⟩ := ih hrest (hsecondStored.of_cons rfl) htracked.kept
            hsecondPlain.of_cons
          exact ⟨htracked.append (.cons rfl hmore), (hwatched.cons rfl).append_left⟩
        · obtain ⟨rfl, hresult⟩ := Work.runs_pure.mp hrest
          cases hresult
          refine ⟨htracked.append_right hsecondStored fun s hs => ?_, ?_⟩
          · rw [List.mem_singleton.mp hs]
            exact ⟨rfl, rfl⟩
          · apply Watched.append_left
            apply Watched.cons rfl
            rw [Watched, batches_nil, List.append_nil]

theorem collectLogs_tracked
    (h : (collectLogs r (cursorAfter bs)).Runs steps (some (.ok ())))
    (hstored : Stored store steps last) (hkept : Kept r.bucket r.paths store bs)
    (hplain : AllPlain steps) : Tracked r.bucket r.paths bs steps last ∧
      ∃ fetch late, steps = fetch :: late ∧ (sinceOf fetch).isSome = true ∧ Unread late := by
  obtain ⟨fetched, rest, rfl, hrest⟩ := Work.runs_engine_bind_ok.mp h
  split at hrest
  · rename_i hsuccess
    have hbatch : batchOf ⟨.engine (.logs r.container (cursorAfter bs)), .ok fetched⟩ =
        some fetched.logs := if_pos hsuccess
    have hfetched : Plain fetched.logs := by
      apply hplain
      rw [batches_cons, hbatch]
      simp
    refine ⟨(Tracked.of_read rfl rfl hbatch hfetched hrest hstored hkept).1, _, rest, rfl, rfl, ?_⟩
    exact appendLogs_unread hrest
  · rename_i hrefused
    have hbystanders := bystanders_of_errands (warn_errands r False _ _) hrest
    have hbatch : batchOf ⟨.engine (.logs r.container (cursorAfter bs)), .ok fetched⟩ = none :=
      if_neg hrefused
    refine ⟨?_, _, rest, rfl, rfl, .of_bystanders hbystanders⟩
    rw [← List.singleton_append] at hstored ⊢
    obtain ⟨middle, hfirst, hsecond⟩ := Stored.append_iff.mp hstored
    have hrefusal : Tracked r.bucket r.paths bs [_] middle :=
      .of_refused rfl rfl hbatch hfirst hkept
    exact hrefusal.append_right hsecond hbystanders

theorem afterDeadline_tracked {exitCode : Option Int64}
    (h : (do
      let exitCode ← kill r looks
      collectLogs r (cursorAfter bs)
      return (false, exitCode) : Work (Bool × Option Int64)).Runs steps
        (some (.ok (false, exitCode))))
    (hstored : Stored store steps last) (hkept : Kept r.bucket r.paths store bs)
    (hplain : AllPlain steps) :
    Tracked r.bucket r.paths bs steps last ∧ ReadLast false steps := by
  obtain ⟨code, killed, after, rfl, hkill, hafter⟩ := Work.runs_bind_ok.mp h
  obtain ⟨_, reading, rest, rfl, hreading, hrest⟩ := Work.runs_bind_ok.mp hafter
  obtain ⟨rfl, -⟩ := Work.runs_pure.mp hrest
  rw [List.append_nil] at hstored hplain ⊢
  have hbystanders := bystanders_of_errands (kill_errands r looks) hkill
  have hunread := Unread.of_bystanders hbystanders
  obtain ⟨hread, fetch, late, hreads, hfetch, hlate⟩ := collectLogs_tracked hreading
    (hstored.of_append hbystanders) hkept (allPlain_append.mp hplain).2
  refine ⟨hread.append_left hunread, ?_⟩
  · rw [kill_eq] at hkill
    obtain ⟨status, waiting, rfl, -⟩ := Work.runs_engine_bind_ok.mp hkill
    rw [hreads]
    refine ⟨[], _, waiting, fetch, late, rfl, ⟨r.container, _, rfl⟩, hfetch, ?_, hlate⟩
    exact fun s hs => hunread s (List.mem_cons_of_mem _ hs)

theorem complete_tracked {inTime : Bool} {exitCode : Option Int64}
    (h : (complete r looks).Runs steps (some (.ok (inTime, exitCode))))
    (hstored : Stored store steps last) (hkept : Kept r.bucket r.paths store [])
    (hplain : AllPlain steps) :
    Tracked r.bucket r.paths [] steps last ∧ ReadLast inTime steps := by
  obtain ⟨now, rest, rfl, hrest⟩ := Work.runs_ask_bind.mp h
  obtain ⟨completion, watched, after, rfl, hwatch, hafter⟩ := Work.runs_bind_ok.mp hrest
  obtain ⟨middle, hwatchStored, hafterStored⟩ := Stored.append_iff.mp (hstored.of_cons rfl)
  obtain ⟨hwatchPlain, hafterPlain⟩ := allPlain_append.mp hplain.of_cons
  have hmonitor : Tracked r.bucket r.paths [] watched middle ∧ Watched [] watched completion :=
    monitor_tracked hwatch hwatchStored hkept hwatchPlain
  obtain ⟨htracked, hwatched⟩ := hmonitor
  cases completion with
  | inTime code =>
    obtain ⟨rfl, hresult⟩ := Work.runs_pure.mp hafter
    cases hresult
    cases hafterStored
    rw [List.append_nil]
    exact ⟨.cons rfl htracked, ReadLast.cons _ hwatched⟩
  | timedOut cursor =>
    cases hwatched
    obtain ⟨rest, rfl, hkilled⟩ := Work.runs_log_bind.mp hafter
    have hresult : inTime = false := by
      obtain ⟨_, _, _, _, _, hcollect⟩ := Work.runs_bind_ok.mp hkilled
      obtain ⟨_, _, _, _, _, hreturn⟩ := Work.runs_bind_ok.mp hcollect
      cases (Work.runs_pure.mp hreturn).2
      rfl
    subst hresult
    obtain ⟨hread, hlast⟩ := afterDeadline_tracked hkilled (hafterStored.of_cons rfl) htracked.kept
      hafterPlain.of_cons
    refine ⟨.cons rfl (htracked.append (.cons rfl hread)), ?_⟩
    exact ((hlast.cons _).append_left watched).cons _

theorem announce_bystanders (id : ExecutionId) (inTime : Bool) (exitCode : Option Int64) :
    (announce id inTime exitCode).Within Bystander False :=
  announce_within (fun _ => ⟨rfl, rfl⟩) (fun _ _ => ⟨rfl, rfl⟩) (fun _ => ⟨rfl, rfl⟩) id inTime
    exitCode

/-- The verdict tells whether the container came to its end in time. -/
theorem failureReason_of_verdictEvent {id : ExecutionId} {now : Instant} {inTime : Bool}
    {exitCode : Option Int64} {event : FinishedEvent}
    (h : verdictEvent id now inTime exitCode = .ok event) :
    event.failureReason = .timeLimitExceeded ↔ inTime = false := by
  rw [(fields_of_verdictEvent h).2.2.1]
  cases inTime with
  | false => simp [Verdict.classify, Verdict.failed]
  | true =>
    cases exitCode with
    | none => simp [Verdict.classify, Verdict.failed]
    | some code => by_cases hcode : code = 0 <;> simp [Verdict.classify, Verdict.failed, hcode]

/-- A finished event got across that tells what the last reading of the run came after. -/
def Concluded (steps : List (Step Call)) : Prop :=
  ∃ event inTime, .finished event ∈ told steps ∧
    (event.failureReason = .timeLimitExceeded ↔ inTime = false) ∧ ReadLast inTime steps

theorem runContainer_tracked {archive : Bytes}
    (h : (runContainer r looks archive).Runs steps (some (.ok ())))
    (hstored : Stored store steps last) (hkept : Kept r.bucket r.paths store [])
    (hplain : AllPlain steps) :
    Tracked r.bucket r.paths [] steps last ∧ Concluded steps := by
  obtain ⟨copied, rest, rfl, hcopied⟩ := Work.runs_engine_bind_ok.mp h
  obtain ⟨-, hcopied⟩ := Work.runs_ensure_bind_ok.mp hcopied
  obtain ⟨started, rest, rfl, hstarted⟩ := Work.runs_engine_bind_ok.mp hcopied
  obtain ⟨-, hstarted⟩ := Work.runs_ensure_bind_ok.mp hstarted
  obtain ⟨⟨inTime, exitCode⟩, watched, after, rfl, hwatch, hannounce⟩ :=
    Work.runs_bind_ok.mp hstarted
  obtain ⟨middle, hwatchStored, hafterStored⟩ :=
    Stored.append_iff.mp ((hstored.of_cons rfl).of_cons rfl)
  obtain ⟨htracked, hlast⟩ := complete_tracked hwatch hwatchStored hkept
    (allPlain_append.mp hplain.of_cons.of_cons).1
  have hbystanders := (announce_bystanders r.id inTime exitCode).of_runs hannounce
  refine ⟨.cons rfl (.cons rfl (htracked.append_right hafterStored hbystanders)), ?_⟩
  obtain ⟨now, event, answer, rest, rfl, hevent, -, hresult⟩ := announce_runs hannounce
  refine ⟨event, inTime, ?_, failureReason_of_verdictEvent hevent, ?_⟩
  · cases Work.mapError_eq_ok.mp (Option.some.inj hresult).symm
    change _ ∈ told ([_, _] ++ (watched ++ ([_] ++ (_ :: rest))))
    rw [told_append, told_append, told_append, told_cons_sent]
    simp
  · exact ((hlast.append_right (.of_bystanders hbystanders)).cons _).cons _

theorem Concluded.append_left (h : Concluded steps) (front : List (Step Call)) :
    Concluded (front ++ steps) := by
  obtain ⟨event, inTime, hsent, hreason, hlast⟩ := h
  refine ⟨event, inTime, ?_, hreason, hlast.append_left front⟩
  rw [told_append]
  exact List.mem_append_right _ hsent

theorem Concluded.append_right {back : List (Step Call)} (h : Concluded steps)
    (hback : Unread back) : Concluded (steps ++ back) := by
  obtain ⟨event, inTime, hsent, hreason, hlast⟩ := h
  refine ⟨event, inTime, ?_, hreason, hlast.append_right hback⟩
  rw [told_append]
  exact List.mem_append_left _ hsent

theorem cleanedUp_tracked {archive : Bytes}
    (h : (do
      let outcome ← ExceptT.lift (runContainer r looks archive).run
      removeContainer r
      ExceptT.mk (pure outcome) : Work Unit).Runs steps (some (.ok ())))
    (hstored : Stored store steps last) (hkept : Kept r.bucket r.paths store [])
    (hplain : AllPlain steps) :
    Tracked r.bucket r.paths [] steps last ∧ Concluded steps := by
  obtain ⟨outcome, first, second, rfl, hrun, hsecond⟩ := Work.runs_bind_ok.mp h
  obtain ⟨_, removal, rest, rfl, hremove, hrest⟩ := Work.runs_bind_ok.mp hsecond
  obtain ⟨rfl, hresult⟩ := runs_done.mp hrest
  cases hresult
  rw [List.append_nil] at hstored hplain ⊢
  have hran : (runContainer r looks archive).Runs first (some (.ok ())) := by
    obtain ⟨inner, hinner, heq⟩ := Work.runs_lift.mp hrun
    cases inner with
    | none => cases heq
    | some result =>
      cases heq
      exact hinner
  obtain ⟨middle, hrunStored, hremoveStored⟩ := Stored.append_iff.mp hstored
  obtain ⟨htracked, hconcluded⟩ := runContainer_tracked hran hrunStored hkept
    (allPlain_append.mp hplain).1
  have hbystanders := bystanders_of_errands (removeContainer_errands r False) hremove
  exact ⟨htracked.append_right hremoveStored hbystanders,
    hconcluded.append_right (.of_bystanders hbystanders)⟩

end Container

theorem createLogs_unread {bucket : String} {paths : LogsPath} {steps : List (Step Call)}
    {result : Option (Except Failure Unit)} (h : (createLogs bucket paths).Runs steps result) :
    Unread steps := by
  have hwithin : (createLogs bucket paths).Within (fun s => sinceOf s = none) False :=
    .bind (.scratch fun _ => rfl) fun _ => .forM fun key hkey => .upload fun _ => rfl
  exact hwithin.of_runs h

theorem process_tracked {config : WorkerConfig} {looks : Nat} {request : RequestedEvent}
    {steps : List (Step Call)} {store last : Store}
    (h : (process config looks request).Runs steps (some (.ok ())))
    (hstored : Stored store steps last) (hplain : AllPlain steps) :
    Tracked config.storage.bucket (.forExecution request.id) [] steps last ∧ Concluded steps := by
  obtain ⟨_, logs, _, rfl, hlogs, htime⟩ := Work.runs_bind_ok.mp h
  obtain ⟨made, hlogsStored, hstored⟩ := Stored.append_iff.mp hstored
  have hkept := createLogs_kept hlogs hlogsStored
  have hunread := createLogs_unread hlogs
  obtain ⟨now, _, rfl, hstart⟩ := Work.runs_ask_bind.mp htime
  obtain ⟨_, _, rfl, hstarted⟩ := Work.runs_send_bind_ok.mp hstart
  obtain ⟨_, rfl, hstage⟩ := Work.runs_log_bind.mp hstarted
  obtain ⟨archive, source, _, rfl, hsource, hcreate⟩ := Work.runs_bind_ok.mp hstage
  obtain ⟨container, creation, worked, rfl, hcreation, hrest⟩ := Work.runs_bind_ok.mp hcreate
  -- Nothing is read or stored until the container is there.
  have hsourceBystanders := bystanders_of_errands (stageSource_errands config.storage.bucket
    (.forExecution request.id) False request) hsource
  have hcreationBystanders := bystanders_of_errands (createContainer_errands config.storage.bucket
    (.forExecution request.id) False config _) hcreation
  have hrestStored := ((((hstored.of_cons rfl).of_cons rfl).of_cons rfl).of_append
    hsourceBystanders).of_append hcreationBystanders
  have hrestPlain := (allPlain_append.mp hplain).2.of_cons.of_cons.of_cons
  have hrunPlain := (allPlain_append.mp (allPlain_append.mp hrestPlain).2).2
  obtain ⟨htracked, hconcluded⟩ := cleanedUp_tracked hrest hrestStored hkept hrunPlain
  refine ⟨.append_left hunread (.cons rfl (.cons rfl (.cons rfl ?_))), ?_⟩
  · exact (htracked.append_left (.of_bystanders hcreationBystanders)).append_left
      (.of_bystanders hsourceBystanders)
  · have hworked := (hconcluded.append_left creation).append_left source
    exact (hworked.append_left [_, _, _]).append_left logs

/-- Wherever the deadline falls, work on a request that succeeds keeps exactly what it read of the
container's output: all three logs hold the same batches, in the order in which they were read, and
each reading goes on where the batch before it ended. The last one comes right after the look that
showed the container at its end, or after the container was killed. -/
theorem logs_kept (config : WorkerConfig) (looks : Nat) (request : RequestedEvent) {σ : Type v}
    (others : {γ : Type} → Call γ → σ → γ × σ) (s : σ) (store : Store) :
    let work := (process config looks request).run
    let steps := work.trace (withStore others) (s, store)
    let ran := work.run (withStore others) (s, store)
    let paths := LogsPath.forExecution request.id
    let read := batches steps
    ran.1 = some (.ok ()) →
    (∀ b ∈ read, ∃ bs since, LogBatch.demultiplex bs since = .ok b) →
    (∀ p ∈ [(paths.all, LogBatch.merged), (paths.stdout, LogBatch.stdout),
        (paths.stderr, LogBatch.stderr)],
      ran.2.2.download config.storage.bucket p.1 true =
        .ok (Utf8.encode (String.join (read.map p.2)))) ∧
    (∀ early fetch late, steps = early ++ fetch :: late → ∀ since, sinceOf fetch = some since →
      since = cursorAfter (batches early)) ∧
    ∃ event, .finished event ∈ told steps ∧
      (event.failureReason ≠ .timeLimitExceeded → ReadAtEnd steps) ∧
      (event.failureReason = .timeLimitExceeded → ReadAfterKill steps) := by
  intro work steps ran paths read hok hgenuine
  have hruns : (process config looks request).Runs steps (some (.ok ())) := by
    rw [← hok]
    exact runs_trace (withStore others) work (s, store)
  have hstored : Stored store steps ran.2.2 := stored_trace others work (s, store)
  have hplain : AllPlain steps := by
    intro b hb
    obtain ⟨bs, since, h⟩ := hgenuine b hb
    exact plain_of_demultiplex h
  obtain ⟨htracked, event, inTime, hsent, hreason, hlast⟩ := process_tracked hruns hstored hplain
  refine ⟨htracked.kept, fun early fetch late hsteps since hsince => ?_, event, hsent, ?_, ?_⟩
  · have hfollowed := htracked.followed
    rw [hsteps] at hfollowed
    exact hfollowed.since_eq hsince
  · intro hne
    cases inTime with
    | true => exact hlast
    | false => exact absurd (hreason.mpr rfl) hne
  · intro heq
    rw [hreason.mp heq] at hlast
    exact hlast

/-! ### A container that outlives its deadline -/

def atSecond : Fin 2 → Instant
  | 0 => (Instant.ofSecond? 0 0).get (by decide)
  | 1 => (Instant.ofSecond? 1 0).get (by decide)

def writes : Fin 2 → Frame
  | 0 => ⟨.stdout, atSecond 0, [0x61]⟩
  | 1 => ⟨.stderr, atSecond 1, [0x62]⟩

/-- The deadline falls into the second reading. The state counts the looks. -/
def overdue {γ : Type} : Call γ → Nat → γ × Nat
  | .engine .ping, n => (.ok 200, n)
  | .engine (.create _), n => (.ok ⟨201, some "c"⟩, n)
  | .engine (.start _), n => (.ok 204, n)
  | .engine (.copy ..), n => (.ok 200, n)
  | .engine (.logs _ since), n => (.ok ⟨200, .ofFrames since [writes 1]⟩, n)
  | .engine (.inspect _), n => (.ok ⟨200, some .running, none⟩, n)
  | .engine (.kill _), n => (.ok 204, n)
  | .engine (.remove _), n => (.ok 204, n)
  | .engineBefore _ (.inspect _), n =>
    (some (.ok ⟨200, some (if n < 2 then .running else .exited), none⟩), n + 1)
  | .engineBefore _ (.logs _ since), n =>
    (if n < 2 then some (.ok ⟨200, .ofFrames since [writes 0]⟩) else none, n)
  | .engineBefore _ _, n => (none, n)
  | .restBefore .., n => (true, n)
  | .clock, n => (0, n)
  | .time, n => (atSecond 0, n)
  | .scratch _, n => (true, n)
  | .upload .., n => (.error .io, n)
  | .download .., n => (.error .io, n)
  | .send _, n => (.ok (), n)
  | .acknowledge _, n => (.ok (), n)
  | .reject .., n => (.ok (), n)
  | .log _, n => ((), n)

def overdueConfig : WorkerConfig := .ofLookup fun _ => none

def overdueRequest : RequestedEvent := ⟨⟨0⟩, atSecond 0, .cSharp, .mono, "main.cs"⟩

def overdueStore : Store :=
  ((Store.empty "/").upload overdueConfig.storage.bucket (some []) "main.cs").2

theorem overdue_succeeds :
    ((process overdueConfig 3 overdueRequest).run.run (withStore overdue) (0, overdueStore)).1 =
      some (.ok ()) := by
  have hsucceeds : ((process overdueConfig 3 overdueRequest).run.run (withStore overdue)
      (0, overdueStore)).1.bind Except.toOption = some () := by
    decide +kernel
  obtain ⟨result, hresult, hsome⟩ := Option.bind_eq_some_iff.mp hsucceeds
  exact hresult.trans (congrArg some (toOption_eq_some.mp hsome))

theorem overdue_batches :
    batches ((process overdueConfig 3 overdueRequest).run.trace (withStore overdue)
      (0, overdueStore)) =
      [.ofFrames none [writes 0], .ofFrames (some (atSecond 0)) [writes 1]] := by
  decide +kernel

theorem overdue_genuine :
    ∀ b ∈ batches ((process overdueConfig 3 overdueRequest).run.trace (withStore overdue)
      (0, overdueStore)), ∃ bs since, LogBatch.demultiplex bs since = .ok b := by
  rw [overdue_batches]
  intro b hb
  rcases List.mem_cons.mp hb with rfl | hb
  · exact ⟨(writes 0).encode, none, toOption_eq_some.mp (by decide +kernel)⟩
  · rw [List.mem_singleton.mp hb]
    exact ⟨(writes 1).encode, some (atSecond 0), toOption_eq_some.mp (by decide +kernel)⟩

theorem logs_kept_overdue :
    let work := (process overdueConfig 3 overdueRequest).run
    let steps := work.trace (withStore overdue) (0, overdueStore)
    let ran := work.run (withStore overdue) (0, overdueStore)
    ran.1 = some (.ok ()) ∧
    (∀ b ∈ batches steps, ∃ bs since, LogBatch.demultiplex bs since = .ok b) ∧
    ran.2.2.download overdueConfig.storage.bucket (LogsPath.forExecution ⟨0⟩).all true =
      .ok [0x61, 0x62] := by
  refine ⟨overdue_succeeds, overdue_genuine, ?_⟩
  have hkept := (logs_kept overdueConfig 3 overdueRequest overdue 0 overdueStore overdue_succeeds
    overdue_genuine).1 _ List.mem_cons_self
  have hwritten : ∀ read : List LogBatch,
      read = [.ofFrames none [writes 0], .ofFrames (some (atSecond 0)) [writes 1]] →
      Utf8.encode (String.join (read.map LogBatch.merged)) = [0x61, 0x62] := by
    intro read hread
    rw [hread]
    decide +kernel
  exact hkept.trans (congrArg Except.ok (hwritten _ overdue_batches))

end SandboxWorker.Worker
