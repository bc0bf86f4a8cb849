import SandboxWorker.Proofs.Worker.Dialogue
import SandboxWorker.Proofs.Worker.Stored
/-! What handling a request asks of the store: it stores the logs of its execution, reads those and
its source, and reads nothing before it stored something. -/
namespace SandboxWorker.Worker
open Program Storage

def usesStore {γ : Type} : Call γ → Bool
  | .upload .. | .download .. => true
  | _ => false

def isDownload {γ : Type} : Call γ → Bool
  | .download .. => true
  | _ => false

/-- The store is asked for nothing but these logs and this source; the source is only read. -/
def Asks (bucket : String) (paths : LogsPath) (source : String) {γ : Type} : Call γ → Prop
  | .upload b key _ => b = bucket ∧ key ∈ paths.toList
  | .download b key => b = bucket ∧ key ∈ source :: paths.toList
  | _ => True

def Own (bucket : String) (paths : LogsPath) (source : String) (s : Step Call) : Prop :=
  Asks bucket paths source s.call

def storedAt? {γ : Type} : Call γ → Option (String × String)
  | .upload bucket key _ => some (bucket, key)
  | _ => none

theorem Own.of_storedAt? {bucket b key source : String} {paths : LogsPath} {s : Step Call}
    (h : Own bucket paths source s) (hs : storedAt? s.call = some (b, key)) :
    b = bucket ∧ key ∈ paths.toList := by
  obtain ⟨c, answer⟩ := s
  cases c with
  | upload bucket key content =>
    cases hs
    exact h
  | _ => cases hs

theorem permits_own (bucket : String) (paths : LogsPath) (source : String) :
    Permits (Own bucket paths source) bucket paths where
  engine _ _ _ := trivial
  engineBefore _ _ _ _ := trivial
  restBefore _ _ _ := trivial
  clock _ := trivial
  time _ := trivial
  scratch _ _ := trivial
  log _ := trivial
  fetch _ _ _ := trivial
  fetchBefore _ _ _ _ := trivial
  upload _ own _ _ := ⟨rfl, own⟩
  download _ own _ := ⟨rfl, List.mem_cons_of_mem _ own⟩

section Requests
variable {config : WorkerConfig} {looks : Nat}

theorem runContainer_own (r : ContainerRun) (looks : Nat) (source : String) (archive : Bytes) :
    (runContainer r looks archive).Within (Own r.bucket r.paths source) True := by
  have h := permits_own r.bucket r.paths source
  refine .bind (.engine fun _ => trivial) fun copied => .bind (.ensure _ _) fun _ => ?_
  refine .bind (.engine fun _ => trivial) fun started => .bind (.ensure _ _) fun _ => ?_
  refine .bind (h.complete looks) fun outcome => ?_
  exact announce_within (fun _ => trivial) (fun _ _ => trivial) (fun _ => trivial) _ _ _

theorem process_own (config : WorkerConfig) (looks : Nat) (request : RequestedEvent) :
    (process config looks request).Within
      (Own config.storage.bucket (.forExecution request.id) request.sourceCodePath) True := by
  have h := permits_own config.storage.bucket (.forExecution request.id) request.sourceCodePath
  refine .bind h.createLogs fun _ => .bind (.ask h.time) fun now => ?_
  refine .bind (.send fun _ => trivial) fun _ => .bind (.log (h.log _)) fun _ => ?_
  refine .bind (h.stageSource fun _ => ⟨rfl, List.mem_cons_self⟩) fun archive => ?_
  refine .bind (h.createContainer config _) fun container => ?_
  have hrun := runContainer_own ⟨config, request.id, container⟩ looks request.sourceCodePath archive
  refine .bind (.lift hrun) fun outcome => .bind (h.removeContainer _) fun _ => ?_
  cases outcome with
  | ok a => exact .pure a
  | error e => exact .throw e

theorem conclude_without_store (tag : Nat) (id : ExecutionId) (outcome : Except Failure Unit) :
    (conclude tag id outcome).Within (fun s => usesStore s.call = false) False :=
  conclude_within (fun _ => rfl) (fun _ _ => rfl) (fun _ _ => rfl) (fun _ _ _ => rfl) (fun _ => rfl)
    tag id outcome

variable {d : Queue.Delivery} {request : RequestedEvent}

theorem handle_own (hrequest : requestOf d.content = some request) :
    (handle config looks d).Within
      (Own config.storage.bucket (.forExecution request.id) request.sourceCodePath) True := by
  rw [handle_of_request hrequest]
  refine Program.Within.bind (process_own config looks request) fun outcome => ?_
  exact conclude_within (fun _ => trivial) (fun _ _ => trivial) (fun _ _ => trivial)
    (fun _ _ _ => trivial) (fun _ => trivial) d.tag request.id outcome

theorem handle_without_store (hrequest : requestOf d.content = none) :
    (handle config looks d).Within (fun s => usesStore s.call = false) False := by
  obtain ⟨entry, hhandle⟩ := handle_of_no_request config looks hrequest
  rw [hhandle]
  exact fun _ => ⟨rfl, reject_within (fun _ _ _ => rfl) (fun _ => rfl) d.tag⟩

/-- Whatever is stored in handling a delivery is a log of the execution that it requests. -/
theorem handle_stores {steps : List (Step Call)} {result : Option Unit}
    (h : (handle config looks d).Runs steps result) {s : Step Call} (hs : s ∈ steps)
    {bucket key : String} (hstored : storedAt? s.call = some (bucket, key)) :
    ∃ request, requestOf d.content = some request ∧ bucket = config.storage.bucket ∧
      key ∈ (LogsPath.forExecution request.id).toList := by
  cases hrequest : requestOf d.content with
  | some request =>
    obtain ⟨hbucket, hkey⟩ := ((handle_own hrequest).of_runs h s hs).of_storedAt? hstored
    exact ⟨request, rfl, hbucket, hkey⟩
  | none =>
    have hidle := (handle_without_store hrequest).of_runs h s hs
    obtain ⟨c, answer⟩ := s
    cases c with
    | upload bucket key content => cases hidle
    | _ => cases hstored

/-! ### Nothing is read before something was stored -/

variable {steps : List (Step Call)}

theorem createLogs_reads_nothing (bucket : String) (paths : LogsPath) :
    (createLogs bucket paths).Within (fun s => isDownload s.call = false) False :=
  .bind (.scratch fun _ => rfl) fun _ => .forM fun _ _ => .upload fun _ => rfl

theorem createLogs_stores {bucket : String} {paths : LogsPath}
    (h : (createLogs bucket paths).Runs steps (some (.ok ()))) :
    (⟨.upload bucket paths.all [], .ok ()⟩ : Step Call) ∈ steps := by
  obtain ⟨rest, rfl, hrest⟩ := Work.runs_scratch_bind_ok.mp h
  obtain ⟨_, more, rfl, -⟩ := Work.runs_upload_bind_ok.mp hrest
  simp

theorem process_stores_first {result : Option (Except Failure Unit)}
    (h : (process config looks request).Runs steps result) {s : Step Call} (hs : s ∈ steps)
    (hread : isDownload s.call = true) :
    (⟨.upload config.storage.bucket (LogsPath.forExecution request.id).all [], .ok ()⟩ : Step Call)
      ∈ steps := by
  have hlogs := createLogs_reads_nothing config.storage.bucket (.forExecution request.id)
  rcases Work.runs_bind.mp h with ⟨_, first, second, rfl, hfirst, -⟩ | ⟨e, -, hfirst⟩ | ⟨-, hfirst⟩
  · exact List.mem_append_left _ (createLogs_stores hfirst)
  · rw [hlogs.of_runs hfirst s hs] at hread
    cases hread
  · exact (hlogs.left_of_runs hfirst).elim

theorem isDownload_of_not_usesStore {γ : Type} {c : Call γ} (h : usesStore c = false) :
    isDownload c = false := by
  cases c <;> first | rfl | cases h

theorem handle_stores_first (hrequest : requestOf d.content = some request) {result : Option Unit}
    (h : (handle config looks d).Runs steps result) {s : Step Call} (hs : s ∈ steps)
    (hread : isDownload s.call = true) :
    (⟨.upload config.storage.bucket (LogsPath.forExecution request.id).all [], .ok ()⟩ : Step Call)
      ∈ steps := by
  rw [handle_of_request hrequest] at h
  rcases Program.runs_bind.mp h with ⟨outcome, first, second, rfl, hfirst, hsecond⟩ | ⟨-, hfirst⟩
  · rcases List.mem_append.mp hs with hs | hs
    · exact List.mem_append_left _ (process_stores_first hfirst hs hread)
    · have hidle := (conclude_without_store d.tag request.id outcome).of_runs hsecond s hs
      rw [isDownload_of_not_usesStore hidle] at hread
      cases hread
  · exact process_stores_first hfirst hs hread

end Requests

/-! ### The store apart -/

def elsewhere (steps : List (Step Call)) : List (Step Call) :=
  steps.filter fun s => !usesStore s.call

theorem Answers.unique {store next next' : Store} {γ : Type} {c : Call γ} {answer answer' : γ}
    (hc : usesStore c = true) (h : Answers store next c answer)
    (h' : Answers store next' c answer') : answer = answer' ∧ next = next' := by
  cases c with
  | upload bucket key content => exact Prod.mk.inj (h.symm.trans h')
  | download bucket key => exact ⟨h.1.symm.trans h'.1, h.2.trans h'.2.symm⟩
  | _ => cases hc

theorem Answers.same_store {store next : Store} {γ : Type} {c : Call γ} {answer : γ}
    (hc : usesStore c = false) (h : Answers store next c answer) : next = store := by
  cases c <;> first | exact h | cases hc

theorem elsewhere_cons_of_usesStore {s : Step Call} (h : usesStore s.call = true)
    (steps : List (Step Call)) : elsewhere (s :: steps) = elsewhere steps :=
  List.filter_cons_of_neg (by simp [h])

theorem elsewhere_cons {s : Step Call} (h : usesStore s.call = false) (steps : List (Step Call)) :
    elsewhere (s :: steps) = s :: elsewhere steps :=
  List.filter_cons_of_pos (by simp [h])

/-- A run is settled by what the store holds at its start and by the answers of all others. -/
theorem runs_unique {α : Type} {p : Program Call α} {a a' : List (Step Call)} {r r' : Option α}
    {store last last' : Store} (h : p.Runs a r) (hstored : Stored store a last)
    (h' : p.Runs a' r') (hstored' : Stored store a' last') (helse : elsewhere a' = elsewhere a) :
    a' = a ∧ r' = r := by
  induction h generalizing store a' with
  | done result =>
    obtain ⟨rfl, rfl⟩ := runs_done.mp h'
    exact ⟨rfl, rfl⟩
  | unfinished =>
    obtain ⟨rfl, rfl⟩ := runs_unfinished.mp h'
    exact ⟨rfl, rfl⟩
  | @call γ c next steps result answer rest ih =>
    obtain ⟨answer', steps', rfl, hrest'⟩ := runs_call.mp h'
    cases hstored with
    | @cons _ _ _ _ middle _ _ hanswers hmore =>
      cases hstored' with
      | @cons _ _ _ _ middle' _ _ hanswers' hmore' =>
        cases huses : usesStore c with
        | true =>
          obtain ⟨rfl, rfl⟩ := hanswers'.unique huses hanswers
          rw [elsewhere_cons_of_usesStore huses, elsewhere_cons_of_usesStore huses] at helse
          obtain ⟨rfl, rfl⟩ := ih hmore hrest' hmore' helse
          exact ⟨rfl, rfl⟩
        | false =>
          rw [elsewhere_cons huses, elsewhere_cons huses] at helse
          obtain ⟨hstep, hlater⟩ := List.cons.inj helse
          cases hstep
          rw [hanswers.same_store huses] at hmore
          rw [hanswers'.same_store huses] at hmore'
          obtain ⟨rfl, rfl⟩ := ih hmore hrest' hmore' hlater
          exact ⟨rfl, rfl⟩

end SandboxWorker.Worker
