import SandboxWorker.Proofs.Archive.Packing
import SandboxWorker.Proofs.Worker.Isolation
import SandboxWorker.Proofs.Worker.Protocol
/-! The source of an execution in its container. Whatever the path says that a request comes with,
the source is one file directly in the working directory, under the name that the container is told
to run. -/
namespace SandboxWorker

theorem isName_sourceFileName : Path.IsName sourceFileName := by decide

namespace EngineCall
variable {α : Type}

def isCopy : EngineCall α → Bool
  | .copy .. => true
  | _ => false

end EngineCall

namespace Worker
open Program

section FileName
variable {path name : String}

theorem fileNameOf_of_endsIn (h : Path.EndsIn path name) : fileNameOf path = name := by
  rw [fileNameOf, Path.fileName?_iff_endsIn.mpr h]
  rfl

theorem fileNameOf_of_endsIn_nothing (h : ∀ name, ¬Path.EndsIn path name) :
    fileNameOf path = sourceFileName := by
  cases hname : Path.fileName? path with
  | none => rw [fileNameOf, hname, Option.getD_none]
  | some name => exact absurd (Path.fileName?_iff_endsIn.mp hname) (h name)

theorem isName_fileNameOf (path : String) : Path.IsName (fileNameOf path) := by
  by_cases h : ∃ name, Path.EndsIn path name
  · obtain ⟨name, hends⟩ := h
    rw [fileNameOf_of_endsIn hends]
    exact hends.1
  · rw [fileNameOf_of_endsIn_nothing (not_exists.mp h)]
    exact isName_sourceFileName

end FileName

/-! ### What the engine is asked with the name -/

section Process
variable {config : WorkerConfig} {looks : Nat} {request : RequestedEvent}
variable {steps : List (Step Call)}

def paramsOf (config : WorkerConfig) (request : RequestedEvent) : SandboxParams where
  image := config.runner.image
  command := [fileNameOf request.sourceCodePath]
  workingDir := config.runner.workDir
  limits := config.sandbox

def Packed (config : WorkerConfig) (request : RequestedEvent) (steps : List (Step Call))
    (archive : Bytes) : Prop :=
  ∃ content modified,
    ⟨.download config.storage.bucket request.sourceCodePath, .ok content⟩ ∈ steps ∧
    Archive.packFile (fileNameOf request.sourceCodePath) content modified = some archive

/-- What a request is run from: the container is made for its name, and filled with its source. -/
def Sourced (config : WorkerConfig) (request : RequestedEvent) (steps : List (Step Call))
    {α : Type} : EngineCall α → Prop
  | .create params => params = paramsOf config request
  | .copy _ archive destination =>
    destination = config.runner.workDir ∧
      ∃ packed, archive = some packed ∧ Packed config request steps packed
  | _ => True

theorem exchanges_quiet_bind {α β : Type} {w : Work α} {f : α → Work β}
    {result : Option (Except Failure β)} (hw : w.Within Quiet False)
    (h : (w >>= f).Runs steps result) : exchanges steps = [] ∨
      ∃ a first second, steps = first ++ second ∧ w.Runs first (some (.ok a)) ∧
        (f a).Runs second result ∧ exchanges steps = exchanges second := by
  rcases Work.runs_bind.mp h with ⟨a, first, second, rfl, hfirst, hsecond⟩ | ⟨e, -, hall⟩ |
    ⟨-, hall⟩
  · refine .inr ⟨a, first, second, rfl, hfirst, hsecond, ?_⟩
    rw [exchanges_append, exchanges_of_quiet (hw.of_runs hfirst), List.nil_append]
  · exact .inl (exchanges_of_quiet (hw.of_runs hall))
  · exact (hw.left_of_runs hall).elim

/-- How a run talks to the engine: not at all, or it asks for a container, and then to fill it. -/
def Opens (config : WorkerConfig) (request : RequestedEvent) (archive : Bytes)
    (asked : List Exchange) : Prop :=
  ∃ answer rest, asked = ⟨.create (paramsOf config request), answer⟩ :: rest ∧
    (rest = [] ∨ ∃ container answer' later,
      rest = ⟨.copy container (some archive) config.runner.workDir, answer'⟩ :: later)

theorem createContainer_runs {result : Option (Except Failure String)}
    (h : (createContainer config (fileNameOf request.sourceCodePath)).Runs steps result) :
    ∃ answer, steps = [⟨.engine (.create (paramsOf config request)), answer⟩] := by
  unfold createContainer at h
  rw [Work.engine_eq, Work.runs_once_bind] at h
  obtain ⟨answer, rest, rfl, ⟨created, -, h⟩ | ⟨e, -, rfl, -⟩⟩ := h
  · obtain ⟨-, h⟩ | ⟨-, rfl, -⟩ := Work.runs_ensure_bind.mp h
    · split at h
      · obtain ⟨rfl, -⟩ := Work.runs_pure.mp h
        exact ⟨answer, rfl⟩
      · obtain ⟨rfl, -⟩ := Work.runs_throw.mp h
        exact ⟨answer, rfl⟩
    · exact ⟨answer, rfl⟩
  · exact ⟨answer, rfl⟩

theorem runContainer_runs {r : ContainerRun} {archive : Bytes}
    {result : Option (Except Failure Unit)} (h : (runContainer r looks archive).Runs steps result) :
    ∃ answer rest,
      steps = ⟨.engine (.copy r.container (some archive) r.config.runner.workDir), answer⟩ ::
        rest := by
  unfold runContainer at h
  rw [Work.engine_eq, Work.runs_once_bind] at h
  obtain ⟨answer, rest, rfl, -⟩ := h
  exact ⟨answer, rest, rfl⟩

theorem cleanedUp_runs {r : ContainerRun} {archive : Bytes}
    {result : Option (Except Failure Unit)}
    (h : (do
      let outcome ← ExceptT.lift (runContainer r looks archive).run
      removeContainer r
      ExceptT.mk (pure outcome) : Work Unit).Runs steps result) :
    ∃ answer rest,
      steps = ⟨.engine (.copy r.container (some archive) r.config.runner.workDir), answer⟩ ::
        rest := by
  rcases Work.runs_bind.mp h with ⟨outcome, first, second, rfl, hrun, -⟩ | ⟨e, -, hrun⟩ | ⟨-, hrun⟩
  all_goals
    obtain ⟨inner, hinner, -⟩ := Work.runs_lift.mp hrun
    obtain ⟨answer, rest, rfl⟩ := runContainer_runs hinner
  · exact ⟨answer, rest ++ second, rfl⟩
  · exact ⟨answer, rest, rfl⟩
  · exact ⟨answer, rest, rfl⟩

theorem created_opens {archive : Bytes} {result : Option (Except Failure Unit)}
    (h : (do
      let container ← createContainer config (fileNameOf request.sourceCodePath)
      let run : ContainerRun := ⟨config, request.id, container⟩
      let outcome ← ExceptT.lift (runContainer run looks archive).run
      removeContainer run
      ExceptT.mk (pure outcome) : Work Unit).Runs steps result) :
    Opens config request archive (exchanges steps) := by
  rcases Work.runs_bind.mp h with ⟨container, first, second, rfl, hcreate, hrun⟩ |
    ⟨e, -, hcreate⟩ | ⟨-, hcreate⟩
  all_goals obtain ⟨answer, rfl⟩ := createContainer_runs hcreate
  · obtain ⟨answer', later, rfl⟩ := cleanedUp_runs hrun
    exact ⟨some answer, _, rfl, .inr ⟨container, some answer', exchanges later, rfl⟩⟩
  · exact ⟨some answer, [], rfl, .inl rfl⟩
  · exact ⟨some answer, [], rfl, .inl rfl⟩

theorem process_opens {result : Option (Except Failure Unit)}
    (h : (process config looks request).Runs steps result) :
    exchanges steps = [] ∨ ∃ archive, Packed config request steps archive ∧
      Opens config request archive (exchanges steps) := by
  obtain hnone | ⟨_, logs, rest, rfl, -, hstart, hasked⟩ :=
    exchanges_quiet_bind (createLogs_quiet (.forExecution request.id)) h
  · exact .inl hnone
  rw [hasked]
  obtain ⟨now, rest, rfl, hsend⟩ := Work.runs_ask_bind.mp hstart
  rw [Work.send_eq, Work.runs_once_bind] at hsend
  obtain ⟨answer, rest, rfl, ⟨_, -, hsent⟩ | ⟨e, -, rfl, -⟩⟩ := hsend
  · obtain ⟨rest, rfl, hstage⟩ := Work.runs_log_bind.mp hsent
    obtain hnone | ⟨archive, staged, rest, rfl, hstaged, hcreate, hasked⟩ :=
      exchanges_quiet_bind (stageSource_quiet request) hstage
    · exact .inl hnone
    obtain ⟨content, modified, hfetched, -, hpacked⟩ := stageSource_runs hstaged
    have hopens := created_opens hcreate
    rw [← hasked] at hopens
    exact .inr ⟨archive, ⟨content, _, by simp [hfetched], hpacked⟩, hopens⟩
  · exact .inl rfl

/-- After the first two, no exchange is about what a request is run from. -/
theorem call_of_inOrder {front back : List Exchange} {x : Exchange}
    (horder : ∀ early s late, steps = early ++ s :: late → InOrder config request early s)
    (hasked : exchanges steps = front ++ x :: back) :
    (x.call.isCreate = true → front = []) ∧
      (x.call.isCopy = true → ∀ y ∈ front, y.call.isCreate = true) := by
  obtain ⟨early, rest, rfl, rfl, hrest⟩ := List.filterMap_eq_append_iff.mp hasked
  obtain ⟨quiet, s, late, rfl, hquiet, hs, -⟩ := List.filterMap_eq_cons_iff.mp hrest
  have hpermitted := horder (early ++ quiet) s late (by simp) x hs
  have hfront : exchanges (early ++ quiet) = exchanges early := exchanges_append_quiet hquiet
  obtain ⟨call, answer⟩ := x
  cases call with
  | create params => exact ⟨fun _ => hfront.symm.trans hpermitted.1, nofun⟩
  | copy container archive destination =>
    exact ⟨nofun, fun _ y hy => hpermitted.2 y (hfront ▸ hy)⟩
  | _ => exact ⟨nofun, nofun⟩

theorem sourced_of_other {x : Exchange} (hcreate : x.call.isCreate ≠ true)
    (hcopy : x.call.isCopy ≠ true) : Sourced config request steps x.call := by
  obtain ⟨call, answer⟩ := x
  cases call with
  | create params => exact absurd rfl hcreate
  | copy container archive destination => exact absurd rfl hcopy
  | _ => trivial

theorem sourced_of_opens {archive : Bytes} (hpacked : Packed config request steps archive)
    (hopens : Opens config request archive (exchanges steps))
    (horder : ∀ early s late, steps = early ++ s :: late → InOrder config request early s)
    {x : Exchange} (hx : x ∈ exchanges steps) : Sourced config request steps x.call := by
  obtain ⟨answer, rest, hasked, hrest⟩ := hopens
  rw [hasked] at hx
  rcases List.mem_cons.mp hx with rfl | hx
  · exact rfl
  · obtain rfl | ⟨container, answer', later, rfl⟩ := hrest
    · cases hx
    · rcases List.mem_cons.mp hx with rfl | hx
      · exact ⟨rfl, archive, rfl, hpacked⟩
      · obtain ⟨front, back, rfl⟩ := List.append_of_mem hx
        rw [← List.cons_append, ← List.cons_append] at hasked
        obtain ⟨hcreate, hcopy⟩ := call_of_inOrder horder hasked
        refine sourced_of_other (fun h => ?_) fun h => ?_
        · cases hcreate h
        · cases hcopy h _ (List.mem_cons_of_mem _ List.mem_cons_self)

end Process

theorem handle_sourced {config : WorkerConfig} {looks : Nat} {request : RequestedEvent}
    {d : Queue.Delivery} {steps : List (Step Call)} {result : Option Unit}
    (hd : requestOf d.content = some request) (h : (handle config looks d).Runs steps result)
    {x : Exchange} (hx : x ∈ exchanges steps) : Sourced config request steps x.call := by
  obtain ⟨horder, -⟩ := handle_obeys hd h
  have hopened : ∃ archive, Packed config request steps archive ∧
      Opens config request archive (exchanges steps) := by
    rw [handle_of_request hd] at h
    rcases runs_bind.mp h with ⟨outcome, course, closing, rfl, hprocess, hclosing⟩ | ⟨-, hprocess⟩
    · have hquiet : (conclude d.tag request.id outcome).Within Quiet False := conclude_quiet _ _ _
      rw [exchanges_append_quiet (hquiet.of_runs hclosing)] at hx ⊢
      obtain hnone | ⟨archive, ⟨content, modified, hfetched, hpacked⟩, hopens⟩ :=
        process_opens hprocess
      · rw [hnone] at hx
        cases hx
      · exact ⟨archive, ⟨content, modified, List.mem_append_left _ hfetched, hpacked⟩, hopens⟩
    · obtain hnone | hopened := process_opens hprocess
      · rw [hnone] at hx
        cases hx
      · exact hopened
  obtain ⟨archive, hpacked, hopens⟩ := hopened
  exact sourced_of_opens hpacked hopens horder hx

/-- Whatever a path says, a source has a file name: the name that the path ends in, or `source` if
it ends in none. An archive packed under it holds the source alone, under this very name, and where
it is unpacked the source lies one step below, however the paths are resolved, and also if names are
read up to a null only. A container for a request is told to run this name, and is filled with such
an archive in its working directory. -/
theorem source_in_place (path : String) :
    let name := fileNameOf path
    Path.IsName name ∧
    (∀ last, Path.EndsIn path last → name = last) ∧
    ((∀ last, ¬Path.EndsIn path last) → name = "source") ∧
    (∀ content modified archive, Archive.packFile name content modified = some archive →
      name.utf8ByteSize < Archive.textLimit → content.length < Archive.fileLimit →
      Archive.unpack archive = some [⟨Utf8.encode name, Archive.Header.mode, content⟩] ∧
      ∀ dir, Archive.extracted dir archive = some [(Path.join dir name, content)] ∧
        ∀ told ∈ [name, Archive.upToNull name],
          Path.components (Path.join dir told) = Path.components dir ++ [.name told] ∧
          ∀ step, Path.IsLexical step → (Path.components (Path.join dir told)).foldl step [] =
            (Path.components dir).foldl step [] ++ [.name told]) ∧
    ∀ config looks d request steps result, requestOf d.content = some request →
      request.sourceCodePath = path → (handle config looks d).Runs steps result →
      ∀ x ∈ exchanges steps, Sourced config request steps x.call := by
  intro name
  have hname : Path.IsName name := isName_fileNameOf path
  refine ⟨hname, fun last => fileNameOf_of_endsIn, fileNameOf_of_endsIn_nothing, ?_, ?_⟩
  · intro content modified archive hpacked htext hsize
    have hread := Archive.unpack_of_packFile hname htext hsize hpacked
    have hnames : ∀ told ∈ [name, Archive.upToNull name], Path.IsName told :=
      List.forall_mem_cons.mpr ⟨hname,
        List.forall_mem_singleton.mpr (Archive.isName_upToNull_of_packFile hname hpacked)⟩
    refine ⟨hread, fun dir => ⟨?_, fun told htold => ?_⟩⟩
    · simp [Archive.extracted, hread, Utf8.decodeLossy_encode]
    · have hjoined := (hnames told htold).components_join dir
      refine ⟨hjoined, fun step hstep => ?_⟩
      rw [hjoined, List.foldl_append, List.foldl_cons, List.foldl_nil, hstep]
  · rintro config looks d request steps result hd - hruns x hx
    exact handle_sourced hd hruns hx

def halting {γ : Type} : Call γ → Unit → γ × Unit
  | .engine (.create _), s => (.ok ⟨201, some "c"⟩, s)
  | .engine _, s => (.error .transport, s)
  | .engineBefore .., s => (none, s)
  | .restBefore .., s => (false, s)
  | .clock, s => (0, s)
  | .time, s => (secondDay, s)
  | .scratch _, s => (true, s)
  | .upload .., s => (.ok (), s)
  | .download .., s => (.ok [0x78], s)
  | .send _, s => (.ok (), s)
  | .acknowledge _, s => (.ok (), s)
  | .reject .., s => (.ok (), s)
  | .log _, s => ((), s)

def dotted : RequestedEvent := ⟨⟨0⟩, secondDay, .cSharp, .mono, "jobs/Program.cs/."⟩

def dottedDelivery : Queue.Delivery := ⟨1, (ExecutionEvent.requested dotted).encode⟩

def dottedRun : List (Step Call) :=
  (handle (WorkerConfig.ofLookup fun _ => none) 1 dottedDelivery).trace halting ()

theorem dottedDelivery_read : requestOf dottedDelivery.content = some dotted :=
  requestOf_encode dotted

theorem dottedRun_copies : (exchanges dottedRun).map (·.call.isCopy) = [false, true, false] := by
  rw [dottedRun, handle_of_request dottedDelivery_read]
  decide +kernel

/-- A path that ends in a name with a slash and a dot behind it, one that leads up, and the run of a
request for the first. -/
theorem source_in_place_trailingDot :
    fileNameOf "jobs/Program.cs/." = "Program.cs" ∧ fileNameOf "jobs/.." = "source" ∧
    (∃ archive, Archive.packFile "Program.cs" [0x78] 0 = some archive ∧
      Archive.extracted "/work" archive = some [("/work/Program.cs", [0x78])]) ∧
    (exchanges dottedRun).map (·.call.isCopy) = [false, true, false] ∧
    ∀ x ∈ exchanges dottedRun,
      Sourced (WorkerConfig.ofLookup fun _ => none) dotted dottedRun x.call := by
  obtain ⟨-, hends, -, hpacked, hruns⟩ := source_in_place "jobs/Program.cs/."
  have hname : fileNameOf "jobs/Program.cs/." = "Program.cs" :=
    hends _ (Path.fileName?_iff_endsIn.mp (by decide))
  have hnothing : ∀ last, ¬Path.EndsIn "jobs/.." last := by
    intro last h
    cases Path.fileName?_iff_endsIn.mpr h
  have hentry : Archive.IsEntryName "Program.cs" := by decide +kernel
  have hshort := Archive.packFile_short hentry (by decide +kernel) [0x78] 0
  rw [hname] at hpacked
  refine ⟨hname, (source_in_place "jobs/..").2.2.1 hnothing, ⟨_, hshort, ?_⟩, dottedRun_copies,
    hruns _ _ _ _ _ _ dottedDelivery_read rfl (runs_trace halting _ ())⟩
  have hjoined : Path.join "/work" "Program.cs" = "/work/Program.cs" := by decide +kernel
  rw [← hjoined]
  exact ((hpacked _ _ _ hshort (by decide +kernel) (by decide)).2 "/work").1

end Worker
end SandboxWorker
