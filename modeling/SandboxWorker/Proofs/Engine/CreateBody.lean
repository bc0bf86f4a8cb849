import SandboxWorker.Engine.Call
import SandboxWorker.Json.Shape
import SandboxWorker.Proofs.Json.Wires
/-! What the body that asks for a container tells the engine. Read member by member, it says each
setting under its own name, so no setting is lost or stands for another. -/
namespace SandboxWorker
open Json

namespace Json

/-- The member of a name in a wire form; none if it is not there, or of another form. -/
def part? {α : Type} (w : Wire α) (name : String) (j : Json) : Option α :=
  (j.member? name).bind fun item => (w.buffered item).toOption

theorem part?_of_lookup {α : Type} {w : Wire α} (h : w.Lawful maxDepth) {name : String}
    {members : List (String × Json)} {a : α} (hname : members.lookup name = some (w.write a)) :
    (Json.obj members).part? w name = some a := by
  rw [part?, member?, hname, Option.bind_some, h.buffered]
  rfl

def ofBytes? (bs : Bytes) : Option Json :=
  match value maxDepth bs with
  | .ok (j, rest) => if (skipBlanks rest).isEmpty then some j else none
  | .error _ => none

theorem ofBytes?_bytes {j : Json} (h : Readable maxDepth j) : ofBytes? j.bytes = some j := by
  have hread := value_bytes h [] nofun
  rw [List.append_nil] at hread
  rw [ofBytes?, hread]
  rfl

end Json

structure UserLimit where
  name : String
  soft : Int64
  hard : Int64
deriving DecidableEq, Repr

structure CreateBody where
  image : String
  command : List String
  workingDir : String
  capDrop : List String
  securityOptions : List String
  cgroupMode : String
  networkMode : String
  cpuSet : String
  cpuQuota : Int64
  memory : Int64
  memorySwap : Int64
  kernelMemoryTcp : Int64
  pids : Int64
  ipcMode : String
  userLimits : List UserLimit
deriving DecidableEq, Repr

def UserLimit.wire : Wire UserLimit :=
  (Fields.required "Name" .string |>.pair
    ((Fields.required "Soft" .int64).pair (.required "Hard" .int64))).wire.refine
      (fun (name, soft, hard) => .ok ⟨name, soft, hard⟩) (fun l => (l.name, l.soft, l.hard))

namespace CreateBody

def ofJson? (j : Json) : Option CreateBody := do
  let host ← j.member? "HostConfig"
  return {
    image := ← j.part? .string "Image"
    command := ← j.part? (.list .string) "Cmd"
    workingDir := ← j.part? .string "WorkingDir"
    capDrop := ← host.part? (.list .string) "CapDrop"
    securityOptions := ← host.part? (.list .string) "SecurityOpt"
    cgroupMode := ← host.part? .string "CgroupnsMode"
    networkMode := ← host.part? .string "NetworkMode"
    cpuSet := ← host.part? .string "CpusetCpus"
    cpuQuota := ← host.part? .int64 "CpuQuota"
    memory := ← host.part? .int64 "Memory"
    memorySwap := ← host.part? .int64 "MemorySwap"
    kernelMemoryTcp := ← host.part? .int64 "KernelMemoryTCP"
    pids := ← host.part? .int64 "PidsLimit"
    ipcMode := ← host.part? .string "IpcMode"
    userLimits := ← host.part? (.list UserLimit.wire) "Ulimits" }

def read? (bs : Bytes) : Option CreateBody := (Json.ofBytes? bs).bind ofJson?

end CreateBody

def SandboxParams.asked (p : SandboxParams) : CreateBody where
  image := p.image
  command := p.command
  workingDir := p.workingDir
  capDrop := p.limits.capDrop
  securityOptions := ["no-new-privileges"]
  cgroupMode :=
    if p.limits.cgroupNamespace = "private" ∨ p.limits.cgroupNamespace = "host" then
      p.limits.cgroupNamespace
    else ""
  networkMode := p.limits.networkMode
  cpuSet := p.limits.cpuSet
  cpuQuota := p.limits.cpuQuota
  memory := p.limits.memory
  memorySwap := p.limits.memorySwap
  kernelMemoryTcp := p.limits.kernelMemoryTcp
  pids := p.limits.pids
  ipcMode := p.limits.ipcMode
  userLimits := [⟨"nofile", p.limits.filesSoft, p.limits.filesHard⟩,
    ⟨"nproc", p.limits.processesSoft, p.limits.processesHard⟩]

/-! ### Reading -/

theorem UserLimit.lawful_wire {depth : Nat} : UserLimit.wire.Lawful (depth + 1) :=
  .refine (Fields.Lawful.wire (.pair (Fields.lawful_field Wire.lawful_string _ _)
    (.pair (Fields.lawful_field Wire.lawful_int64 _ _) (Fields.lawful_field Wire.lawful_int64 _ _)
      (by decide)) (by decide))) fun _ => rfl

theorem lawful_strings {depth : Nat} : (Wire.list .string).Lawful (depth + 1) :=
  Wire.lawful_string.list

theorem SandboxLimits.readable_hostConfig (l : SandboxLimits) {depth : Nat} :
    Readable (depth + 3) l.hostConfig := by
  have hinteger (n : Int64) : Readable (depth + 2) (.int n.toInt) :=
    Wire.lawful_int64.readable n
  have htexts (ss : List String) : Readable (depth + 2) (strings ss) := lawful_strings.readable ss
  have hlimits : Readable (depth + 2) (UserLimit.wire.list.write
      [⟨"nofile", l.filesSoft, l.filesHard⟩, ⟨"nproc", l.processesSoft, l.processesHard⟩]) :=
    UserLimit.lawful_wire.list.readable _
  refine .obj ?_
  simp only [List.forall_mem_cons, List.not_mem_nil, false_imp_iff, implies_true, and_true]
  exact ⟨hinteger _, hinteger _, .str _, hinteger _, hinteger _, hinteger _, hlimits, .str _,
    htexts _, .str _, .str _, htexts _⟩

theorem SandboxParams.readable_toJson (p : SandboxParams) : Readable maxDepth p.toJson := by
  refine .obj ?_
  simp only [List.forall_mem_cons, List.not_mem_nil, false_imp_iff, implies_true, and_true]
  exact ⟨lawful_strings.readable _, .str _, .str _, p.limits.readable_hostConfig⟩

namespace CreateBody

theorem part?_integer {members : List (String × Json)} {name : String} {n : Int64}
    (h : members.lookup name = some (.int n.toInt)) :
    (Json.obj members).part? .int64 name = some n :=
  part?_of_lookup Wire.lawful_int64 h

theorem part?_text {members : List (String × Json)} {name s : String}
    (h : members.lookup name = some (.str s)) : (Json.obj members).part? .string name = some s :=
  part?_of_lookup Wire.lawful_string h

theorem part?_texts {members : List (String × Json)} {name : String} {ss : List String}
    (h : members.lookup name = some (SandboxLimits.strings ss)) :
    (Json.obj members).part? (.list .string) name = some ss :=
  part?_of_lookup lawful_strings h

theorem part?_limits {members : List (String × Json)} {name : String} {ls : List UserLimit}
    (h : members.lookup name = some (UserLimit.wire.list.write ls)) :
    (Json.obj members).part? UserLimit.wire.list name = some ls :=
  part?_of_lookup UserLimit.lawful_wire.list h

theorem cgroupMode_eq (l : SandboxLimits) : l.cgroupMode =
    if l.cgroupNamespace = "private" ∨ l.cgroupNamespace = "host" then l.cgroupNamespace
    else "" := by
  simp [SandboxLimits.cgroupMode, SandboxLimits.cgroupModes]

theorem ofJson?_toJson (p : SandboxParams) : ofJson? p.toJson = some p.asked := by
  have hhost : p.toJson.member? "HostConfig" = some p.limits.hostConfig := rfl
  have hlimits : p.limits.hostConfig.part? UserLimit.wire.list "Ulimits" =
      some p.asked.userLimits := part?_limits rfl
  rw [ofJson?, hhost, Option.bind_eq_bind, Option.bind_some, hlimits]
  rw [SandboxParams.toJson, SandboxLimits.hostConfig, part?_text rfl, part?_texts rfl,
    part?_text rfl, part?_texts rfl, part?_texts rfl, part?_text rfl, part?_text rfl,
    part?_text rfl, part?_integer rfl, part?_integer rfl, part?_integer rfl, part?_integer rfl,
    part?_integer rfl, part?_text rfl]
  rw [SandboxParams.asked, ← cgroupMode_eq]
  rfl

theorem read?_bytes (p : SandboxParams) : read? p.toJson.bytes = some p.asked := by
  rw [read?, ofBytes?_bytes p.readable_toJson, Option.bind_some, ofJson?_toJson]

end CreateBody

/-! ### Telling containers apart -/

namespace SandboxParams

theorem create_request (p : SandboxParams) : (EngineCall.create p).request =
    .ok ⟨.post, "/v1.41/containers/create", some "application/json", p.toJson.bytes⟩ := by
  have htarget : Http.target? (EngineRequest.version ++ "/containers/create") =
      some "/v1.41/containers/create" := by decide +kernel
  simp only [EngineCall.request, EngineRequest.ofPath, htarget]
  rfl

/-- A mode that the engine is told as it is. -/
def HasMode (p : SandboxParams) : Prop := p.limits.cgroupNamespace ∈ ["private", "host"]

instance : DecidablePred HasMode := fun p =>
  inferInstanceAs (Decidable (p.limits.cgroupNamespace ∈ ["private", "host"]))

theorem HasMode.cgroupMode_eq {p : SandboxParams} (h : p.HasMode) :
    p.asked.cgroupMode = p.limits.cgroupNamespace := by
  have hmode : p.limits.cgroupNamespace = "private" ∨ p.limits.cgroupNamespace = "host" := by
    simpa [HasMode] using h
  exact if_pos hmode

/-- Everything but another mode than these can be told from what is asked for. -/
theorem eq_of_asked_eq {p p' : SandboxParams} (h : p.HasMode) (h' : p'.HasMode)
    (hasked : p.asked = p'.asked) : p = p' := by
  have hmode : p.limits.cgroupNamespace = p'.limits.cgroupNamespace := by
    rw [← h.cgroupMode_eq, ← h'.cgroupMode_eq, hasked]
  obtain ⟨_, _, _, ⟨_⟩⟩ := p
  obtain ⟨_, _, _, ⟨_⟩⟩ := p'
  dsimp only at hmode
  simp only [asked, CreateBody.mk.injEq, List.cons.injEq, UserLimit.mk.injEq] at hasked
  simp [hasked, hmode]

end SandboxParams

/-- The body of every request for a container reads back as what the parameters ask for, and says
besides that no program may gain rights. So parameters with a mode that the engine is told, which
differ in anything, give bodies that differ. -/
theorem create_body_tells_all (p : SandboxParams) :
    ∃ request, (EngineCall.create p).request = .ok request ∧
      CreateBody.read? request.body = some p.asked ∧
      ∀ (p' : SandboxParams) (request' : EngineRequest),
        (EngineCall.create p').request = .ok request' → p.HasMode → p'.HasMode → p ≠ p' →
        request.body ≠ request'.body := by
  refine ⟨_, p.create_request, CreateBody.read?_bytes p, ?_⟩
  intro p' request' hrequest h h' hne hsame
  rw [p'.create_request] at hrequest
  cases hrequest
  refine hne (SandboxParams.eq_of_asked_eq h h' (Option.some.inj ?_))
  rw [← CreateBody.read?_bytes, ← CreateBody.read?_bytes]
  exact congrArg CreateBody.read? hsame

/-- A sandbox with its limits on memory and swap the other way round. -/
theorem create_body_tells_all_swapped :
    let limits := SandboxLimits.ofLookup fun _ => none
    let p : SandboxParams := ⟨"runner", ["a\"b\n"], "/work", limits⟩
    let p' : SandboxParams :=
      { p with limits := { limits with memory := limits.memorySwap, memorySwap := limits.memory } }
    p.HasMode ∧ p'.HasMode ∧ p.toJson.bytes ≠ p'.toJson.bytes := by
  intro limits p p'
  have h : p.HasMode := by decide +kernel
  have h' : p'.HasMode := by decide +kernel
  obtain ⟨request, hrequest, -, hdiffer⟩ := create_body_tells_all p
  rw [p.create_request] at hrequest
  cases hrequest
  exact ⟨h, h', hdiffer p' _ p'.create_request h h' (by decide +kernel)⟩

end SandboxWorker
