import Mathlib.Data.List.Nodup
import SandboxWorker.Config.Worker
import SandboxWorker.Proofs.Text.Numerals
/-! The settings of a worker. Each is what the text under its own name reads as, and its default
where there is no such text or none that reads. So no setting stands for another, and a change under
one name changes one setting at most. -/
namespace SandboxWorker
open Decimal (Numeral NumberType)

structure Slot (α : Type) where
  name : String
  default : α
  field : WorkerConfig → α

/-- The number that is told under a name; none if the text there is no number of the type. -/
def Lookup.number? (l : Lookup) (t : NumberType) (name : String) : Option Int :=
  (l name).bind fun text => t.read? text.toList

inductive Amount where
  | concurrency
  | healthPort
  | requestPrefetch
  | executionTimeout
  | logsPollInterval
  | killGrace
  | cpuQuota
  | memory
  | memorySwap
  | kernelMemoryTcp
  | pids
  | filesSoft
  | filesHard
  | processesSoft
  | processesHard
deriving DecidableEq, Repr

namespace Amount

def slot : Amount → Slot Int
  | concurrency => ⟨"WORKER_CONCURRENCY", 1, fun c => c.concurrency⟩
  | healthPort => ⟨"HEALTH_PORT", 8081, fun c => c.healthPort⟩
  | requestPrefetch => ⟨"REQUEST_PREFETCH", 1, fun c => c.queue.requestPrefetch⟩
  | executionTimeout => ⟨"EXECUTION_TIMEOUT_MS", 5000, fun c => c.runner.executionTimeout⟩
  | logsPollInterval => ⟨"LOGS_POLL_INTERVAL_MS", 100, fun c => c.runner.logsPollInterval⟩
  | killGrace => ⟨"KILL_GRACE_MS", 1000, fun c => c.runner.killGrace⟩
  | cpuQuota => ⟨"SANDBOX_CPU_QUOTA", 50000, fun c => c.sandbox.cpuQuota.toInt⟩
  | memory => ⟨"SANDBOX_MEMORY_BYTES", 100000000, fun c => c.sandbox.memory.toInt⟩
  | memorySwap => ⟨"SANDBOX_MEMORY_SWAP_BYTES", 500000000, fun c => c.sandbox.memorySwap.toInt⟩
  | kernelMemoryTcp =>
    ⟨"SANDBOX_KERNEL_MEMORY_TCP_BYTES", 100000000, fun c => c.sandbox.kernelMemoryTcp.toInt⟩
  | pids => ⟨"SANDBOX_PIDS_LIMIT", 8, fun c => c.sandbox.pids.toInt⟩
  | filesSoft => ⟨"SANDBOX_NOFILE_SOFT", 128, fun c => c.sandbox.filesSoft.toInt⟩
  | filesHard => ⟨"SANDBOX_NOFILE_HARD", 256, fun c => c.sandbox.filesHard.toInt⟩
  | processesSoft => ⟨"SANDBOX_NPROC_SOFT", 8, fun c => c.sandbox.processesSoft.toInt⟩
  | processesHard => ⟨"SANDBOX_NPROC_HARD", 16, fun c => c.sandbox.processesHard.toInt⟩

def type : Amount → NumberType
  | healthPort => .natural 16
  | concurrency | requestPrefetch | executionTimeout | logsPollInterval | killGrace => .natural 64
  | _ => .integer64

/-- What comes of a number. A worker works on one request at least and holds one at least. -/
def settled : Amount → Int → Int
  | concurrency, n | requestPrefetch, n => if n = 0 then 1 else n
  | _, n => n

def told? (a : Amount) (l : Lookup) : Option Int := l.number? a.type a.slot.name

/-- A numeral that is taken from under the name of a setting. -/
def Written (a : Amount) (l : Lookup) (w : Numeral) : Prop :=
  l a.slot.name = some w.text ∧ a.type.Takes w

end Amount

inductive Wording where
  | dockerSocket
  | redisUrl
  | requestQueue
  | responseQueue
  | image
  | workDir
  | cgroupNamespace
  | networkMode
  | cpuSet
  | ipcMode
  | storageRoot
  | bucket
deriving DecidableEq, Repr

def Wording.slot : Wording → Slot String
  | dockerSocket => ⟨"DOCKER_SOCKET", "/var/run/docker.sock", (·.dockerSocket)⟩
  | redisUrl => ⟨"REDIS_URL", "redis://127.0.0.1:6379", (·.queue.redisUrl)⟩
  | requestQueue => ⟨"REQUEST_QUEUE", "code-execution-request", (·.queue.requestQueue)⟩
  | responseQueue => ⟨"RESPONSE_QUEUE", "code-execution-response", (·.queue.responseQueue)⟩
  | image => ⟨"RUNNER_IMAGE", "runner-mono", (·.runner.image)⟩
  | workDir => ⟨"RUNNER_WORK_DIR", "/home/runner", (·.runner.workDir)⟩
  | cgroupNamespace => ⟨"SANDBOX_CGROUPNS_MODE", "private", (·.sandbox.cgroupNamespace)⟩
  | networkMode => ⟨"SANDBOX_NETWORK_MODE", "none", (·.sandbox.networkMode)⟩
  | cpuSet => ⟨"SANDBOX_CPUSET_CPUS", "1", (·.sandbox.cpuSet)⟩
  | ipcMode => ⟨"SANDBOX_IPC_MODE", "none", (·.sandbox.ipcMode)⟩
  | storageRoot => ⟨"ARTIFACT_ROOT", "/var/lib/ces/artifacts", (·.storage.root)⟩
  | bucket => ⟨"ARTIFACT_BUCKET", "code-execution", (·.storage.bucket)⟩

inductive Setting where
  | amount (a : Amount)
  | wording (t : Wording)
  | capDrop
  | scratchDir
deriving DecidableEq, Repr

namespace Setting

def Value : Setting → Type
  | amount _ => Int
  | wording _ => String
  | capDrop => List String
  | scratchDir => Option String

def name : Setting → String
  | amount a => a.slot.name
  | wording t => t.slot.name
  | capDrop => "SANDBOX_CAP_DROP"
  | scratchDir => "SCRATCH_DIR"

def field : (s : Setting) → WorkerConfig → s.Value
  | amount a => a.slot.field
  | wording t => t.slot.field
  | capDrop => fun c => c.sandbox.capDrop
  | scratchDir => fun c => c.storage.scratchDir

end Setting

def Lookup.AlikeBut (name : String) (l l' : Lookup) : Prop :=
  ∀ other, other ≠ name → l other = l' other

def WorkerConfig.AlikeBut (s : Setting) (c c' : WorkerConfig) : Prop :=
  ∀ other : Setting, other ≠ s → other.field c = other.field c'

/-! ### One setting, one name -/

namespace Setting

def amounts : List Amount :=
  [.concurrency, .healthPort, .requestPrefetch, .executionTimeout, .logsPollInterval, .killGrace,
    .cpuQuota, .memory, .memorySwap, .kernelMemoryTcp, .pids, .filesSoft, .filesHard,
    .processesSoft, .processesHard]

def wordings : List Wording :=
  [.dockerSocket, .redisUrl, .requestQueue, .responseQueue, .image, .workDir, .cgroupNamespace,
    .networkMode, .cpuSet, .ipcMode, .storageRoot, .bucket]

def all : List Setting :=
  [capDrop, scratchDir] ++ amounts.map amount ++ wordings.map wording

theorem mem_all (s : Setting) : s ∈ all := by
  cases s with
  | amount a => cases a <;> decide
  | wording t => cases t <;> decide
  | capDrop | scratchDir => decide

theorem nodup_names : (all.map name).Nodup := by
  decide +kernel

theorem eq_of_name_eq {s s' : Setting} (h : s.name = s'.name) : s = s' :=
  List.inj_on_of_nodup_map nodup_names s.mem_all s'.mem_all h

end Setting

theorem WorkerConfig.ext_settings {c c' : WorkerConfig}
    (h : ∀ s : Setting, s.field c = s.field c') : c = c' := by
  have hnatural (a : Amount) {m n : Nat} (hm : a.slot.field c = m) (hn : a.slot.field c' = n) :
      m = n := Int.ofNat_inj.mp (hm.symm.trans ((h (.amount a)).trans hn))
  have hinteger (a : Amount) {m n : Int64} (hm : a.slot.field c = m.toInt)
      (hn : a.slot.field c' = n.toInt) : m = n :=
    Int64.toInt_inj.mp (hm.symm.trans ((h (.amount a)).trans hn))
  have hwording (t : Wording) : t.slot.field c = t.slot.field c' := h (.wording t)
  obtain ⟨_, _, _, ⟨_⟩, ⟨_⟩, ⟨_⟩, ⟨_⟩⟩ := c
  obtain ⟨_, _, _, ⟨_⟩, ⟨_⟩, ⟨_⟩, ⟨_⟩⟩ := c'
  congr 1
  · exact hnatural .concurrency rfl rfl
  · exact hwording .dockerSocket
  · exact hnatural .healthPort rfl rfl
  · congr 1
    · exact hwording .redisUrl
    · exact hwording .requestQueue
    · exact hwording .responseQueue
    · exact hnatural .requestPrefetch rfl rfl
  · congr 1
    · exact hwording .image
    · exact hwording .workDir
    · exact hnatural .executionTimeout rfl rfl
    · exact hnatural .logsPollInterval rfl rfl
    · exact hnatural .killGrace rfl rfl
  · congr 1
    · exact h .capDrop
    · exact hwording .cgroupNamespace
    · exact hwording .networkMode
    · exact hwording .cpuSet
    · exact hinteger .cpuQuota rfl rfl
    · exact hinteger .memory rfl rfl
    · exact hinteger .memorySwap rfl rfl
    · exact hinteger .kernelMemoryTcp rfl rfl
    · exact hinteger .pids rfl rfl
    · exact hwording .ipcMode
    · exact hinteger .filesSoft rfl rfl
    · exact hinteger .filesHard rfl rfl
    · exact hinteger .processesSoft rfl rfl
    · exact hinteger .processesHard rfl rfl
  · congr 1
    · exact hwording .storageRoot
    · exact hwording .bucket
    · exact h .scratchDir

namespace Lookup

theorem alikeBut_ofList (front back : List (String × String)) (name text text' : String) :
    (ofList (front ++ (name, text) :: back)).AlikeBut name
      (ofList (front ++ (name, text') :: back)) := by
  intro other hother
  have hname : (other == name) = false := beq_eq_false_iff_ne.mpr hother
  unfold ofList
  rw [List.lookup_append, List.lookup_append, List.lookup_cons, List.lookup_cons, hname]

variable (l : Lookup) (name : String)

theorem natBelow_eq (bits default : Nat) : (l.natBelow (Nat.pow 2 bits) name default : Int) =
    (l.number? (.natural bits) name).getD default := by
  unfold natBelow number? NumberType.read?
  cases l name with
  | none => rfl
  | some text =>
    dsimp only [Option.bind_some]
    exact (Option.getD_map Int.ofNat default _).symm

theorem int64_eq (default : Int64) : (l.int64 name default).toInt =
    (l.number? .integer64 name).getD default.toInt := by
  unfold int64 number? NumberType.read?
  cases l name with
  | none => rfl
  | some text =>
    dsimp only [Option.bind_some]
    exact (Option.getD_map Int64.toInt default _).symm

end Lookup

namespace Amount
variable (a : Amount) (l : Lookup)

theorem max_one_eq {n : Nat} {told : Int} (h : (n : Int) = told) :
    ((max 1 n : Nat) : Int) = if told = 0 then 1 else told := by
  subst h
  split <;> omega

theorem field_ofLookup :
    a.slot.field (.ofLookup l) = a.settled ((a.told? l).getD a.slot.default) := by
  cases a with
  | concurrency | requestPrefetch => exact max_one_eq (l.natBelow_eq _ 64 1)
  | healthPort => exact l.natBelow_eq _ 16 _
  | executionTimeout | logsPollInterval | killGrace => exact l.natBelow_eq _ 64 _
  | cpuQuota | memory | memorySwap | kernelMemoryTcp | pids | filesSoft | filesHard
  | processesSoft | processesHard => exact l.int64_eq _ _

theorem settled_default : a.settled a.slot.default = a.slot.default := by
  cases a <;> rfl

variable {a l}

theorem told?_eq_some_iff {n : Int} :
    a.told? l = some n ↔ ∃ w, a.Written l w ∧ w.value = n := by
  unfold told? Lookup.number?
  rw [Option.bind_eq_some_iff]
  constructor
  · rintro ⟨text, htext, hread⟩
    obtain ⟨w, hw, htakes, hvalue⟩ := NumberType.read?_eq_some_iff.mp hread
    have htext' : text = w.text := by rw [Numeral.text, hw, String.ofList_toList]
    exact ⟨w, ⟨htext' ▸ htext, htakes⟩, hvalue⟩
  · rintro ⟨w, ⟨htext, htakes⟩, hvalue⟩
    have hchars : w.chars = w.text.toList := String.toList_ofList.symm
    exact ⟨w.text, htext, NumberType.read?_eq_some_iff.mpr ⟨w, hchars, htakes, hvalue⟩⟩

theorem told?_eq_none_iff : a.told? l = none ↔ ∀ w, ¬a.Written l w := by
  rw [Option.eq_none_iff_forall_ne_some]
  constructor
  · exact fun h w hw => h w.value (told?_eq_some_iff.mpr ⟨w, hw, rfl⟩)
  · intro h n hn
    obtain ⟨w, hw, -⟩ := told?_eq_some_iff.mp hn
    exact h w hw

theorem field_of_written {w : Numeral} (h : a.Written l w) :
    a.slot.field (.ofLookup l) = a.settled w.value := by
  rw [field_ofLookup, told?_eq_some_iff.mpr ⟨w, h, rfl⟩, Option.getD_some]

theorem field_of_not_written (h : ∀ w, ¬a.Written l w) :
    a.slot.field (.ofLookup l) = a.slot.default := by
  rw [field_ofLookup, told?_eq_none_iff.mpr h, Option.getD_none, settled_default]

end Amount

theorem Wording.field_ofLookup (t : Wording) (l : Lookup) :
    t.slot.field (.ofLookup l) = (l t.slot.name).getD t.slot.default := by
  cases t <;> rfl

theorem Setting.field_congr {s : Setting} {l l' : Lookup} (h : l s.name = l' s.name) :
    s.field (.ofLookup l) = s.field (.ofLookup l') := by
  cases s with
  | amount a =>
    have htold : a.told? l = a.told? l' :=
      congrArg (fun told : Option String => told.bind fun text => a.type.read? text.toList) h
    exact (a.field_ofLookup l).trans (htold ▸ (a.field_ofLookup l').symm)
  | wording t => exact (t.field_ofLookup l).trans (h ▸ (t.field_ofLookup l').symm)
  | capDrop =>
    have htext : l.text "SANDBOX_CAP_DROP" "ALL" = l'.text "SANDBOX_CAP_DROP" "ALL" :=
      congrArg (Option.getD · "ALL") h
    exact congrArg SandboxLimits.names htext
  | scratchDir => exact h

/-- Each number of a configuration is what the numeral under its own name denotes, zeros in front or
not, if there is one that its type takes, and its default otherwise; but a worker works on one
request at least and holds one at least. A configuration is no more than its settings, and lookups
that differ under one name give configurations that differ in the setting of that name at most, and
in nothing if it is the name of none. -/
theorem settings_by_own_names (l : Lookup) :
    (∀ a : Amount,
      (∀ w, a.Written l w → a.slot.field (.ofLookup l) = a.settled w.value ∧
        ∀ (zeros : Nat) (l' : Lookup), l' a.slot.name = some (w.withZeros zeros).text →
          a.slot.field (.ofLookup l') = a.slot.field (.ofLookup l)) ∧
      ((∀ w, ¬a.Written l w) → a.slot.field (.ofLookup l) = a.slot.default)) ∧
    1 ≤ (WorkerConfig.ofLookup l).concurrency ∧ 1 ≤ (QueueConfig.ofLookup l).requestPrefetch ∧
    (WorkerConfig.ofLookup l).queue = QueueConfig.ofLookup l ∧
    (∀ c c' : WorkerConfig, (∀ s : Setting, s.field c = s.field c') → c = c') ∧
    ∀ (l' : Lookup) (name : String), l.AlikeBut name l' →
      (∀ s : Setting, s.name = name → (WorkerConfig.ofLookup l).AlikeBut s (.ofLookup l')) ∧
      ((∀ s : Setting, s.name ≠ name) → WorkerConfig.ofLookup l = .ofLookup l') := by
  refine ⟨fun a => ⟨fun w hw => ⟨Amount.field_of_written hw, ?_⟩, Amount.field_of_not_written⟩,
    Nat.le_max_left _ _, Nat.le_max_left _ _, rfl, fun _ _ => WorkerConfig.ext_settings, ?_⟩
  · intro zeros l' hl'
    have hw' : a.Written l' (w.withZeros zeros) := ⟨hl', hw.2.withZeros zeros⟩
    rw [Amount.field_of_written hw', Amount.field_of_written hw, Numeral.value_withZeros]
  · intro l' name hl'
    constructor
    · rintro s rfl other hother
      exact Setting.field_congr (hl' _ fun hname => hother (Setting.eq_of_name_eq hname))
    · exact fun hname => WorkerConfig.ext_settings fun s => Setting.field_congr (hl' _ (hname s))

/-- Numbers at the ends of their types, one past the end, and a change to one of them. -/
theorem settings_by_own_names_limits :
    let front := [("HEALTH_PORT", "+065535"), ("REQUEST_PREFETCH", "00"),
      ("SANDBOX_NOFILE_HARD", "9223372036854775808")]
    let told (files : String) := Lookup.ofList (front ++ [("SANDBOX_NOFILE_SOFT", files)])
    let c := WorkerConfig.ofLookup (told "-9223372036854775808")
    c.healthPort = 65535 ∧ c.queue.requestPrefetch = 1 ∧ c.sandbox.filesHard.toInt = 256 ∧
    c.sandbox.filesSoft.toInt = -9223372036854775808 ∧
    c.AlikeBut (.amount .filesSoft) (.ofLookup (told "1")) := by
  intro front told c
  obtain ⟨hnumbers, -, -, -, -, hapart⟩ := settings_by_own_names (told "-9223372036854775808")
  have hport := ((hnumbers .healthPort).1 ⟨some .plus, [0, 6, 5, 5, 3, 5], by decide⟩
    ⟨by decide +kernel, nofun, by decide +kernel, by decide +kernel⟩).1
  have hprefetch := ((hnumbers .requestPrefetch).1 ⟨none, [0, 0], by decide⟩
    ⟨by decide +kernel, nofun, by decide +kernel, by decide +kernel⟩).1
  have hhard := (hnumbers .filesHard).2 (Amount.told?_eq_none_iff.mp (by decide +kernel))
  have hsoft := ((hnumbers .filesSoft).1
    ⟨some .minus, [9, 2, 2, 3, 3, 7, 2, 0, 3, 6, 8, 5, 4, 7, 7, 5, 8, 0, 8], by decide⟩
    ⟨by decide +kernel, fun _ => rfl, by decide +kernel, by decide +kernel⟩).1
  have hchange := (hapart (told "1") _ (Lookup.alikeBut_ofList front [] _ _ _)).1
  exact ⟨Int.ofNat_inj.mp hport, Int.ofNat_inj.mp hprefetch, hhard, hsoft, hchange _ rfl⟩

end SandboxWorker
