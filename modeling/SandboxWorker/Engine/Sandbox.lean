import SandboxWorker.Config.Sandbox
import SandboxWorker.Json.Basic
/-! What one sandbox container is made of, as the engine is told. -/
namespace SandboxWorker

structure SandboxParams where
  image : String
  command : List String
  workingDir : String
  limits : SandboxLimits
deriving DecidableEq, Repr

namespace SandboxLimits

/-- The modes of the control group namespace; the empty one leaves the choice to the engine. -/
def cgroupModes : List String := ["private", "host"]

def cgroupMode (l : SandboxLimits) : String :=
  if cgroupModes.contains l.cgroupNamespace then l.cgroupNamespace else ""

/-- No program may gain rights that its user does not have. -/
def securityOptions : List String := ["no-new-privileges"]

def strings (ss : List String) : Json := .arr (ss.map .str)

def limit (name : String) (soft hard : Int64) : Json :=
  .obj [("Name", .str name), ("Soft", .int soft.toInt), ("Hard", .int hard.toInt)]

def hostConfig (l : SandboxLimits) : Json :=
  .obj [("Memory", .int l.memory.toInt),
    ("CpuQuota", .int l.cpuQuota.toInt),
    ("CpusetCpus", .str l.cpuSet),
    ("KernelMemoryTCP", .int l.kernelMemoryTcp.toInt),
    ("MemorySwap", .int l.memorySwap.toInt),
    ("PidsLimit", .int l.pids.toInt),
    ("Ulimits", .arr [limit "nofile" l.filesSoft l.filesHard,
      limit "nproc" l.processesSoft l.processesHard]),
    ("NetworkMode", .str l.networkMode),
    ("CapDrop", strings l.capDrop),
    ("CgroupnsMode", .str l.cgroupMode),
    ("IpcMode", .str l.ipcMode),
    ("SecurityOpt", strings securityOptions)]

end SandboxLimits

def SandboxParams.toJson (p : SandboxParams) : Json :=
  .obj [("Cmd", SandboxLimits.strings p.command),
    ("Image", .str p.image),
    ("WorkingDir", .str p.workingDir),
    ("HostConfig", p.limits.hostConfig)]

end SandboxWorker
