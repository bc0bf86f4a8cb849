import SandboxWorker.Config.Lookup
import SandboxWorker.Text.Blank
import SandboxWorker.Text.Split
/-! What a container is cut off from, and how much it may use. -/
namespace SandboxWorker

structure SandboxLimits where
  capDrop : List String
  cgroupNamespace : String
  networkMode : String
  cpuSet : String
  cpuQuota : Int64
  memory : Int64
  memorySwap : Int64
  kernelMemoryTcp : Int64
  pids : Int64
  ipcMode : String
  filesSoft : Int64
  filesHard : Int64
  processesSoft : Int64
  processesHard : Int64
deriving DecidableEq, Repr

namespace SandboxLimits

/-- The names in a list with commas, blanks around them dropped. -/
def names (s : String) : List String :=
  (((Text.split ',' s.toList).map Text.trim).filter (!·.isEmpty)).map String.ofList

def ofLookup (l : Lookup) : SandboxLimits where
  capDrop := names (l.text "SANDBOX_CAP_DROP" "ALL")
  cgroupNamespace := l.text "SANDBOX_CGROUPNS_MODE" "private"
  networkMode := l.text "SANDBOX_NETWORK_MODE" "none"
  cpuSet := l.text "SANDBOX_CPUSET_CPUS" "1"
  cpuQuota := l.int64 "SANDBOX_CPU_QUOTA" 50000
  memory := l.int64 "SANDBOX_MEMORY_BYTES" 100000000
  memorySwap := l.int64 "SANDBOX_MEMORY_SWAP_BYTES" 500000000
  kernelMemoryTcp := l.int64 "SANDBOX_KERNEL_MEMORY_TCP_BYTES" 100000000
  pids := l.int64 "SANDBOX_PIDS_LIMIT" 8
  ipcMode := l.text "SANDBOX_IPC_MODE" "none"
  filesSoft := l.int64 "SANDBOX_NOFILE_SOFT" 128
  filesHard := l.int64 "SANDBOX_NOFILE_HARD" 256
  processesSoft := l.int64 "SANDBOX_NPROC_SOFT" 8
  processesHard := l.int64 "SANDBOX_NPROC_HARD" 16

end SandboxLimits
end SandboxWorker
