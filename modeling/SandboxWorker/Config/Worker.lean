import SandboxWorker.Config.Queue
import SandboxWorker.Config.Sandbox
/-! Everything a worker is told when it starts. Times are in milliseconds. -/
namespace SandboxWorker

structure RunnerConfig where
  image : String
  /-- The directory of the container that holds the source. -/
  workDir : String
  executionTimeout : Nat
  logsPollInterval : Nat
  /-- How long a killed container may take to report its exit code. -/
  killGrace : Nat
deriving DecidableEq, Repr

def RunnerConfig.ofLookup (l : Lookup) : RunnerConfig where
  image := l.text "RUNNER_IMAGE" "runner-mono"
  workDir := l.text "RUNNER_WORK_DIR" "/home/runner"
  executionTimeout := l.nat64 "EXECUTION_TIMEOUT_MS" 5000
  logsPollInterval := l.nat64 "LOGS_POLL_INTERVAL_MS" 100
  killGrace := l.nat64 "KILL_GRACE_MS" 1000

structure StorageConfig where
  root : String
  bucket : String
  /-- Where sources, archives and logs are worked on; none for the system's own place. -/
  scratchDir : Option String
deriving DecidableEq, Repr

def StorageConfig.ofLookup (l : Lookup) : StorageConfig where
  root := l.text "ARTIFACT_ROOT" "/var/lib/ces/artifacts"
  bucket := l.text "ARTIFACT_BUCKET" "code-execution"
  scratchDir := l "SCRATCH_DIR"

structure WorkerConfig where
  /-- At least one request is worked on. -/
  concurrency : Nat
  dockerSocket : String
  healthPort : Nat
  queue : QueueConfig
  runner : RunnerConfig
  sandbox : SandboxLimits
  storage : StorageConfig
deriving DecidableEq, Repr

def WorkerConfig.ofLookup (l : Lookup) : WorkerConfig where
  concurrency := max 1 (l.nat64 "WORKER_CONCURRENCY" 1)
  dockerSocket := l.text "DOCKER_SOCKET" "/var/run/docker.sock"
  healthPort := l.nat16 "HEALTH_PORT" 8081
  queue := .ofLookup l
  runner := .ofLookup l
  sandbox := .ofLookup l
  storage := .ofLookup l

end SandboxWorker
