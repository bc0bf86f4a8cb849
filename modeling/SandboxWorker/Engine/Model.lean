import SandboxWorker.Engine.Status
import SandboxWorker.Json.Shape
/-! The engine's model of a container. Only its state is of interest, but a container is read only
if each part of it has the shape that the model gives it. -/
namespace SandboxWorker
open Json

namespace ContainerStatus

/-- The name by which the engine calls a state; an empty name stands for no container. -/
def engineName : ContainerStatus → String
  | .notFound => ""
  | .created => "created"
  | .running => "running"
  | .paused => "paused"
  | .restarting => "restarting"
  | .removing => "removing"
  | .exited => "exited"
  | .dead => "dead"

def all : List ContainerStatus :=
  [.notFound, .created, .running, .paused, .restarting, .removing, .exited, .dead]

def ofEngineName? (name : String) : Option ContainerStatus := all.find? (·.engineName == name)

@[simp] theorem ofEngineName?_engineName (c : ContainerStatus) :
    ofEngineName? c.engineName = some c := by
  cases c <;> rfl

end ContainerStatus

structure ContainerState where
  status : Option ContainerStatus
  exitCode : Option Int64
deriving DecidableEq, Repr

namespace EngineModel

/-! ### Kinds of parts -/

def int64 : Shape := .integer Int64.minValue.toInt Int64.maxValue.toInt

def int32 : Shape := .integer Int32.minValue.toInt Int32.maxValue.toInt

def unsigned16 : Shape := .integer 0 0xFFFF

def unsigned64 : Shape := .integer 0 0xFFFFFFFFFFFFFFFF

def texts : Shape := .list .text

def labels : Shape := .table .text

def names : Shape := .table .empty

def choice (names : List String) : Shape := .choice ("" :: names)

/-! ### Parts of a record -/

abbrev Part := String × Bool × Shape

def parts (s : Shape) (names : List String) : List Part :=
  names.map fun name => (name, false, s.nullable)

def part (name : String) (s : Shape) : Part := (name, false, s.nullable)

/-! ### Health -/

def probe : Shape := .record
  (parts .text ["Start", "End"] ++ parts int64 ["ExitCode"] ++ parts .text ["Output"])

def health : Shape := .record
  [part "Status" (choice ["none", "starting", "healthy", "unhealthy"]), part "FailingStreak" int64,
    part "Log" (.list probe)]

/-! ### State -/

def state : Shape := .record
  (part "Status" (.choice (ContainerStatus.all.map (·.engineName))) ::
    parts .flag ["Running", "Paused", "Restarting", "OOMKilled", "Dead"] ++
    parts int64 ["Pid", "ExitCode"] ++ parts .text ["Error", "StartedAt", "FinishedAt"] ++
    [part "Health" health])

/-! ### Resources and settings of the host -/

def deviceWeight : Shape := .record [part "Path" .text, part "Weight" unsigned64]

def deviceRate : Shape := .record [part "Path" .text, part "Rate" int64]

def device : Shape := .record (parts .text ["PathOnHost", "PathInContainer", "CgroupPermissions"])

def deviceRequest : Shape := .record
  [part "Driver" .text, part "Count" int64, part "DeviceIDs" texts,
    part "Capabilities" (.list texts), part "Options" labels]

def userLimit : Shape := .record (parts .text ["Name"] ++ parts int64 ["Soft", "Hard"])

def logConfig : Shape := .record [part "Type" .text, part "Config" labels]

def binding : Shape := .record (parts .text ["HostIp", "HostPort"])

def ports : Shape := .table (.nullable (.list binding))

def restartPolicy : Shape := .record
  [part "Name" (choice ["no", "always", "unless-stopped", "on-failure"]),
    part "MaximumRetryCount" int64]

def mountTypes : Shape := choice ["bind", "volume", "tmpfs", "npipe", "cluster"]

def bindOptions : Shape := .record
  (part "Propagation" (choice ["private", "rprivate", "shared", "rshared", "slave", "rslave"]) ::
    parts .flag ["NonRecursive", "CreateMountpoint", "ReadOnlyNonRecursive",
      "ReadOnlyForceRecursive"])

def volumeDriver : Shape := .record [part "Name" .text, part "Options" labels]

def volumeOptions : Shape := .record
  [part "NoCopy" .flag, part "Labels" labels, part "DriverConfig" volumeDriver,
    part "Subpath" .text]

def tmpfsOptions : Shape := .record (parts int64 ["SizeBytes", "Mode"])

def mount : Shape := .record
  [part "Target" .text, part "Source" .text, part "Type" mountTypes, part "ReadOnly" .flag,
    part "Consistency" .text, part "BindOptions" bindOptions, part "VolumeOptions" volumeOptions,
    part "TmpfsOptions" tmpfsOptions]

def hostConfig : Shape := .record
  (parts int64 ["CpuShares", "Memory"] ++
    [part "CgroupParent" .text, part "BlkioWeight" unsigned16,
      part "BlkioWeightDevice" (.list deviceWeight)] ++
    parts (.list deviceRate) ["BlkioDeviceReadBps", "BlkioDeviceWriteBps",
      "BlkioDeviceReadIOps", "BlkioDeviceWriteIOps"] ++
    parts int64 ["CpuPeriod", "CpuQuota", "CpuRealtimePeriod", "CpuRealtimeRuntime"] ++
    parts .text ["CpusetCpus", "CpusetMems"] ++
    [part "Devices" (.list device), part "DeviceCgroupRules" texts,
      part "DeviceRequests" (.list deviceRequest)] ++
    parts int64 ["KernelMemoryTCP", "MemoryReservation", "MemorySwap", "MemorySwappiness",
      "NanoCpus"] ++
    parts .flag ["OomKillDisable", "Init"] ++
    [part "PidsLimit" int64, part "Ulimits" (.list userLimit)] ++
    parts int64 ["CpuCount", "CpuPercent", "IOMaximumIOps", "IOMaximumBandwidth"] ++
    [part "Binds" texts, part "ContainerIDFile" .text, part "LogConfig" logConfig,
      part "NetworkMode" .text, part "PortBindings" ports, part "RestartPolicy" restartPolicy,
      part "AutoRemove" .flag, part "VolumeDriver" .text, part "VolumesFrom" texts,
      part "Mounts" (.list mount), part "ConsoleSize" (.list int32),
      part "Annotations" labels] ++
    parts texts ["CapAdd", "CapDrop"] ++
    [part "CgroupnsMode" (choice ["private", "host"])] ++
    parts texts ["Dns", "DnsOptions", "DnsSearch", "ExtraHosts", "GroupAdd"] ++
    parts .text ["IpcMode", "Cgroup"] ++
    [part "Links" texts, part "OomScoreAdj" int64, part "PidMode" .text] ++
    parts .flag ["Privileged", "PublishAllPorts", "ReadonlyRootfs"] ++
    [part "SecurityOpt" texts] ++
    parts labels ["StorageOpt", "Tmpfs"] ++
    parts .text ["UTSMode", "UsernsMode"] ++
    [part "ShmSize" int64, part "Sysctls" labels, part "Runtime" .text,
      part "Isolation" (choice ["default", "process", "hyperv"])] ++
    parts texts ["MaskedPaths", "ReadonlyPaths"])

/-! ### The container's own settings -/

def healthCheck : Shape := .record
  (part "Test" texts :: parts int64 ["Interval", "Timeout", "Retries", "StartPeriod",
    "StartInterval"])

def config : Shape := .record
  (parts .text ["Hostname", "Domainname", "User"] ++
    parts .flag ["AttachStdin", "AttachStdout", "AttachStderr"] ++
    [part "ExposedPorts" names] ++
    parts .flag ["Tty", "OpenStdin", "StdinOnce"] ++
    parts texts ["Env", "Cmd"] ++
    [part "Healthcheck" healthCheck, part "ArgsEscaped" .flag, part "Image" .text,
      part "Volumes" names, part "WorkingDir" .text, part "Entrypoint" texts,
      part "NetworkDisabled" .flag, part "MacAddress" .text, part "OnBuild" texts,
      part "Labels" labels, part "StopSignal" .text, part "StopTimeout" int64,
      part "Shell" texts])

/-! ### Networks -/

def address : Shape := .record [part "Addr" .text, part "PrefixLen" int64]

def addressManagement : Shape := .record
  (parts .text ["IPv4Address", "IPv6Address"] ++ [part "LinkLocalIPs" texts])

def endpoint : Shape := .record
  ([part "IPAMConfig" addressManagement, part "Links" texts, part "MacAddress" .text,
      part "Aliases" texts] ++
    parts .text ["NetworkID", "EndpointID", "Gateway", "IPAddress"] ++
    [part "IPPrefixLen" int64] ++
    parts .text ["IPv6Gateway", "GlobalIPv6Address"] ++
    [part "GlobalIPv6PrefixLen" int64, part "DriverOpts" labels, part "DNSNames" texts])

def networkSettings : Shape := .record
  (parts .text ["Bridge", "SandboxID"] ++
    [part "HairpinMode" .flag, part "LinkLocalIPv6Address" .text,
      part "LinkLocalIPv6PrefixLen" int64, part "Ports" ports, part "SandboxKey" .text] ++
    parts (.list address) ["SecondaryIPAddresses", "SecondaryIPv6Addresses"] ++
    parts .text ["EndpointID", "Gateway", "GlobalIPv6Address"] ++
    [part "GlobalIPv6PrefixLen" int64, part "IPAddress" .text, part "IPPrefixLen" int64] ++
    parts .text ["IPv6Gateway", "MacAddress"] ++
    [part "Networks" (.table endpoint)])

/-! ### The container -/

/-- Both parts must be there; without data there is null. -/
def graphDriver : Shape := .record [("Name", true, .text), ("Data", true, .nullable labels)]

def mountPoint : Shape := .record
  (part "Type" mountTypes :: parts .text ["Name", "Source", "Destination", "Driver", "Mode"] ++
    [part "RW" .flag, part "Propagation" .text])

def container : Shape := .record
  (parts .text ["Id", "Created", "Path"] ++
    [part "Args" texts, part "State" state] ++
    parts .text ["Image", "ResolvConfPath", "HostnamePath", "HostsPath", "LogPath", "Name"] ++
    [part "RestartCount" int64] ++
    parts .text ["Driver", "Platform", "MountLabel", "ProcessLabel", "AppArmorProfile"] ++
    [part "ExecIDs" texts, part "HostConfig" hostConfig, part "GraphDriver" graphDriver] ++
    parts int64 ["SizeRw", "SizeRootFs"] ++
    [part "Mounts" (.list mountPoint), part "Config" config,
      part "NetworkSettings" networkSettings])

def containerState (container : Json) : ContainerState where
  status :=
    match container.member? "State" >>= (·.member? "Status") with
    | some (.str name) => ContainerStatus.ofEngineName? name
    | _ => none
  exitCode :=
    match container.member? "State" >>= (·.member? "ExitCode") with
    | some (.int code) => some (Int64.ofInt code)
    | _ => none

end EngineModel
end SandboxWorker
