import SandboxWorker.Archive.Pack
import SandboxWorker.Text.Path
import SandboxWorker.Worker.Call
/-! The files of an execution: its three logs, which grow while it runs, and its source. -/
namespace SandboxWorker.Worker

def fileNameOf (sourceCodePath : String) : String :=
  (Path.fileName? sourceCodePath).getD sourceFileName

def createLogs (bucket : String) (paths : LogsPath) : Work Unit := do
  Work.scratch "empty"
  paths.toList.forM fun key => Work.upload bucket key []

def appendText (bucket key text : String) : Work Unit := do
  Work.scratch "logs"
  let content ← Work.download bucket key
  Work.upload bucket key (content ++ Utf8.encode text)

/-- What a batch adds to each log. Nothing is written for a log that gets nothing. -/
def additions (paths : LogsPath) (batch : LogBatch) : List (String × String) :=
  if batch.isEmpty then []
  else
    [(paths.all, batch.merged), (paths.stdout, batch.stdout), (paths.stderr, batch.stderr)].filter
      fun (_, text) => text ≠ ""

def appendLogs (bucket : String) (paths : LogsPath) (batch : LogBatch) : Work Unit :=
  (additions paths batch).forM fun (key, text) => appendText bucket key text

def stageSource (bucket : String) (request : RequestedEvent) : Work Bytes := do
  Work.scratch "source"
  let content ← Work.download bucket request.sourceCodePath
  Work.scratch "archive"
  let modified ← Work.ask .time
  match Archive.packFile (fileNameOf request.sourceCodePath) content modified.second.toNat with
  | some archive => return archive
  | none => throw .scratch

end SandboxWorker.Worker
