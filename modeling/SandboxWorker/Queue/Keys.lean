import SandboxWorker.Uuid
/-! The lists that make up a queue: the messages waiting, those each consumer is working on, and
those nobody could work on. -/
namespace SandboxWorker.Queue

def waitingKey (name : String) : String := "ces:queue:" ++ name

def processingKey (name : String) (consumer : Uuid) : String :=
  waitingKey name ++ ":processing:" ++ consumer.toString

def deadLetterKey (name : String) : String := waitingKey name ++ ":dead"

end SandboxWorker.Queue
