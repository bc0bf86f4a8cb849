import SandboxWorker.Config.Lookup
/-! Where the queues are, and how many requests to hold at once. -/
namespace SandboxWorker

structure QueueConfig where
  redisUrl : String
  requestQueue : String
  responseQueue : String
  /-- At least one request is held. -/
  requestPrefetch : Nat
deriving DecidableEq, Repr

def QueueConfig.ofLookup (l : Lookup) : QueueConfig where
  redisUrl := l.text "REDIS_URL" "redis://127.0.0.1:6379"
  requestQueue := l.text "REQUEST_QUEUE" "code-execution-request"
  responseQueue := l.text "RESPONSE_QUEUE" "code-execution-response"
  requestPrefetch := max 1 (l.nat64 "REQUEST_PREFETCH" 1)

end SandboxWorker
