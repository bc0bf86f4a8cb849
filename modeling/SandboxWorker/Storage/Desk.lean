import SandboxWorker.Storage.Store
/-! A store and the local files beside it. Objects are copied from local files and to them. -/
namespace SandboxWorker.Storage

structure Desk where
  store : Store
  /-- What the local files hold; none of a file that is not there. -/
  files : String → Option Bytes

inductive Action where
  | createBucket (bucket : String)
  | upload (bucket file key : String)
  /-- `writable` tells whether there is a place for the local file. -/
  | download (bucket key file : String) (writable : Bool)
  /-- Somebody else writes a local file or removes it. -/
  | edit (file : String) (content : Option Bytes)
deriving DecidableEq, Repr

namespace Action

/-- The names that have to lead down, in the order in which they are judged. -/
def names : Action → List String
  | createBucket bucket => [bucket]
  | upload bucket _ key | download bucket key .. => [bucket, key]
  | edit .. => []

end Action

namespace Desk

def write (d : Desk) (file : String) (content : Option Bytes) : Desk :=
  { d with files := fun name => if name = file then content else d.files name }

def perform (d : Desk) : Action → Except StoreError Unit × Desk
  | .createBucket bucket =>
    ((d.store.createBucket bucket).1, { d with store := (d.store.createBucket bucket).2 })
  | .upload bucket file key =>
    ((d.store.upload bucket (d.files file) key).1,
      { d with store := (d.store.upload bucket (d.files file) key).2 })
  | .download bucket key file writable =>
    match d.store.download bucket key writable with
    | .ok content => (.ok (), d.write file (some content))
    | .error e => (.error e, d)
  | .edit file content => (.ok (), d.write file content)

def run (d : Desk) (actions : List Action) : Desk :=
  actions.foldl (fun d a => (d.perform a).2) d

end Desk
end SandboxWorker.Storage
