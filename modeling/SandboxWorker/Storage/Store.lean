import SandboxWorker.Storage.Tree
import SandboxWorker.Text.Path
/-! Objects kept as files: a bucket is a directory and a key a path below it. Bucket names and keys
may not lead out of their place. -/
namespace SandboxWorker.Storage

inductive StoreError where
  | io
  | invalidKey (name : String)
  | notFound (bucket key : String)
deriving DecidableEq, Repr

def StoreError.message : StoreError → String
  | .io => "storage i/o error"
  | .invalidKey name => s!"invalid object key '{name}'"
  | .notFound bucket key => s!"object '{key}' not found in bucket '{bucket}'"

def checked (name : String) : Except StoreError (List String) :=
  match Path.names? name with
  | some names => if name = "" then .error (.invalidKey name) else .ok names
  | none => .error (.invalidKey name)

def objectPath (bucket key : String) : Except StoreError (List String) := do
  return (← checked bucket) ++ (← checked key)

def maxPath : Nat := 4095

structure Store where
  root : String
  tree : Tree
deriving DecidableEq, Repr

namespace Store

def empty (root : String) : Store := ⟨root, .empty⟩

def reaches (s : Store) (path : String) : Bool :=
  (Path.join s.root path).utf8ByteSize ≤ maxPath

/-- Makes directories, as far as that is possible; also tells whether all are there at the end. -/
def makeDirectory (s : Store) (path : List String) : Store × Bool :=
  ({ s with tree := (s.tree.makeDirectory path).1 }, (s.tree.makeDirectory path).2)

/-- Makes a bucket; one that exists already will do. A name that ends in a dot is looked up in its
own directory, which must exist. -/
def createBucket (s : Store) (bucket : String) : Except StoreError Unit × Store :=
  match checked bucket with
  | .error e => (.error e, s)
  | .ok path =>
    if !s.reaches bucket then (.error .io, s)
    else if Path.endsInDot bucket then
      let (s, made) := if Tree.hasNull path then (s, false) else s.makeDirectory path.dropLast
      (if made ∧ s.tree.place path true = .directory then .ok () else .error .io, s)
    else
      let (s, made) := s.makeDirectory path
      (if made then .ok () else .error .io, s)

/-- Stores the content of a local file, if there is one. The directories above an object are made
first, whatever becomes of it. -/
def upload (s : Store) (bucket : String) (content : Option Bytes) (key : String) :
    Except StoreError Unit × Store :=
  match objectPath bucket key with
  | .error e => (.error e, s)
  | .ok path =>
    let object := Path.join bucket key
    if !s.reaches (Path.parent object) then (.error .io, s)
    else
      let (s, made) := s.makeDirectory path.dropLast
      match content with
      | none => (.error .io, s)
      | some content =>
        if made ∧ s.reaches object ∧ !Path.asksDirectory key then
          match s.tree.place path false with
          | .missing | .file _ => (.ok (), { s with tree := s.tree.put path (.file content) })
          | .blocked | .directory => (.error .io, s)
        else (.error .io, s)

/-- The content of an object; `writable` tells whether there is a local place for it. -/
def download (s : Store) (bucket key : String) (writable : Bool) : Except StoreError Bytes := do
  let path ← objectPath bucket key
  if !s.reaches (Path.join bucket key) then throw .io
  match s.tree.place path (Path.asksDirectory key) with
  | .missing => throw (.notFound bucket key)
  | .blocked | .directory => throw .io
  | .file content => if writable then return content else throw .io

end Store
end SandboxWorker.Storage
