import SandboxWorker.Text.Utf8
/-! A tree of directories and files, by path from its root. The root itself is always there. -/
namespace SandboxWorker.Storage

inductive Entry where
  | directory
  | file (content : Bytes)
deriving DecidableEq, Repr

structure Tree where
  /-- Every entry below the root, in order of creation. -/
  entries : List (List String × Entry)
deriving DecidableEq, Repr

namespace Tree

def empty : Tree := ⟨[]⟩

def find? (t : Tree) (path : List String) : Option Entry :=
  if path = [] then some .directory else t.entries.lookup path

def put (t : Tree) (path : List String) (e : Entry) : Tree :=
  if (t.entries.lookup path).isSome then
    ⟨t.entries.map fun (p, old) => if p = path then (p, e) else (p, old)⟩
  else ⟨t.entries ++ [(path, e)]⟩

def isImpossible (name : String) : Bool := 255 < name.utf8ByteSize

/-- Null characters end names, so no path may hold one. -/
def hasNull (path : List String) : Bool := path.any (·.toList.contains '\x00')

inductive Place where
  /-- Some directory on the way does not exist, or the end does not. -/
  | missing
  /-- A file stands on the way, or a name is impossible. -/
  | blocked
  | directory
  | file (content : Bytes)
deriving DecidableEq, Repr

/-- Goes down from a directory, name by name; the first name that fails decides. -/
def walk (t : Tree) (directory : List String) : List String → Place
  | [] => .directory
  | name :: rest =>
    if isImpossible name then .blocked
    else
      match t.find? (directory ++ [name]) with
      | none => .missing
      | some .directory => t.walk (directory ++ [name]) rest
      | some (.file content) => if rest = [] then .file content else .blocked

/-- What stands at a path; `asDirectory` tells whether only a directory will do. -/
def place (t : Tree) (path : List String) (asDirectory : Bool) : Place :=
  if hasNull path then .blocked
  else
    match t.walk [] path with
    | .file content => if asDirectory then .blocked else .file content
    | p => p

/-- Makes the directories that lead from one down a path, as far as that is possible. -/
def makeBelow (t : Tree) (directory : List String) : List String → Tree × Bool
  | [] => (t, true)
  | name :: rest =>
    if isImpossible name then (t, false)
    else
      match t.find? (directory ++ [name]) with
      | none => (t.put (directory ++ [name]) .directory).makeBelow (directory ++ [name]) rest
      | some .directory => t.makeBelow (directory ++ [name]) rest
      | some (.file _) => (t, false)

def makeDirectory (t : Tree) (path : List String) : Tree × Bool :=
  if hasNull path then (t, false) else t.makeBelow [] path

end Tree
end SandboxWorker.Storage
