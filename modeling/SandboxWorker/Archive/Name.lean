import SandboxWorker.Text.Path
import SandboxWorker.Text.Utf8
/-! Names of archive entries. A name is relative and has no null character; dots and doubled slashes
that mean nothing are left out, a slash at the end is kept. -/
namespace SandboxWorker.Archive

def nameLength : Nat := 100

def slash : UInt8 := 0x2F
def dot : UInt8 := 0x2E

/-- Adds bytes to a name, if they fit and hold no null. A refusal gives what was written before. -/
def addBytes (written part : Bytes) : Except Bytes Bytes :=
  if written.length + part.length ≤ nameLength ∧ ¬ part.contains 0 then .ok (written ++ part)
  else .error written

def addComponent (written part : Bytes) : Except Bytes Bytes := do
  let written ← if written = [] then .ok [] else addBytes written [slash]
  addBytes written part

/-- Adds the components of a path. Nothing may lead up or start at the root; only where a name was
`cut` may it end in two dots, since they need not be all of their segment. -/
def addComponents (cut : Bool) : Bytes → List Path.Component → Except Bytes Bytes
  | written, [] => if written = [] then .error [] else .ok written
  | written, .root :: _ => .error written
  | written, .here :: rest =>
    if rest = [] then addComponent written [dot] else addComponents cut written rest
  | written, .up :: rest =>
    if cut ∧ rest = [] then addComponent written [dot, dot] else .error written
  | written, .name n :: rest => do
    addComponents cut (← addComponent written (Utf8.encode n)) rest

def nameBytes (cut : Bool) (name : String) : Except Bytes Bytes := do
  let written ← addComponents cut [] (Path.components name)
  if name.toList.getLast? = some Path.slash then addBytes written [slash] else .ok written

/-- The longest beginning of a name that fits a header and does not split a character. -/
def truncated : Nat → List Char → List Char
  | _, [] => []
  | room, c :: cs =>
    if c.utf8Size ≤ room then c :: truncated (room - c.utf8Size) cs else []

def padTo (width : Nat) (bs : Bytes) : Bytes := bs ++ List.replicate (width - bs.length) 0

/-- The name field of an entry, and whether the name has to be told in full before it. A name that
does not fit is written a second time over the first try, as far as it reaches. -/
def nameField (name : String) : Option (Bytes × Bool) :=
  match nameBytes false name with
  | .ok written => some (padTo nameLength written, false)
  | .error first =>
    if name.utf8ByteSize < nameLength then none
    else
      match nameBytes true (String.ofList (truncated nameLength name.toList)) with
      | .ok written =>
        let left := (padTo nameLength first).drop (written.length + 1)
        some ((written ++ (0 :: left)).take nameLength, true)
      | .error _ => none

end SandboxWorker.Archive
