import SandboxWorker.Json.Wire
/-! Shapes of values, and reading by them. What fits a shape is given as a value; members that the
shape does not know are passed over and left out of it. -/
namespace SandboxWorker.Json

inductive Shape where
  | text
  | flag
  | integer (low high : Int)
  /-- One of some names. -/
  | choice (names : List String)
  /-- The shape, or null. -/
  | nullable (s : Shape)
  | list (item : Shape)
  /-- An object with any keys, which may repeat. -/
  | table (entry : Shape)
  /-- An object without members. -/
  | empty
  /-- An object with the named members, or an array of them in order; the flag tells whether an
  object must have the member. -/
  | record (fields : List (String × Bool × Shape))

namespace Shape

abbrev Reader := Bytes → Outcome (Json × Bytes)

structure Member where
  name : String
  required : Bool
  read : Reader

def ofWire {α : Type} (w : Wire α) : Reader := fun bs => do
  let (a, rest) ← w.direct bs
  return (w.write a, rest)

def readNullable (read : Reader) : Reader := fun bs =>
  match skipBlanks bs with
  | b :: rest => if b = letterN then return (.null, ← word nullTail rest) else read (b :: rest)
  | [] => read []

def readList (read : Reader) : Reader := fun bs =>
  match skipBlanks bs with
  | b :: rest =>
    if b = openBracket then do
      let (items, rest) ← array read rest
      return (.arr items, rest)
    else wrongType (b :: rest)
  | [] => .error .ended

def readTable (read : Reader) : Reader := fun bs =>
  match skipBlanks bs with
  | b :: rest =>
    if b = openBrace then do
      let (members, rest) ← object string read rest
      return (.obj members, rest)
    else wrongType (b :: rest)
  | [] => .error .ended

/-- A key is read before it is refused. -/
def readEmpty : Reader := fun bs =>
  match skipBlanks bs with
  | b :: rest =>
    if b = openBrace then do
      match ← nextKey true rest with
      | none => return (.obj [], ← endObject rest)
      | some rest => do
        let _ ← string rest
        throw (.data .invalidType)
    else wrongType (b :: rest)
  | [] => .error .ended

def readMember (members : List Member) (found : List (String × Json)) (name : String) (bs : Bytes) :
    Outcome (List (String × Json) × Bytes) :=
  match members.find? (·.name == name) with
  | some m => do
    if (found.lookup name).isSome then throw (.data (.duplicateField name))
    let (j, rest) ← m.read (← endKey bs)
    return ((name, j) :: found, rest)
  | none => do
    let (_, rest) ← skip (← endKey bs)
    return (found, rest)

/-- The members of a record from an array of them; `first` tells whether none stand before. -/
def readRow : List Member → Bool → Bytes → Outcome (List (String × Json) × Bytes)
  | [], _, bs => .ok ([], bs)
  | m :: members, first, bs => do
    match ← nextElement first bs with
    | none => throw (.data .invalidLength)
    | some rest =>
      let (j, rest) ← m.read rest
      let (found, rest) ← readRow members false rest
      return ((m.name, j) :: found, rest)

def readRecord (members : List Member) : Reader := fun bs =>
  match skipBlanks bs with
  | b :: rest =>
    if b = openBrace then do
      let (found, rest) ←
        foldMembers string (readMember members) (rest.length + 1) true [] rest
      match members.find? fun m => m.required && (found.lookup m.name).isNone with
      | some m => throw (.data (.missingField m.name))
      | none => return (.obj found.reverse, ← endObject rest)
    else if b = openBracket then do
      let (found, rest) ← readRow members true rest
      return (.obj found, ← endArray rest)
    else wrongType (b :: rest)
  | [] => .error .ended

mutual

def read : Shape → Reader
  | .text => ofWire .string
  | .flag => ofWire .flag
  | .integer low high => ofWire (.integer low high)
  | .choice names => ofWire (.choice names id)
  | .nullable s => readNullable s.read
  | .list item => readList item.read
  | .table entry => readTable entry.read
  | .empty => readEmpty
  | .record fields => readRecord (members fields)

def members : List (String × Bool × Shape) → List Member
  | [] => []
  | (name, required, s) :: fields => ⟨name, required, s.read⟩ :: members fields

end

def readAll (s : Shape) (bs : Bytes) : Outcome Json := do
  let (j, rest) ← s.read bs
  endText rest
  return j

end Shape

/-- The member of a name, in an object that has it. -/
def member? : Json → String → Option Json
  | .obj members, name => members.lookup name
  | _, _ => none

end SandboxWorker.Json
