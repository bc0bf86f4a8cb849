import SandboxWorker.Json.Wire
/-! Records as objects and as arrays of their fields. Members come in any order, each at most once;
which fields are missing is found out at the end, in order of declaration. -/
namespace SandboxWorker.Json

/-- Reads one field, named in an object or next in an array, into what is known so far. -/
structure Fields (α : Type) : Type 1 where
  /-- What is known of the fields so far. -/
  Slots : Type
  empty : Slots
  /-- Reads the member of a name, from behind the key; none for a name that is not a field's. -/
  directMember : String → Option (Slots → Bytes → Outcome (Slots × Bytes))
  bufferedMember : String → Option (Slots → Json → Decoded Slots)
  finish : Slots → Decoded α
  /-- Reads the fields in order, from elements of an array; the flag tells whether they come
  first. -/
  directRow : Bool → Bytes → Outcome (α × Bool × Bytes)
  bufferedRow : List Json → Decoded (α × List Json)
  write : α → List (String × Json)

namespace Fields

/-- What stands for a field that an object lacks, and for one that an array is too short for. -/
structure Default (α : Type) where
  absent : Option α
  short : Option α

def field {α : Type} (name : String) (w : Wire α) (default : Default α) : Fields α where
  Slots := Option α
  empty := none
  directMember found := if found ≠ name then none else some fun slot bs => do
    if slot.isSome then throw (.data (.duplicateField name))
    let (a, rest) ← w.direct (← endKey bs)
    return (some a, rest)
  bufferedMember found := if found ≠ name then none else some fun slot j => do
    if slot.isSome then throw (.duplicateField name)
    return some (← w.buffered j)
  finish slot :=
    match slot <|> default.absent with
    | some a => .ok a
    | none => .error (.missingField name)
  directRow first bs := do
    match ← nextElement first bs with
    | some rest =>
      let (a, rest) ← w.direct rest
      return (a, false, rest)
    | none =>
      match default.short with
      | some a => return (a, first, bs)
      | none => throw (.data .invalidLength)
  bufferedRow
    | j :: rest => do return (← w.buffered j, rest)
    | [] =>
      match default.short with
      | some a => .ok (a, [])
      | none => .error .invalidLength
  write a := [(name, w.write a)]

def required {α : Type} (name : String) (w : Wire α) : Fields α := field name w ⟨none, none⟩

def withDefault {α : Type} (name : String) (w : Wire α) (a : α) : Fields α :=
  field name w ⟨some a, some a⟩

/-- A field that objects may lack; an array has a place for it all the same. -/
def nullable {α : Type} (name : String) (w : Wire α) : Fields (Option α) :=
  field name w.optional ⟨some none, none⟩

def pair {α β : Type} (f : Fields α) (g : Fields β) : Fields (α × β) where
  Slots := f.Slots × g.Slots
  empty := (f.empty, g.empty)
  directMember name :=
    ((f.directMember name).map fun read (s : f.Slots × g.Slots) bs => do
      let (t, rest) ← read s.1 bs
      return ((t, s.2), rest)) <|>
    ((g.directMember name).map fun read (s : f.Slots × g.Slots) bs => do
      let (t, rest) ← read s.2 bs
      return ((s.1, t), rest))
  bufferedMember name :=
    ((f.bufferedMember name).map fun read (s : f.Slots × g.Slots) j => do
      return (← read s.1 j, s.2)) <|>
    ((g.bufferedMember name).map fun read (s : f.Slots × g.Slots) j => do
      return (s.1, ← read s.2 j))
  finish s := do return (← f.finish s.1, ← g.finish s.2)
  directRow first bs := do
    let (a, first, bs) ← f.directRow first bs
    let (b, first, bs) ← g.directRow first bs
    return ((a, b), first, bs)
  bufferedRow items := do
    let (a, items) ← f.bufferedRow items
    let (b, items) ← g.bufferedRow items
    return ((a, b), items)
  write ab := f.write ab.1 ++ g.write ab.2

/-- Reads members of an object that is known to be well formed; unknown ones do not matter. -/
def bufferedMembers {α : Type} (f : Fields α) : f.Slots → List (String × Json) → Decoded f.Slots
  | s, [] => .ok s
  | s, (name, j) :: members =>
    match f.bufferedMember name with
    | some read => do f.bufferedMembers (← read s j) members
    | none => f.bufferedMembers s members

def wire {α : Type} (f : Fields α) : Wire α where
  direct bs :=
    match skipBlanks bs with
    | [] => .error .ended
    | b :: rest =>
      if b = openBrace then do
        let (s, rest) ← foldMembers Json.string member (rest.length + 1) true f.empty rest
        return (← lift (f.finish s), ← endObject rest)
      else if b = openBracket then do
        let (a, _, rest) ← f.directRow true rest
        return (a, ← endArray rest)
      else wrongType (b :: rest)
  buffered
    | .obj members => do f.finish (← f.bufferedMembers f.empty members)
    | .arr items => do
      let (a, rest) ← f.bufferedRow items
      if rest.isEmpty then return a else throw .invalidLength
    | _ => .error .invalidType
  write a := .obj (f.write a)
where
  member (s : f.Slots) (name : String) (bs : Bytes) : Outcome (f.Slots × Bytes) :=
    match f.directMember name with
    | some read => read s bs
    | none => do
      let (_, rest) ← skip (← endKey bs)
      return (s, rest)

end Fields
end SandboxWorker.Json
