import SandboxWorker.Json.Value
/-! Wire forms: how a type stands in JSON. A form reads in two ways that agree on good input and
differ in which of several faults they report: `direct` from text, up to the first fault, and
`buffered` from a value that is known to be well formed. -/
namespace SandboxWorker.Json

abbrev Decoded (α : Type) := Except DataError α

structure Wire (α : Type) where
  direct : Bytes → Outcome (α × Bytes)
  buffered : Json → Decoded α
  write : α → Json

def lift {α : Type} : Decoded α → Outcome α
  | .ok a => .ok a
  | .error e => .error (.data e)

def Wire.read {α : Type} (w : Wire α) (bs : Bytes) : Outcome α := do
  let (a, rest) ← w.direct bs
  endText rest
  return a

namespace Wire

/-- A type with another type's wire form; `read` may refuse values. -/
def refine {α β : Type} (w : Wire α) (read : α → Decoded β) (write : β → α) : Wire β where
  direct bs := do
    let (a, rest) ← w.direct bs
    return (← lift (read a), rest)
  buffered j := do read (← w.buffered j)
  write b := w.write (write b)

def string : Wire String where
  direct bs :=
    match skipBlanks bs with
    | b :: rest => if b = quote then Json.string rest else wrongType (b :: rest)
    | [] => .error .ended
  buffered
    | .str s => .ok s
    | _ => .error .invalidType
  write := .str

def ofText {α : Type} (read : List Char → Decoded α) (text : α → List Char) : Wire α :=
  string.refine (fun s => read s.toList) (fun a => String.ofList (text a))

def flag : Wire Bool where
  direct bs :=
    match skipBlanks bs with
    | b :: rest =>
      if b = letterT then return (true, ← word trueTail rest)
      else if b = letterF then return (false, ← word falseTail rest)
      else wrongType (b :: rest)
    | [] => .error .ended
  buffered
    | .bool b => .ok b
    | _ => .error .invalidType
  write := .bool

def integerOf (low high : Int) : Json → Decoded Int
  | .int n => if low ≤ n ∧ n ≤ high then .ok n else .error .invalidValue
  | _ => .error .invalidType

def integer (low high : Int) : Wire Int where
  direct bs :=
    match skipBlanks bs with
    | b :: rest =>
      if startsNumber b then do
        let (j, rest) ← numberValue (b :: rest)
        return (← lift (integerOf low high j), rest)
      else wrongType (b :: rest)
    | [] => .error .ended
  buffered := integerOf low high
  write := .int

def int64 : Wire Int64 :=
  (integer Int64.minValue.toInt Int64.maxValue.toInt).refine (fun n => .ok (Int64.ofInt n))
    Int64.toInt

def optional {α : Type} (w : Wire α) : Wire (Option α) where
  direct bs :=
    match skipBlanks bs with
    | b :: rest =>
      if b = letterN then return (none, ← word nullTail rest)
      else do
        let (a, rest) ← w.direct (b :: rest)
        return (some a, rest)
    | [] => do
      let (a, rest) ← w.direct []
      return (some a, rest)
  buffered
    | .null => .ok none
    | j => do return some (← w.buffered j)
  write
    | none => .null
    | some a => w.write a

def list {α : Type} (w : Wire α) : Wire (List α) where
  direct bs :=
    match skipBlanks bs with
    | b :: rest => if b = openBracket then array w.direct rest else wrongType (b :: rest)
    | [] => .error .ended
  buffered
    | .arr items => items.mapM w.buffered
    | _ => .error .invalidType
  write as := .arr (as.map w.write)

/-! ### Choices -/

def named {α : Type} (all : List α) (name : α → String) (found : String) : Decoded α :=
  match all.find? (name · == found) with
  | some a => .ok a
  | none => .error (.unknownVariant found (all.map name))

/-- One of some named values: its name, or an object whose only key is the name, with null. -/
def choice {α : Type} (all : List α) (name : α → String) : Wire α where
  direct bs :=
    match skipBlanks bs with
    | [] => .error .ended
    | b :: rest =>
      if b = openBrace then do
        let (found, rest) ← string.direct rest
        let a ← lift (named all name found)
        let rest ← endKey rest
        let rest ← noContent rest
        match skipBlanks rest with
        | [] => throw .ended
        | b :: rest => if b = closeBrace then return (a, rest) else throw .malformed
      else if b = quote then do
        let (found, rest) ← Json.string rest
        return (← lift (named all name found), rest)
      else .error .malformed
  buffered
    | .str found => named all name found
    | .obj [(found, content)] => do
      let a ← named all name found
      match content with
      | .null | .obj [] => return a
      | _ => throw .invalidType
    | .obj _ => .error .invalidValue
    | _ => .error .invalidType
  write a := .str (name a)
where
  noContent (bs : Bytes) : Outcome Bytes :=
    match skipBlanks bs with
    | b :: rest => if b = letterN then word nullTail rest else wrongType (b :: rest)
    | [] => .error .ended

end Wire
end SandboxWorker.Json
