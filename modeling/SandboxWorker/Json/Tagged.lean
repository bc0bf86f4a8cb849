import SandboxWorker.Json.Fields
/-! Values that say in a field what they are. The tag may stand anywhere in an object, so the other
members are kept until it is known; in an array the tag comes first. -/
namespace SandboxWorker.Json

def tag {κ : Type} (all : List κ) (name : κ → String) (bs : Bytes) : Outcome (κ × Bytes) := do
  let (found, rest) ← Wire.string.direct bs
  return (← lift (Wire.named all name found), rest)

/-- One member of a tagged object: the tag itself, which may come only once, or one to be kept. -/
def taggedMember {κ : Type} (field : String) (all : List κ) (name : κ → String)
    (s : Option κ × List (String × Json)) (key : String) (bs : Bytes) :
    Outcome ((Option κ × List (String × Json)) × Bytes) :=
  if key = field then do
    if s.1.isSome then throw (.data (.duplicateField field))
    let (k, rest) ← tag all name (← endKey bs)
    return ((some k, s.2), rest)
  else do
    let (j, rest) ← value (maxDepth - 1) (← endKey bs)
    return ((s.1, (key, j) :: s.2), rest)

/-- Reads a tag, and the tagged value without it. -/
def tagged {κ : Type} (field : String) (all : List κ) (name : κ → String) (bs : Bytes) :
    Outcome ((κ × Json) × Bytes) :=
  match skipBlanks bs with
  | [] => .error .ended
  | b :: rest =>
    if b = openBrace then do
      let ((k, members), rest) ←
        foldMembers Json.string (taggedMember field all name) (rest.length + 1) true (none, []) rest
      match k with
      | some k => return ((k, .obj members.reverse), ← endObject rest)
      | none => throw (.data (.missingField field))
    else if b = openBracket then do
      match ← nextElement true rest with
      | some rest =>
        let (k, rest) ← tag all name rest
        let (items, rest) ← elements (value (maxDepth - 1)) false rest
        return ((k, .arr items), rest)
      | none => throw (.data (.missingField field))
    else wrongType (b :: rest)

end SandboxWorker.Json
