import SandboxWorker.Json.Basic
import SandboxWorker.Json.Scan
/-! Arrays, objects and whole values of JSON text. A value is read into a tree, or passed over:
reading limits the nesting, passing over does not. -/
namespace SandboxWorker.Json

def letterN : UInt8 := 0x6E
def letterT : UInt8 := 0x74
def letterF : UInt8 := 0x66

def nullTail : Bytes := [0x75, 0x6C, 0x6C]
def trueTail : Bytes := [0x72, 0x75, 0x65]
def falseTail : Bytes := [0x61, 0x6C, 0x73, 0x65]

/-! ### Arrays and objects -/

def nextElement (first : Bool) (bs : Bytes) : Outcome (Option Bytes) :=
  match skipBlanks bs with
  | [] => .error .ended
  | b :: rest =>
    if b = closeBracket then .ok none
    else if first then .ok (some (b :: rest))
    else if b = comma then
      match skipBlanks rest with
      | [] => .error .ended
      | c :: rest => if c = closeBracket then .error .malformed else .ok (some (c :: rest))
    else .error .malformed

def endArray (bs : Bytes) : Outcome Bytes :=
  match skipBlanks bs with
  | [] => .error .ended
  | b :: rest => if b = closeBracket then .ok rest else .error .malformed

def foldElements {σ : Type} (step : σ → Bytes → Outcome (σ × Bytes)) :
    Nat → Bool → σ → Bytes → Outcome (σ × Bytes)
  | 0, _, _, _ => .error .malformed
  | fuel + 1, first, s, bs => do
    match ← nextElement first bs with
    | none => return (s, bs)
    | some rest =>
      let (s, rest) ← step s rest
      foldElements step fuel false s rest

/-- The elements of an array and its closing bracket; `first` tells whether none stand before them.
Each element takes a byte, so the bytes bound the elements. -/
def elements {α : Type} (item : Bytes → Outcome (α × Bytes)) (first : Bool) (bs : Bytes) :
    Outcome (List α × Bytes) := do
  let (items, rest) ← foldElements (fun items bs => do
    let (a, rest) ← item bs
    return (a :: items, rest)) (bs.length + 1) first [] bs
  return (items.reverse, ← endArray rest)

def array {α : Type} (item : Bytes → Outcome (α × Bytes)) (bs : Bytes) : Outcome (List α × Bytes) :=
  elements item true bs

def nextKey (first : Bool) (bs : Bytes) : Outcome (Option Bytes) :=
  match skipBlanks bs with
  | [] => .error .ended
  | b :: rest =>
    if b = closeBrace then .ok none
    else if first then key b rest
    else if b = comma then
      match skipBlanks rest with
      | [] => .error .ended
      | c :: rest => key c rest
    else .error .malformed
where
  key (b : UInt8) (rest : Bytes) : Outcome (Option Bytes) :=
    if b = quote then .ok (some rest) else .error .malformed

def endKey (bs : Bytes) : Outcome Bytes :=
  match skipBlanks bs with
  | [] => .error .ended
  | b :: rest => if b = colon then .ok rest else .error .malformed

def endObject (bs : Bytes) : Outcome Bytes :=
  match skipBlanks bs with
  | [] => .error .ended
  | b :: rest => if b = closeBrace then .ok rest else .error .malformed

/-- Folds over the members of an object, up to its closing brace. `step` gets what stands behind
the key, colon included. -/
def foldMembers {κ σ : Type} (key : Bytes → Outcome (κ × Bytes))
    (step : σ → κ → Bytes → Outcome (σ × Bytes)) : Nat → Bool → σ → Bytes → Outcome (σ × Bytes)
  | 0, _, _, _ => .error .malformed
  | fuel + 1, first, s, bs => do
    match ← nextKey first bs with
    | none => return (s, bs)
    | some rest =>
      let (k, rest) ← key rest
      let (s, rest) ← step s k rest
      foldMembers key step fuel false s rest

def object {κ α : Type} (key : Bytes → Outcome (κ × Bytes)) (item : Bytes → Outcome (α × Bytes))
    (bs : Bytes) : Outcome (List (κ × α) × Bytes) := do
  let (members, rest) ← foldMembers key (fun members k bs => do
    let (a, rest) ← item (← endKey bs)
    return ((k, a) :: members, rest)) (bs.length + 1) true [] bs
  return (members.reverse, ← endObject rest)

/-! ### Values -/

def numberValue (bs : Bytes) : Outcome (Json × Bytes) := do
  let (n, rest) ← match bs with
    | b :: r => if b = minus then number true r else number false (b :: r)
    | [] => number false []
  match n with
  | .int n => return (.int n, rest)
  | .real => return (.real (Utf8.decodeLossy (bs.take (bs.length - rest.length))), rest)

def startsNumber (b : UInt8) : Bool := b == minus || isDigit b

def value (depth : Nat) (bs : Bytes) : Outcome (Json × Bytes) :=
  match skipBlanks bs with
  | [] => .error .ended
  | b :: rest =>
    if b = letterN then return (.null, ← word nullTail rest)
    else if b = letterT then return (.bool true, ← word trueTail rest)
    else if b = letterF then return (.bool false, ← word falseTail rest)
    else if startsNumber b then numberValue (b :: rest)
    else if b = quote then do
      let (s, rest) ← string rest
      return (.str s, rest)
    else
      match depth with
      | 0 => .error .malformed
      | depth + 1 =>
        if b = openBracket then do
          let (items, rest) ← array (value depth) rest
          return (.arr items, rest)
        else if b = openBrace then do
          let (members, rest) ← object string (value depth) rest
          return (.obj members, rest)
        else .error .malformed

/-- How deep arrays and objects may nest in a text that is read into a tree. -/
def maxDepth : Nat := 127

def skipNumber (bs : Bytes) : Outcome Bytes := do
  let (_, rest) ← numberText .malformed (match bs with
    | b :: r => if b = minus then r else b :: r
    | [] => [])
  return rest

/-- Passes over a value that nests at most `depth` deep. -/
def skipWithin (depth : Nat) (bs : Bytes) : Outcome (Unit × Bytes) :=
  match skipBlanks bs with
  | [] => .error .ended
  | b :: rest =>
    if b = letterN then return ((), ← word nullTail rest)
    else if b = letterT then return ((), ← word trueTail rest)
    else if b = letterF then return ((), ← word falseTail rest)
    else if startsNumber b then return ((), ← skipNumber (b :: rest))
    else if b = quote then return ((), ← skipString rest)
    else
      match depth with
      | 0 => .error .malformed
      | depth + 1 =>
        if b = openBracket then do
          let (_, rest) ← array (skipWithin depth) rest
          return ((), rest)
        else if b = openBrace then do
          let (_, rest) ← object (fun bs => return ((), ← skipString bs)) (skipWithin depth) rest
          return ((), rest)
        else .error .malformed

/-- Passes over a value of any depth: no text nests deeper than it has bytes. -/
def skip (bs : Bytes) : Outcome (Unit × Bytes) := skipWithin bs.length bs

def endText (bs : Bytes) : Outcome Unit :=
  if (skipBlanks bs).isEmpty then .ok () else .error .malformed

/-- The error at a value of another type than asked for. Words, numbers and strings are read first
and may be malformed themselves; arrays and objects are not looked into. -/
def wrongType {α : Type} (bs : Bytes) : Outcome α :=
  match skipBlanks bs with
  | [] => .error .ended
  | b :: rest =>
    if b = openBracket ∨ b = openBrace then .error (.data .invalidType)
    else do
      let _ ← value 0 (b :: rest)
      throw (.data .invalidType)

end SandboxWorker.Json
