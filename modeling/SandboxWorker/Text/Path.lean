import SandboxWorker.Text.Split
/-! Paths with slashes, taken apart by their text alone. Empty segments and inner dots mean
nothing; a leading slash, a leading dot and two dots do. -/
namespace SandboxWorker.Path

inductive Component where
  | root
  /-- A dot in front of everything else. -/
  | here
  | up
  | name (n : String)
deriving DecidableEq, Repr

def slash : Char := '/'

def segments (s : String) : List (List Char) := Text.split slash s.toList

/-- Whether a segment means nothing where it is not the first. -/
def isIdle (segment : List Char) : Bool := segment = [] || segment = ['.']

def ofSegment? (segment : List Char) : Option Component :=
  if isIdle segment then none
  else if segment = ['.', '.'] then some .up
  else some (.name (String.ofList segment))

def components (s : String) : List Component :=
  match segments s with
  | [] => []
  | first :: rest =>
    (if first = [] ∧ rest ≠ [] then [.root]
      else if first = ['.'] then [.here]
      else (ofSegment? first).toList) ++ rest.filterMap ofSegment?

def Component.name? : Component → Option String
  | .name n => some n
  | _ => none

def names? (s : String) : Option (List String) := (components s).mapM Component.name?

/-- Whether a path asks for a directory: it ends in a slash or a dot. -/
def asksDirectory (s : String) : Bool :=
  match (segments s).getLast? with
  | some last => isIdle last
  | none => false

def endsInDot (s : String) : Bool :=
  ((segments s).filter (· ≠ [])).getLast? = some ['.']

/-- One path behind another, with one slash between them at least. A path that starts at the root
stands for itself. -/
def join (above below : String) : String :=
  if below.toList.head? = some slash then below
  else if above = "" ∨ above.toList.getLast? = some slash then above ++ below
  else above ++ String.singleton slash ++ below

/-- The text of a path up to the segment in front of its last name. -/
def parent (s : String) : String :=
  let above := (((segments s).reverse.dropWhile isIdle).drop 1).dropWhile isIdle
  String.ofList (List.intercalate [slash] above.reverse)

def fileName? (s : String) : Option String :=
  match (components s).getLast? with
  | some (.name n) => some n
  | _ => none

end SandboxWorker.Path
