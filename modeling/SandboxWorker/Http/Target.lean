/-! Targets of requests: a path, and a query behind the first question mark. A fragment is not
sent. -/
namespace SandboxWorker.Http

def queryMark : Char := '?'

def isPathChar (c : Char) : Bool :=
  0x20 < c.toNat && c != '<' && c != '>' && c.toNat != 0x60 && c.toNat != 0x7F

def isQueryChar (c : Char) : Bool :=
  0x20 < c.toNat && c != '"' && c != '<' && c != '>' && c.toNat != 0x7F

def path (target : List Char) : List Char := target.takeWhile (· ≠ queryMark)

def query (target : List Char) : List Char := target.dropWhile (· ≠ queryMark)

def maxTarget : Nat := 65534

/-- The target that is sent for a text, unless a character in front of its fragment is refused. -/
def target? (s : String) : Option String :=
  let sent := s.toList.takeWhile (· ≠ '#')
  if s.utf8ByteSize ≤ maxTarget ∧ (path sent).all isPathChar ∧ (query sent).all isQueryChar then
    some (String.ofList sent)
  else none

end SandboxWorker.Http
