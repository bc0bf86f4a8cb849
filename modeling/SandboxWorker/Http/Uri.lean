import SandboxWorker.Http.Target
/-! URIs of requests as a server gets them: a target alone, an authority alone, or both behind a
scheme. -/
namespace SandboxWorker.Http

def isAlphanumeric (c : Char) : Bool :=
  ('a' ≤ c && c ≤ 'z') || ('A' ≤ c && c ≤ 'Z') || ('0' ≤ c && c ≤ '9')

/-! ### Methods -/

def isMethod (s : String) : Bool :=
  s ≠ "" && s.toList.all fun c =>
    isAlphanumeric c || "!#$%&'*+-.^_|~".toList.contains c || c.toNat = 0x60

/-! ### Schemes -/

def isSchemeChar (c : Char) : Bool := isAlphanumeric c || "+-.~".toList.contains c

def maxScheme : Nat := 64

/-- A text without a scheme, or what follows the scheme and its slashes; none if the scheme is too
long. -/
def splitScheme (s : List Char) : Option (Bool × List Char) :=
  let scheme := s.takeWhile isSchemeChar
  match s.drop scheme.length with
  | ':' :: '/' :: '/' :: rest =>
    if scheme.length ≤ maxScheme then some (true, rest) else none
  | _ => some (false, s)

/-! ### Authorities -/

def endsAuthority (c : Char) : Bool := c == '/' || c == queryMark || c == '#'

def isAuthorityChar (c : Char) : Bool :=
  isAlphanumeric c || "!$&'()*+,-.:;=@[]_~".toList.contains c

/-- What is known of an authority up to some character. Colons and percent signs count anew behind
brackets and user information, where they may stand freely. -/
structure AuthorityScan where
  colons : Nat
  opened : Bool
  closed : Bool
  hasPercent : Bool

namespace AuthorityScan

def start : AuthorityScan := ⟨0, false, false, false⟩

def maxColons : Nat := 8

def step (a : AuthorityScan) (c : Char) : Option AuthorityScan :=
  if c = '%' then some { a with hasPercent := true }
  else if !isAuthorityChar c then none
  else if c = ':' then
    if a.colons < maxColons then some { a with colons := a.colons + 1 } else none
  else if c = '[' then
    if a.hasPercent || a.opened then none else some { a with opened := true }
  else if c = ']' then
    if !a.opened || a.closed then none
    else some { a with closed := true, colons := 0, hasPercent := false }
  else if c = '@' then some { a with colons := 0, hasPercent := false }
  else some a

/-- One colon may be left for a port. -/
def isFinished (a : AuthorityScan) : Bool :=
  a.opened == a.closed && a.colons ≤ 1 && !a.hasPercent

end AuthorityScan

def isAuthority (s : List Char) : Bool :=
  match s.foldlM AuthorityScan.step .start with
  | some a => a.isFinished && s.getLast? ≠ some '@'
  | none => false

/-! ### URIs -/

/-- The path of a URI that has a target. An empty one stands for the root. -/
def pathOfTarget? (s : List Char) : Option String := do
  let sent := path ((← target? (String.ofList s)).toList)
  return if sent = [] then "/" else String.ofList sent

def pathOfUri? (s : String) : Option String :=
  if maxTarget < s.utf8ByteSize then none
  else
    match s.toList with
    | [] => none
    | ['*'] => some "*"
    | '/' :: rest => pathOfTarget? ('/' :: rest)
    | cs => do
      let (hasScheme, rest) ← splitScheme cs
      let authority := rest.takeWhile (!endsAuthority ·)
      guard (isAuthority authority && authority ≠ [])
      let rest := rest.drop authority.length
      if hasScheme then pathOfTarget? rest
      else if rest = [] then some "" else none

end SandboxWorker.Http
