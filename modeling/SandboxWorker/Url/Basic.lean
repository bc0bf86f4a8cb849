import SandboxWorker.Text.Percent
import SandboxWorker.Url.Ipv6
/-! URLs of schemes that have no rules of their own. -/
namespace SandboxWorker

structure Url where
  scheme : String
  /-- User name and password as spelled; both may be empty. -/
  username : List Char
  password : List Char
  host : Option String
  port : Option Nat
  /-- The path as spelled, up to its dots; none for a path that is just a text. -/
  path : Option (List Char)
  /-- What stands between a question mark and the fragment. -/
  query : List Char
deriving DecidableEq, Repr

namespace Url

/-! ### Schemes -/

def isAlpha (c : Char) : Bool := ('a' ≤ c && c ≤ 'z') || ('A' ≤ c && c ≤ 'Z')

def isSchemeChar (c : Char) : Bool := isAlpha c || Decimal.isDigit c || "+-.".toList.contains c

def clean (cs : List Char) : List Char :=
  let isEdge (c : Char) : Bool := c.toNat ≤ 0x20
  (((cs.dropWhile isEdge).reverse.dropWhile isEdge).reverse).filter
    fun c => c ≠ '\t' ∧ c ≠ '\n' ∧ c ≠ '\r'

def scheme? (cs : List Char) : Option (String × List Char) :=
  let scheme := cs.takeWhile isSchemeChar
  match scheme, cs.drop scheme.length with
  | first :: _, ':' :: rest =>
    if isAlpha first then some (String.ofList (scheme.map Char.toLower), rest) else none
  | _, _ => none

/-! ### Authorities -/

def endsAuthority (c : Char) : Bool := c == '/' || c == '?' || c == '#'

def splitUser (authority : List Char) : Option (List Char) × List Char :=
  match (Text.split '@' authority).reverse with
  | last :: before :: more => (some (List.intercalate ['@'] (before :: more).reverse), last)
  | _ => (none, authority)

def nameOf (user : List Char) : List Char := user.takeWhile (· ≠ ':')

def secretOf (user : List Char) : List Char := (user.dropWhile (· ≠ ':')).drop 1

/-- The beginning of a text that is a host: up to a colon that stands outside brackets. -/
def hostText (inside : Bool) : List Char → List Char
  | [] => []
  | c :: cs =>
    if c = ':' ∧ !inside then []
    else c :: hostText (if c = '[' then true else if c = ']' then false else inside) cs

def isHostChar (c : Char) : Bool := !"\x00\t\n\r #/:<>?@[\\]^|".toList.contains c

def isHost : List Char → Bool
  | '[' :: rest => rest.getLast? = some ']' && Ipv6.isIpv6 rest.dropLast
  | cs => cs.all isHostChar

def maxPort : Nat := 0xFFFF

/-- A port behind a colon, and what follows it; a colon alone gives none. A backslash behind a port
starts a path. -/
def splitPort : List Char → Option (Option Nat × List Char)
  | [] => some (none, [])
  | _ :: rest =>
    let digits := rest.takeWhile Decimal.isDigit
    let rest := rest.drop digits.length
    if maxPort < Decimal.value digits then none
    else if rest ≠ [] ∧ rest.head? ≠ some '\\' then none
    else some (Decimal.nat? digits, rest)

/-! ### Paths -/

def dots : List (List Char) := [".".toList, "%2e".toList]

def isDot (segment : List Char) : Bool := dots.contains (segment.map Char.toLower)

def isTwoDots (segment : List Char) : Bool :=
  (dots.flatMap fun a => dots.map (a ++ ·)).contains (segment.map Char.toLower)

def isDrive : List Char → Bool
  | letter :: mark :: rest =>
    isAlpha letter && (mark == ':' || mark == '|') && (rest.isEmpty || rest.head? = some '\\')
  | _ => false

/-- Goes to a segment, from segments in reverse order: one dot stays, two go up, but not above a
drive. -/
def enter (taken : List (List Char)) (segment : List Char) : List (List Char) :=
  if isDot segment then taken
  else if isTwoDots segment then
    match taken with
    | last :: above => if isDrive last then taken else above
    | [] => []
  else segment :: taken

def pathOf (cs : List Char) : List Char :=
  List.intercalate ['/'] ((Text.split '/' cs).foldl enter []).reverse

def upToQuery (cs : List Char) : List Char := cs.takeWhile fun c => c ≠ '?' ∧ c ≠ '#'

def queryOf (cs : List Char) : List Char :=
  ((cs.takeWhile (· ≠ '#')).dropWhile (· ≠ '?')).drop 1

/-! ### URLs -/

/-- A URL with an authority, from behind its two slashes. A user needs a host; a port needs one
too. -/
def withAuthority? (scheme : String) (cs : List Char) : Option Url := do
  let authority := cs.takeWhile (!endsAuthority ·)
  let rest := cs.drop authority.length
  let (user, hostPort) := splitUser authority
  guard (user ≠ some [] ∨ hostPort ≠ [] ∨ rest = [])
  let user := user.getD []
  let host := hostText false hostPort
  let afterHost := hostPort.drop host.length
  guard (isHost host)
  guard (host ≠ [] ∨ (afterHost = [] ∧ (user = [] ∨ user = [':'])))
  let (port, unread) ← splitPort afterHost
  let rest := unread ++ rest
  let path := upToQuery rest
  return {
    scheme, port
    username := nameOf user
    password := secretOf user
    host := if host = [] then none else some (String.ofList host)
    path := some (pathOf (if path.head? = some '\\' then '/' :: path else path))
    query := queryOf rest }

def ofString? (s : String) : Option Url := do
  let (scheme, rest) ← scheme? (clean s.toList)
  match rest with
  | '/' :: '/' :: rest => withAuthority? scheme rest
  | _ =>
    return {
      scheme
      username := []
      password := []
      host := none
      port := none
      path := if rest.head? = some '/' then some (pathOf (upToQuery rest)) else none
      query := queryOf rest }

/-! ### Queries -/

def formText (cs : List Char) : String :=
  Utf8.decodeLossy (Percent.decode (cs.map fun c => if c = '+' then ' ' else c))

def pairs (u : Url) : List (String × String) :=
  ((Text.split '&' u.query).filter (· ≠ [])).map fun part =>
    (formText (part.takeWhile (· ≠ '=')), formText ((part.dropWhile (· ≠ '=')).drop 1))

def queryValue? (u : Url) (name : String) : Option String := u.pairs.reverse.lookup name

end Url
end SandboxWorker
