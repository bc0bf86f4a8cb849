import SandboxWorker.Instant.Basic
import SandboxWorker.Text.Blank
import SandboxWorker.Text.Decimal
/-! Reading instants from text, from left to right, in a lenient form (event fields) and a strict
one (log frames). The first thing out of place names the error. -/
namespace SandboxWorker.Instant

inductive ReadError where
  | invalid
  | outOfRange
  /-- Universal time leaves the range where the zone's own time does not. -/
  | impossible
  | tooShort
  | trailing
deriving DecidableEq, Repr

def ReadError.message : ReadError → String
  | .invalid => "input contains invalid characters"
  | .outOfRange => "input is out of range"
  | .impossible => "no possible date and time matching input"
  | .tooShort => "premature end of input"
  | .trailing => "trailing input"

abbrev Read (α : Type) := Except ReadError α

def expect (c : Char) : List Char → Read (List Char)
  | [] => .error .tooShort
  | d :: cs => if d = c then .ok cs else .error .invalid

def dateEnd : List Char → Read (List Char)
  | [] => .error .tooShort
  | c :: cs => if c = 'T' ∨ c = 't' ∨ c = ' ' then .ok cs else .error .invalid

def digitRun (limit : Nat) (cs : List Char) : Read (List Char × List Char) :=
  match (cs.take limit).takeWhile Decimal.isDigit with
  | [] => if cs.isEmpty then .error .tooShort else .error .invalid
  | ds => .ok (ds, cs.drop ds.length)

/-- The nanoseconds of digits after the point; those past the ninth do not count. -/
def fraction : List Char → Read (Nat × List Char)
  | '.' :: cs => do
    let (ds, rest) ← digitRun 9 cs
    pure (Decimal.value ds * Nat.pow 10 (9 - ds.length), rest.dropWhile Decimal.isDigit)
  | cs => .ok (0, cs)

def zonePair : List Char → Read (Nat × Nat × List Char)
  | [] => .error .tooShort
  | [c] => if c.toNat < 0x80 then .error .tooShort else .error .invalid
  | a :: b :: cs =>
    match Decimal.digit? a, Decimal.digit? b with
    | some x, some y => .ok (x, y, cs)
    | _, _ => .error .invalid

/-- The seconds by which a zone is ahead: Z, or a sign, two digits of hours, what `between` skips,
and two digits of minutes. -/
def zone (between : List Char → Read (List Char)) : List Char → Read (Int × List Char)
  | [] => .error .tooShort
  | c :: cs => do
    if c = 'Z' ∨ c = 'z' then return (0, cs)
    if c ≠ '+' ∧ c ≠ '-' ∧ c ≠ '\u2212' then throw .invalid
    let (h₁, h₂, cs) ← zonePair cs
    let cs ← between cs
    let (m₁, m₂, cs) ← zonePair cs
    if 6 ≤ m₁ then throw .outOfRange
    let ahead : Int := (h₁ * 10 + h₂) * 3600 + (m₁ * 10 + m₂) * 60
    return (if c = '+' then ahead else -ahead, cs)

/-- The instant of a civil time in a zone less than a day ahead or behind. -/
def finish (c : Civil) (offset : Int) : Read Instant :=
  if !c.isPossible ∨ 86400 ≤ offset.natAbs then .error .outOfRange
  else
    match ofCivil? c offset with
    | some t => .ok t
    | none => .error .impossible

/-! ### The lenient form -/

/-- A year: up to four digits, or a sign and any number of them, fitting 32 bits. -/
def year (cs : List Char) : Read (Int × List Char) :=
  match Text.trimLeft cs with
  | '-' :: r => do
    let (ds, rest) ← digitRun r.length r
    if 0x80000000 < Decimal.value ds then throw .outOfRange
    return (-Decimal.value ds, rest)
  | '+' :: r => do
    let (ds, rest) ← digitRun r.length r
    if 0x80000000 ≤ Decimal.value ds then throw .outOfRange
    return (Decimal.value ds, rest)
  | r => do
    let (ds, rest) ← digitRun 4 r
    return (Decimal.value ds, rest)

def field (low high : Nat) (cs : List Char) : Read (Nat × List Char) := do
  let (ds, rest) ← digitRun 2 (Text.trimLeft cs)
  if Decimal.value ds < low ∨ high < Decimal.value ds then throw .outOfRange
  return (Decimal.value ds, rest)

/-- Blanks may stand before each number, before `-` and `:`, before the zone and at the end. -/
def lenient (cs : List Char) : Read Instant := do
  let (year, cs) ← year cs
  let cs ← expect '-' (Text.trimLeft cs)
  let (month, cs) ← field 1 12 cs
  let cs ← expect '-' (Text.trimLeft cs)
  let (day, cs) ← field 1 31 cs
  let cs ← dateEnd cs
  let (hour, cs) ← field 0 23 cs
  let cs ← expect ':' (Text.trimLeft cs)
  let (minute, cs) ← field 0 59 cs
  let cs ← expect ':' (Text.trimLeft cs)
  let (second, cs) ← field 0 60 cs
  let (nano, cs) ← fraction cs
  let (offset, cs) ← lenientZone (Text.trimLeft cs)
  if !(Text.trimLeft cs).isEmpty then throw .trailing
  finish ⟨⟨year, month, day⟩, hour, minute, second, nano⟩ offset
where
  lenientZone (cs : List Char) : Read (Int × List Char) :=
    if (cs.take 3).map Char.toLower = ['u', 't', 'c'] then .ok (0, cs.drop 3)
    else zone (fun cs => .ok (cs.dropWhile fun c => c == ':' || Text.isBlank c)) cs

/-! ### The strict form -/

def exactly : Nat → List Char → Read (Nat × List Char)
  | width, cs => go width 0 cs
where
  go : Nat → Nat → List Char → Read (Nat × List Char)
    | 0, n, cs => .ok (n, cs)
    | _ + 1, _, [] => .error .tooShort
    | width + 1, n, c :: cs =>
      match Decimal.digit? c with
      | some d => go width (n * 10 + d) cs
      | none => .error .invalid

/-- Fields of fixed width; an impossible date is found before the time is read, an impossible time
before the zone. -/
def strict (cs : List Char) : Read Instant := do
  let (year, cs) ← exactly 4 cs
  let cs ← expect '-' cs
  let (month, cs) ← exactly 2 cs
  let cs ← expect '-' cs
  let (day, cs) ← exactly 2 cs
  let date : Calendar.Date := ⟨year, month, day⟩
  if ¬ date.Valid then throw .outOfRange
  let cs ← dateEnd cs
  let (hour, cs) ← exactly 2 cs
  let cs ← expect ':' cs
  let (minute, cs) ← exactly 2 cs
  let cs ← expect ':' cs
  let (second, cs) ← exactly 2 cs
  let (nano, cs) ← fraction cs
  if 24 ≤ hour ∨ 60 ≤ minute ∨ 60 < second then throw .outOfRange
  let (offset, cs) ← zone (expect ':') cs
  if !cs.isEmpty then throw .trailing
  finish ⟨date, hour, minute, second, nano⟩ offset

end SandboxWorker.Instant
