import SandboxWorker.Json.Value
/-! The grammar of JSON: which texts stand for which data. A datum leaves out what the spelling may
choose, which is blanks and escapes; it keeps the order of members and the digits of numbers. -/
namespace SandboxWorker.Json

/-- A string as UTF-16, since escapes can spell surrogates that pair with nothing. -/
abbrev Units := List Nat

def unitsOf (c : Char) : Units :=
  if c.toNat < 0x10000 then [c.toNat]
  else [0xD800 + (c.toNat - 0x10000) / 0x400, 0xDC00 + (c.toNat - 0x10000) % 0x400]

def characters? : Units → Option (List Char)
  | [] => some []
  | u :: us =>
    if isLowSurrogate u then none
    else if isHighSurrogate u then
      match us with
      | [] => none
      | v :: us =>
        if isLowSurrogate v then
          (characters? us).map (Char.ofNat (0x10000 + (u - 0xD800) * 0x400 + (v - 0xDC00)) :: ·)
        else none
    else (characters? us).map (Char.ofNat u :: ·)

def string? (us : Units) : Option String := (characters? us).map String.ofList

inductive Datum where
  | null
  | bool (b : Bool)
  | number (spelling : List Char)
  | string (content : Units)
  | array (items : List Datum)
  | object (members : List (Units × Datum))

/-! ### Strings -/

def shortEscapes : List (Char × Nat) :=
  [('"', 0x22), ('\\', 0x5C), ('/', 0x2F), ('b', 0x08), ('f', 0x0C), ('n', 0x0A), ('r', 0x0D),
    ('t', 0x09)]

/-- What may stand between quotes for some units. -/
inductive Spells : Units → List Char → Prop where
  | nil : Spells [] []
  | plain {us : Units} {cs : List Char} {c : Char} (hquote : c ≠ '"') (hbackslash : c ≠ '\\')
    (hcontrol : 0x20 ≤ c.toNat) (more : Spells us cs) : Spells (unitsOf c ++ us) (c :: cs)
  | short {us : Units} {cs : List Char} {e : Char} {n : Nat} (h : (e, n) ∈ shortEscapes)
    (more : Spells us cs) : Spells (n :: us) ('\\' :: e :: cs)
  | code {us : Units} {cs : List Char} {a b c d : Char} {w x y z : Nat}
    (ha : Hex.digit? a = some w) (hb : Hex.digit? b = some x) (hc : Hex.digit? c = some y)
    (hd : Hex.digit? d = some z) (more : Spells us cs) :
    Spells ((((w * 16 + x) * 16 + y) * 16 + z) :: us) ('\\' :: 'u' :: a :: b :: c :: d :: cs)

/-! ### Numbers -/

def IsDigits (cs : List Char) : Prop := cs ≠ [] ∧ ∀ c ∈ cs, Decimal.isDigit c = true

/-- No zero stands in front of other digits. -/
def IsWhole (cs : List Char) : Prop := IsDigits cs ∧ (cs.head? = some '0' → cs = ['0'])

def IsFraction (cs : List Char) : Prop := cs = [] ∨ ∃ ds, cs = '.' :: ds ∧ IsDigits ds

def IsExponent (cs : List Char) : Prop :=
  cs = [] ∨ ∃ e sign ds, cs = e :: (sign ++ ds) ∧ (e = 'e' ∨ e = 'E') ∧
    (sign = [] ∨ sign = ['+'] ∨ sign = ['-']) ∧ IsDigits ds

def IsNumber (cs : List Char) : Prop :=
  ∃ sign whole fraction exponent, cs = sign ++ (whole ++ (fraction ++ exponent)) ∧
    (sign = [] ∨ sign = ['-']) ∧ IsWhole whole ∧ IsFraction fraction ∧ IsExponent exponent

/-! ### Values -/

structure Gap where
  chars : List Char
  blank : ∀ c ∈ chars, c = ' ' ∨ c = '\t' ∨ c = '\n' ∨ c = '\r'

/-- An item of an array: what it is, how it is spelled, and the blanks in front of its comma and
behind it. -/
structure Item where
  before : Gap
  after : Gap
  datum : Datum
  text : List Char

structure Entry extends Item where
  name : Units
  nameText : List Char
  beforeColon : Gap
  afterColon : Gap

def Entry.member (e : Entry) : Units × Datum := (e.name, e.datum)

namespace Datum

def separatorText (first : Bool) : List Char := if first then [] else [',']

def itemsText : Bool → List Item → List Char
  | _, [] => []
  | first, i :: items =>
    i.before.chars ++ (separatorText first ++ (i.after.chars ++ (i.text ++ itemsText false items)))

def entryText (e : Entry) : List Char :=
  '"' :: (e.nameText ++ '"' :: (e.beforeColon.chars ++ ':' :: (e.afterColon.chars ++ e.text)))

def entriesText : Bool → List Entry → List Char
  | _, [] => []
  | first, e :: entries =>
    e.before.chars ++
      (separatorText first ++ (e.after.chars ++ (entryText e ++ entriesText false entries)))

inductive Text : Datum → List Char → Prop where
  | null : Text .null "null".toList
  | trueWord : Text (.bool true) "true".toList
  | falseWord : Text (.bool false) "false".toList
  | number {cs : List Char} (h : IsNumber cs) : Text (.number cs) cs
  | string {us : Units} {cs : List Char} (h : Spells us cs) :
    Text (.string us) ('"' :: (cs ++ ['"']))
  | array {items : List Item} (each : ∀ i ∈ items, Text i.datum i.text) (gap : Gap) :
    Text (.array (items.map (·.datum))) ('[' :: (itemsText true items ++ (gap.chars ++ [']'])))
  | object {entries : List Entry} (names : ∀ e ∈ entries, Spells e.name e.nameText)
    (each : ∀ e ∈ entries, Text e.datum e.text) (gap : Gap) :
    Text (.object (entries.map Entry.member))
      ('\x7b' :: (entriesText true entries ++ (gap.chars ++ ['\x7d'])))

end Datum

/-- A text that is a datum, with blanks around it. -/
def Denotes (content : String) (d : Datum) : Prop :=
  ∃ (front back : Gap) (cs : List Char), d.Text cs ∧
    content.toList = front.chars ++ (cs ++ back.chars)

end SandboxWorker.Json
