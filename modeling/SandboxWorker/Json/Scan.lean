import SandboxWorker.Json.Error
import SandboxWorker.Text.Utf8
/-! The tokens of JSON text, read from bytes: blanks, words, strings and numbers. Values that
nobody asks for are passed over by weaker rules: their strings need not be UTF-8 nor pair
surrogates, their numbers may be of any size. -/
namespace SandboxWorker.Json

/-- What a reader gives; mostly a value and the bytes after it. -/
abbrev Outcome (α : Type) := Except Error α

def quote : UInt8 := 0x22
def backslash : UInt8 := 0x5C
def openBrace : UInt8 := 0x7B
def closeBrace : UInt8 := 0x7D
def openBracket : UInt8 := 0x5B
def closeBracket : UInt8 := 0x5D
def comma : UInt8 := 0x2C
def colon : UInt8 := 0x3A
def minus : UInt8 := 0x2D
def plus : UInt8 := 0x2B
def point : UInt8 := 0x2E
def zero : UInt8 := 0x30

def isBlank (b : UInt8) : Bool := b == 0x20 || b == 0x09 || b == 0x0A || b == 0x0D

def skipBlanks (bs : Bytes) : Bytes := bs.dropWhile isBlank

def word : Bytes → Bytes → Outcome Bytes
  | [], bs => .ok bs
  | _ :: _, [] => .error .ended
  | w :: ws, b :: bs => if b = w then word ws bs else .error .malformed

/-! ### Strings -/

def hexDigit? (b : UInt8) : Option Nat := Hex.digit? (Char.ofNat b.toNat)

def hex4 : Bytes → Outcome (Nat × Bytes)
  | a :: b :: c :: d :: bs =>
    match hexDigit? a, hexDigit? b, hexDigit? c, hexDigit? d with
    | some a, some b, some c, some d => .ok (((a * 16 + b) * 16 + c) * 16 + d, bs)
    | _, _, _, _ => .error .malformed
  | _ => .error .ended

def isHighSurrogate (n : Nat) : Bool := 0xD800 ≤ n && n ≤ 0xDBFF

def isLowSurrogate (n : Nat) : Bool := 0xDC00 ≤ n && n ≤ 0xDFFF

def surrogatePair (high low : Nat) : Bytes :=
  String.utf8EncodeChar (Char.ofNat (0x10000 + (high - 0xD800) * 0x400 + (low - 0xDC00)))

/-- The bytes of the character that follows a backslash and `u`; a high surrogate needs its low one
right behind it. -/
def unicodeEscape (bs : Bytes) : Outcome (Bytes × Bytes) := do
  let (n, bs) ← hex4 bs
  if isLowSurrogate n then throw .malformed
  if !isHighSurrogate n then return (String.utf8EncodeChar (Char.ofNat n), bs)
  match bs with
  | [] => throw .ended
  | [b] => if b = backslash then throw .ended else throw .malformed
  | b :: u :: bs =>
    if b ≠ backslash ∨ u ≠ 0x75 then throw .malformed
    let (m, bs) ← hex4 bs
    if !isLowSurrogate m then throw .malformed
    return (surrogatePair n m, bs)

def shortEscape? (b : UInt8) : Option UInt8 :=
  if b = quote ∨ b = backslash ∨ b = 0x2F then some b
  else if b = 0x62 then some 0x08
  else if b = 0x66 then some 0x0C
  else if b = 0x6E then some 0x0A
  else if b = 0x72 then some 0x0D
  else if b = 0x74 then some 0x09
  else none

def escape : Bytes → Outcome (Bytes × Bytes)
  | [] => .error .ended
  | b :: bs =>
    match shortEscape? b with
    | some c => .ok ([c], bs)
    | none => if b = 0x75 then unicodeEscape bs else .error .malformed

theorem hex4_length {bs rest : Bytes} {n : Nat} (h : hex4 bs = .ok (n, rest)) :
    rest.length < bs.length := by
  unfold hex4 at h
  split at h
  · split at h
    · simp only [Except.ok.injEq, Prod.mk.injEq] at h
      obtain ⟨_, rfl⟩ := h
      simp
      omega
    · cases h
  · cases h

theorem unicodeEscape_length {bs rest out : Bytes} (h : unicodeEscape bs = .ok (out, rest)) :
    rest.length < bs.length := by
  unfold unicodeEscape at h
  cases h4 : hex4 bs with
  | error e => rw [h4] at h; cases h
  | ok p =>
    obtain ⟨n, r⟩ := p
    have hr := hex4_length h4
    rw [h4] at h
    simp only [bind, Except.bind] at h
    split at h
    · cases h
    · simp only [pure, Except.pure] at h
      split at h
      · rw [← (Prod.mk.inj (Except.ok.inj h)).2]; exact hr
      · split at h
        · cases h
        · split at h <;> cases h
        · rename_i b u s
          split at h
          · cases h
          · cases hs : hex4 s with
            | error e => rw [hs] at h; cases h
            | ok q =>
              have hq := hex4_length (show hex4 s = .ok (q.1, q.2) from hs)
              rw [hs] at h
              simp only at h
              split at h
              · cases h
              · rw [← (Prod.mk.inj (Except.ok.inj h)).2]
                simp only [List.length_cons] at hr
                omega

theorem escape_length {bs rest out : Bytes} (h : escape bs = .ok (out, rest)) :
    rest.length < bs.length := by
  unfold escape at h
  split at h
  · cases h
  · split at h
    · cases h; simp
    · split at h
      · have := unicodeEscape_length h
        simp only [List.length_cons]
        omega
      · cases h

def stringBody : Bytes → Outcome (Bytes × Bytes)
  | [] => .error .ended
  | b :: bs =>
    if b = quote then .ok ([], bs)
    else if b = backslash then
      match h : escape bs with
      | .error e => .error e
      | .ok (c, rest) =>
        have := escape_length h
        match stringBody rest with
        | .error e => .error e
        | .ok (cs, rest) => .ok (c ++ cs, rest)
    else if b < 0x20 then .error .malformed
    else
      match stringBody bs with
      | .error e => .error e
      | .ok (cs, rest) => .ok (b :: cs, rest)
termination_by bs => bs.length
decreasing_by all_goals simp only [List.length_cons]; omega

def string (bs : Bytes) : Outcome (String × Bytes) := do
  let (content, rest) ← stringBody bs
  match Utf8.decode? content with
  | some s => return (s, rest)
  | none => throw .malformed

/-- Passes over a string, from behind its opening quote: escapes must be known, but need not make
sense. -/
def skipString : Bytes → Outcome Bytes
  | [] => .error .ended
  | b :: bs =>
    if b = quote then .ok bs
    else if b = backslash then
      match bs with
      | [] => .error .ended
      | e :: rest =>
        if (shortEscape? e).isSome then skipString rest
        else if e = 0x75 then
          match h : hex4 rest with
          | .error e => .error e
          | .ok (_, rest') =>
            have := hex4_length h
            skipString rest'
        else .error .malformed
    else if b < 0x20 then .error .malformed
    else skipString bs
termination_by bs => bs.length
decreasing_by all_goals simp only [List.length_cons]; omega

/-! ### Numbers -/

def isDigit (b : UInt8) : Bool := 0x30 ≤ b && b ≤ 0x39

def digitValue (b : UInt8) : Nat := b.toNat - 48

def digitsValue (ds : Bytes) : Nat := ds.foldl (fun n d => n * 10 + digitValue d) 0

structure NumberText where
  whole : Bytes
  fraction : Option Bytes
  /-- Whether the exponent is negative, and its digits. -/
  exponent : Option (Bool × Bytes)

/-- One or more digits; `atEnd` is the error of text that stops in front of them. -/
def someDigits (atEnd : Error) (bs : Bytes) : Outcome (Bytes × Bytes) :=
  match bs.takeWhile isDigit with
  | [] => .error (if bs.isEmpty then atEnd else .malformed)
  | ds => .ok (ds, bs.dropWhile isDigit)

def wholePart (atEnd : Error) (bs : Bytes) : Outcome (Bytes × Bytes) := do
  let (ds, rest) ← someDigits atEnd bs
  if ds.length ≠ 1 ∧ ds.head? = some zero then throw .malformed
  return (ds, rest)

def fractionPart (atEnd : Error) : Bytes → Outcome (Option Bytes × Bytes)
  | b :: bs =>
    if b = point then do
      let (ds, rest) ← someDigits atEnd bs
      return (some ds, rest)
    else .ok (none, b :: bs)
  | [] => .ok (none, [])

def exponentPart (atEnd : Error) : Bytes → Outcome (Option (Bool × Bytes) × Bytes)
  | e :: bs =>
    if e = 0x65 ∨ e = 0x45 then do
      let (negative, bs) := match bs with
        | s :: r =>
          if s = minus then (true, r) else if s = plus then (false, r) else (false, s :: r)
        | [] => (false, [])
      let (ds, rest) ← someDigits atEnd bs
      return (some (negative, ds), rest)
    else .ok (none, e :: bs)
  | [] => .ok (none, [])

def numberText (atEnd : Error) (bs : Bytes) : Outcome (NumberText × Bytes) := do
  let (whole, bs) ← wholePart atEnd bs
  let (fraction, bs) ← fractionPart atEnd bs
  let (exponent, bs) ← exponentPart atEnd bs
  return (⟨whole, fraction, exponent⟩, bs)

/-! A number that is no integer of 64 bits is kept as a binary fraction of 53 bits. Only whether it
has one is of interest: a number too large for it is no number. -/

def wordLimit : Nat := 0x10000000000000000

/-- Digits of the whole part while they fit 64 bits, and how many do not. -/
def wholeSignificand : Bytes → Nat → Nat × Nat
  | [], n => (n, 0)
  | d :: ds, n =>
    if n * 10 + digitValue d < wordLimit then wholeSignificand ds (n * 10 + digitValue d)
    else (n, ds.length + 1)

def addFraction : Bytes → Nat → Nat × Nat
  | [], n => (n, 0)
  | d :: ds, n =>
    if n * 10 + digitValue d < wordLimit then
      let (m, k) := addFraction ds (n * 10 + digitValue d)
      (m, k + 1)
    else (n, 0)

/-- The nearest multiple of a power of two with 53 significant bits; a tie goes to the even one. -/
def round53 (n : Nat) : Nat :=
  if n < 0x20000000000000 then n
  else
    let unit := Nat.pow 2 (n.log2 - 52)
    let q := n / unit
    let r := n % unit
    (if unit < 2 * r ∨ (unit = 2 * r ∧ q % 2 = 1) then q + 1 else q) * unit

/-- Whether a number is too large: significand and power of ten, each rounded to 53 bits, multiply
to a product that rounds to 2^1024 or more. -/
def NumberText.overflows (t : NumberText) : Bool :=
  let (n, dropped) := wholeSignificand t.whole 0
  let (n, taken) := addFraction (t.fraction.getD []) n
  let shift : Int := match t.exponent with
    | none => 0
    | some (negative, ds) => if negative then -digitsValue ds else digitsValue ds
  let exponent : Int := dropped - taken + shift
  n ≠ 0 && (308 < exponent ||
    (0 ≤ exponent &&
      Nat.pow 2 1024 - Nat.pow 2 970 ≤ round53 n * round53 (Nat.pow 10 exponent.toNat)))

inductive Number where
  /-- An integer: unsigned of 64 bits, or negative and signed of 64 bits. -/
  | int (n : Int)
  /-- Anything else; minus zero too. -/
  | real
deriving DecidableEq, Repr

def NumberText.number (t : NumberText) (negative : Bool) : Number :=
  match t.fraction, t.exponent with
  | none, none =>
    let n := digitsValue t.whole
    if negative then if 0 < n ∧ n ≤ 0x8000000000000000 then .int (-n) else .real
    else if n < wordLimit then .int n else .real
  | _, _ => .real

def number (negative : Bool) (bs : Bytes) : Outcome (Number × Bytes) := do
  let (t, rest) ← numberText .ended bs
  if t.number negative = .real ∧ t.overflows then throw .malformed
  return (t.number negative, rest)

end SandboxWorker.Json
