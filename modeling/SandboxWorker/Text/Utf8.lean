/-! UTF-8 read one byte at a time. A reader is between characters or owes continuation bytes; the
byte that cannot continue an open character ends it as one ill-formed part and is read afresh, so
each longest ill-formed part counts once. -/
namespace SandboxWorker

abbrev Bytes := List UInt8

namespace Utf8

def encodeChars (cs : List Char) : Bytes := cs.flatMap String.utf8EncodeChar

def encode (s : String) : Bytes := encodeChars s.toList

@[simp] theorem encodeChars_nil : encodeChars [] = [] := rfl

@[simp] theorem encodeChars_cons (c : Char) (cs : List Char) :
    encodeChars (c :: cs) = String.utf8EncodeChar c ++ encodeChars cs := rfl

@[simp] theorem encodeChars_append (a b : List Char) :
    encodeChars (a ++ b) = encodeChars a ++ encodeChars b := by
  simp [encodeChars]

theorem encode_append (a b : String) : encode (a ++ b) = encode a ++ encode b := by
  rw [encode, String.toList_append, encodeChars_append]
  rfl

/-- Where a reader stands: between characters, or inside one that still owes bytes, the next of
which lies between two bounds. -/
inductive Reader where
  | clear
  | inside (value owed : Nat) (low high : UInt8)
deriving DecidableEq, Repr

/-- What a byte gives when a character starts with it; the bounds keep out overlong forms,
surrogates and values past U+10FFFF. -/
def lead (b : UInt8) : List (Option Char) × Reader :=
  if b < 0x80 then ([some (Char.ofNat b.toNat)], .clear)
  else if b < 0xC2 then ([none], .clear)
  else if b < 0xE0 then ([], .inside (b.toNat % 0x20) 1 0x80 0xBF)
  else if b = 0xE0 then ([], .inside 0 2 0xA0 0xBF)
  else if b = 0xED then ([], .inside 0xD 2 0x80 0x9F)
  else if b < 0xF0 then ([], .inside (b.toNat % 0x10) 2 0x80 0xBF)
  else if b = 0xF0 then ([], .inside 0 3 0x90 0xBF)
  else if b < 0xF4 then ([], .inside (b.toNat % 8) 3 0x80 0xBF)
  else if b = 0xF4 then ([], .inside 4 3 0x80 0x8F)
  else ([none], .clear)

/-- What one more byte gives: finished parts, `none` for an ill-formed one, and where the reader
then stands. -/
def Reader.step : Reader → UInt8 → List (Option Char) × Reader
  | .clear, b => lead b
  | .inside value owed low high, b =>
    if low ≤ b ∧ b ≤ high then
      let value := value * 0x40 + b.toNat % 0x40
      if owed = 1 then ([some (Char.ofNat value)], .clear)
      else ([], .inside value (owed - 1) 0x80 0xBF)
    else (none :: (lead b).1, (lead b).2)

/-- What the end of the bytes gives: a character left open is one ill-formed part. -/
def Reader.finish : Reader → List (Option Char)
  | .clear => []
  | .inside .. => [none]

/-- The characters of some bytes, `none` for each longest ill-formed part. -/
def Reader.parts : Reader → Bytes → List (Option Char)
  | r, [] => r.finish
  | r, b :: bs => (r.step b).1 ++ (r.step b).2.parts bs

def decodeLossy (bs : Bytes) : String :=
  String.ofList ((Reader.clear.parts bs).map (·.getD '\uFFFD'))

def decode? (bs : Bytes) : Option String :=
  ((Reader.clear.parts bs).mapM id).map String.ofList

end Utf8
end SandboxWorker
