import SandboxWorker.Text.Utf8
/-! Headers of archive entries: one block of 512 bytes with numbers in octal digits and a sum over
all of its bytes. -/
namespace SandboxWorker.Archive

def blockLength : Nat := 512

def octal : Nat → Nat → Bytes
  | 0, _ => []
  | width + 1, n => octal width (n / 8) ++ [UInt8.ofNat (48 + n % 8)]

def ofOctal? (bs : Bytes) : Option Nat :=
  bs.foldlM (fun n b => if 0x30 ≤ b ∧ b < 0x38 then some (n * 8 + (b.toNat - 48)) else none) 0

def bigEndian : Nat → Nat → Bytes
  | 0, _ => []
  | width + 1, n => bigEndian width (n / 256) ++ [UInt8.ofNat (n % 256)]

def ofBigEndian (bs : Bytes) : Nat := bs.foldl (fun n b => n * 256 + b.toNat) 0

def octalLimit : Nat := 0o100000000000

/-- A number in a field of twelve bytes: octal digits and a null or, if these do not suffice, eight
bytes behind a mark. -/
def number (n : Nat) : Bytes :=
  if n < octalLimit then octal 11 n ++ [0] else [0x80, 0, 0, 0] ++ bigEndian 8 n

def ofNumber? (field : Bytes) : Option Nat :=
  match field with
  | [] => none
  | b :: _ => if 0x80 ≤ b then some (ofBigEndian (field.drop 4)) else ofOctal? (field.take 11)

inductive EntryKind where
  | file
  /-- An entry whose content is the name of the next one. -/
  | longName
deriving DecidableEq, Repr

def EntryKind.flag : EntryKind → UInt8
  | .file => 0x30
  | .longName => 0x4C

def EntryKind.ofFlag? (b : UInt8) : Option EntryKind :=
  if b = 0x30 then some .file else if b = 0x4C then some .longName else none

structure Header where
  /-- The whole field of 100 bytes. -/
  name : Bytes
  kind : EntryKind
  size : Nat
  modified : Nat
deriving DecidableEq, Repr

namespace Header

/-- Owner may read and write, others may read. -/
def mode : Nat := 0o644

def zeros (n : Nat) : Bytes := List.replicate n 0

/-- User and group. A file's are left empty. -/
def owners (kind : EntryKind) : Bytes :=
  match kind with
  | .file => zeros 16
  | .longName => octal 7 0 ++ 0 :: octal 7 0 ++ [0]

def front (h : Header) : Bytes :=
  h.name ++ octal 7 mode ++ 0 :: owners h.kind ++ number h.size ++ number h.modified

def magic : Bytes := [0x75, 0x73, 0x74, 0x61, 0x72, 0x20, 0x20, 0]

def back (h : Header) : Bytes := h.kind.flag :: zeros 100 ++ magic ++ zeros 247

def total (bs : Bytes) : Nat := bs.foldl (fun n b => n + b.toNat) 0

/-- The sum of all bytes of a block, its own field counted as blanks. -/
def checksum (front back : Bytes) : Nat := total front + 8 * 0x20 + total back

def encode (h : Header) : Bytes :=
  h.front ++ octal 7 (checksum h.front h.back) ++ 0 :: h.back

def field (block : Bytes) (offset length : Nat) : Bytes := (block.drop offset).take length

def isSummed (block : Bytes) : Bool :=
  ofOctal? (field block 148 7) == some (checksum (block.take 148) (block.drop 156))

def decode? (block : Bytes) : Option (Header × Nat) := do
  guard (isSummed block)
  return ({ name := field block 0 100
            kind := ← EntryKind.ofFlag? (← block[156]?)
            size := ← ofNumber? (field block 124 12)
            modified := ← ofNumber? (field block 136 12) },
    ← ofOctal? (field block 100 7))

end Header
end SandboxWorker.Archive
