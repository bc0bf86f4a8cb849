import SandboxWorker.Text.Hex
/-! Universally unique identifiers: 128 bits, written as 32 lowercase hexadecimal digits in
groups. -/
namespace SandboxWorker

structure Uuid where
  bits : BitVec 128
deriving DecidableEq, Repr

namespace Uuid

def text (u : Uuid) : List Char :=
  let n := u.bits.toNat
  Hex.fixed 8 (n >>> 96) ++ '-' :: Hex.fixed 4 (n >>> 80) ++ '-' :: Hex.fixed 4 (n >>> 64) ++
    '-' :: Hex.fixed 4 (n >>> 48) ++ '-' :: Hex.fixed 12 n

def toString (u : Uuid) : String := String.ofList u.text

instance : ToString Uuid := ⟨toString⟩

def ofHex? (cs : List Char) : Option Nat :=
  cs.foldlM (fun n c => (Hex.digit? c).map (n * 16 + ·)) 0

def isGrouped (cs : List Char) : Bool :=
  cs.length == 36 && cs[8]? == some '-' && cs[13]? == some '-' && cs[18]? == some '-' &&
    cs[23]? == some '-'

def ofGrouped? (cs : List Char) : Option Uuid :=
  if isGrouped cs then
    (ofHex? (cs.take 8 ++ (cs.drop 9).take 4 ++ (cs.drop 14).take 4 ++ (cs.drop 19).take 4 ++
      cs.drop 24)).map fun n => ⟨BitVec.ofNat 128 n⟩
  else none

/-- Reads 32 digits, the grouped form, the grouped form in braces, or after `urn:uuid:`. -/
def ofChars? (cs : List Char) : Option Uuid :=
  if cs.length = 32 then (ofHex? cs).map fun n => ⟨BitVec.ofNat 128 n⟩
  else if cs.length = 38 ∧ cs[0]? = some '\x7b' ∧ cs[37]? = some '\x7d' then
    ofGrouped? ((cs.drop 1).take 36)
  else if cs.length = 45 ∧ (cs.take 9).map Char.toLower = "urn:uuid:".toList then
    ofGrouped? (cs.drop 9)
  else ofGrouped? cs

end Uuid
end SandboxWorker
