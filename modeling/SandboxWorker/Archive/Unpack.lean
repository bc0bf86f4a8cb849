import SandboxWorker.Archive.Header
/-! Reading archives: entry after entry, up to two empty blocks. -/
namespace SandboxWorker.Archive

structure Entry where
  path : Bytes
  mode : Nat
  content : Bytes
deriving DecidableEq, Repr

def untilNull (bs : Bytes) : Bytes := bs.takeWhile (· ≠ 0)

/-- A name told in full, without the null that ends it. -/
def toldName (bs : Bytes) : Bytes := if bs.getLast? = some 0 then bs.dropLast else bs

def isEmptyBlock (block : Bytes) : Bool := block.all (· == 0)

def blocksLength (size : Nat) : Nat := (size + blockLength - 1) / blockLength * blockLength

/-- The entries of an archive; `longName` is the name told before the next one. None for what is no
archive. -/
def unpackNamed (longName : Option Bytes) (bs : Bytes) : Option (List Entry) :=
  if h : bs.length < blockLength then none
  else
    let block := bs.take blockLength
    let rest := bs.drop blockLength
    if isEmptyBlock block then
      if rest.length < blockLength ∨ !isEmptyBlock (rest.take blockLength) then none else some []
    else
      match Header.decode? block with
      | none => none
      | some (header, mode) =>
        let content := rest.take header.size
        have shorter : (rest.drop (blocksLength header.size)).length < bs.length := by
          simp only [List.length_drop, rest, blockLength] at h ⊢
          omega
        if content.length < header.size then none
        else
          match header.kind with
          | .longName =>
            unpackNamed (some (toldName content)) (rest.drop (blocksLength header.size))
          | .file =>
            (unpackNamed none (rest.drop (blocksLength header.size))).map
              (⟨longName.getD (untilNull header.name), mode, content⟩ :: ·)
termination_by bs.length
decreasing_by all_goals exact shorter

def unpack (bs : Bytes) : Option (List Entry) := unpackNamed none bs

end SandboxWorker.Archive
