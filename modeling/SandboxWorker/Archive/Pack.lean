import SandboxWorker.Archive.Header
import SandboxWorker.Archive.Name
/-! Archives of one file: a header, the content filled up to whole blocks, and two empty blocks. A
name too long for a header comes first, as the content of an entry of its own. -/
namespace SandboxWorker.Archive

def toBlocks (bs : Bytes) : Bytes :=
  bs ++ List.replicate ((blockLength - bs.length % blockLength) % blockLength) 0

/-- The field of the name that announces a long name: `././@LongLink`. -/
def longNameField : Bytes :=
  padTo nameLength [0x2E, 0x2F, 0x2E, 0x2F, 0x40, 0x4C, 0x6F, 0x6E, 0x67, 0x4C, 0x69, 0x6E, 0x6B]

def longNameEntry (name : Bytes) : Bytes :=
  Header.encode ⟨longNameField, .longName, name.length + 1, 0⟩ ++ toBlocks (name ++ [0])

def fileEntry (field content : Bytes) (modified : Nat) : Bytes :=
  Header.encode ⟨field, .file, content.length, modified⟩ ++ toBlocks content

def trailer : Bytes := List.replicate (2 * blockLength) 0

def packFile (name : String) (content : Bytes) (modified : Nat) : Option Bytes :=
  (nameField name).map fun (field, isLong) =>
    (if isLong then longNameEntry (Utf8.encode name) else []) ++
      fileEntry field content modified ++ trailer

end SandboxWorker.Archive
