import SandboxWorker.Archive.Pack
import SandboxWorker.Archive.Unpack
import SandboxWorker.Proofs.Archive.Names
import SandboxWorker.Proofs.Text.Decimal
/-! A packed file is read back, with its name and its content, whatever the length of either. -/
namespace SandboxWorker.Archive

/-! ### Whole blocks -/

theorem length_toBlocks (bs : Bytes) : (toBlocks bs).length = blocksLength bs.length := by
  rw [toBlocks, List.length_append, List.length_replicate, blocksLength, blockLength]
  omega

theorem blocksLength_mod (size : Nat) : blocksLength size % blockLength = 0 :=
  Nat.mul_mod_left ..

theorem take_toBlocks (bs rest : Bytes) : (toBlocks bs ++ rest).take bs.length = bs := by
  rw [toBlocks, List.append_assoc, List.take_left]

theorem drop_toBlocks (bs rest : Bytes) :
    (toBlocks bs ++ rest).drop (blocksLength bs.length) = rest :=
  List.drop_left' (length_toBlocks bs)

theorem untilNull_padTo {bs : Bytes} (h : 0 ∉ bs) (width : Nat) :
    untilNull (padTo width bs) = bs := by
  refine takeWhile_append_of_head (fun b hb => ?_) fun b hb => ?_
  · have hne : b ≠ 0 := fun hzero => h (hzero ▸ hb)
    simpa using hne
  · have hzero := List.eq_of_mem_replicate (List.mem_of_head? hb)
    simp [hzero]

theorem toldName_terminated (name : Bytes) : toldName (name ++ [0]) = name := by
  simp [toldName]

/-! ### Entries -/

/-- The header blocks on the way through an archive. Behind each one comes as much content as it
says. -/
def headers (bs : Bytes) : List Bytes :=
  if h : bs.length < blockLength then []
  else
    let block := bs.take blockLength
    let size := (ofNumber? (Header.field block 124 12)).getD 0
    have shorter : ((bs.drop blockLength).drop (blocksLength size)).length < bs.length := by
      simp only [List.length_drop, blockLength] at h ⊢
      omega
    if isEmptyBlock block then []
    else block :: headers ((bs.drop blockLength).drop (blocksLength size))
termination_by bs.length
decreasing_by exact shorter

structure IsEntry (h : Header) (content : Bytes) : Prop where
  name : h.name.length = nameLength
  size : h.size = content.length
  fits : word content.length = content.length

namespace IsEntry
variable {h : Header} {content : Bytes}

theorem not_short (hentry : IsEntry h content) (rest : Bytes) :
    ¬(h.encode ++ (toBlocks content ++ rest)).length < blockLength := by
  rw [List.length_append, Header.length_encode hentry.name]
  omega

theorem length_mod (hentry : IsEntry h content) (rest : Bytes) :
    (h.encode ++ (toBlocks content ++ rest)).length % blockLength = rest.length % blockLength := by
  rw [List.length_append, List.length_append, Header.length_encode hentry.name, length_toBlocks,
    Nat.add_mod_left, Nat.add_mod, blocksLength_mod, Nat.zero_add, Nat.mod_mod]

theorem take_eq (hentry : IsEntry h content) (rest : Bytes) :
    (h.encode ++ (toBlocks content ++ rest)).take blockLength = h.encode :=
  List.take_left' (Header.length_encode hentry.name)

theorem drop_eq (hentry : IsEntry h content) (rest : Bytes) :
    (h.encode ++ (toBlocks content ++ rest)).drop blockLength = toBlocks content ++ rest :=
  List.drop_left' (Header.length_encode hentry.name)

theorem not_empty (hentry : IsEntry h content) : isEmptyBlock h.encode = false := by
  have hflag := Header.flag_mem_encode hentry.name
  have hne : h.kind.flag ≠ 0 := by
    cases h.kind <;> decide
  rw [isEmptyBlock, List.all_eq_false]
  exact ⟨_, hflag, by simpa using hne⟩

theorem headers_eq (hentry : IsEntry h content) (rest : Bytes) :
    headers (h.encode ++ (toBlocks content ++ rest)) = h.encode :: headers rest := by
  have hsize : ofNumber? (Header.field h.encode 124 12) = some content.length := by
    rw [(Header.fields_encode hentry.name).2.2.1, ofNumber?_number, hentry.size, hentry.fits]
  rw [headers, dif_neg (hentry.not_short rest)]
  simp only [hentry.take_eq, hentry.drop_eq, hentry.not_empty, hsize, Option.getD_some,
    drop_toBlocks, Bool.false_eq_true, if_false]

theorem unpackNamed_eq (hentry : IsEntry h content) (longName : Option Bytes) (rest : Bytes) :
    unpackNamed longName (h.encode ++ (toBlocks content ++ rest)) =
      match h.kind with
      | .longName => unpackNamed (some (toldName content)) rest
      | .file => (unpackNamed none rest).map
          (⟨longName.getD (untilNull h.name), Header.mode, content⟩ :: ·) := by
  rw [unpackNamed, dif_neg (hentry.not_short rest)]
  cases hkind : h.kind <;>
    simp only [hentry.take_eq, hentry.drop_eq, hentry.not_empty, Header.decode?_encode hentry.name,
      hentry.size, hentry.fits, hkind, take_toBlocks, drop_toBlocks, Bool.false_eq_true, if_false,
      Nat.lt_irrefl]

end IsEntry

def emptyBlock : Bytes := List.replicate blockLength 0

theorem trailer_eq : trailer = emptyBlock ++ emptyBlock := by
  rw [trailer, emptyBlock, List.replicate_append_replicate, Nat.two_mul]

theorem length_emptyBlock : emptyBlock.length = blockLength := List.length_replicate

theorem isEmptyBlock_emptyBlock : isEmptyBlock emptyBlock = true := by
  simp [isEmptyBlock, emptyBlock]

theorem length_trailer_mod : trailer.length % blockLength = 0 := by
  rw [trailer, List.length_replicate, Nat.mul_mod_left]

theorem headers_trailer : headers trailer = [] := by
  rw [headers, trailer_eq, dif_neg (by simp [length_emptyBlock])]
  simp only [List.take_left' length_emptyBlock, isEmptyBlock_emptyBlock, if_true]

theorem unpackNamed_trailer (longName : Option Bytes) : unpackNamed longName trailer = some [] := by
  have htake : emptyBlock.take blockLength = emptyBlock :=
    List.take_of_length_le (Nat.le_of_eq length_emptyBlock)
  rw [unpackNamed, trailer_eq, dif_neg (by simp [length_emptyBlock])]
  simp [List.take_left' length_emptyBlock, List.drop_left' length_emptyBlock, htake,
    length_emptyBlock, isEmptyBlock_emptyBlock]

/-! ### Archives -/

theorem isEntry_file {field content : Bytes} (hfield : field.length = nameLength)
    (hsize : content.length < octalLimit) (modified : Nat) :
    IsEntry ⟨field, .file, content.length, modified⟩ content where
  name := hfield
  size := rfl
  fits := by
    rw [octalLimit] at hsize
    exact word_of_lt (by omega)

/-- The greatest number of bytes that a text can have in memory is below this one. -/
def textLimit : Nat := 0x8000000000000000

theorem isEntry_longName {name : Bytes} (hsize : name.length < textLimit) :
    IsEntry ⟨longNameField, .longName, name.length + 1, 0⟩ (name ++ [0]) where
  name := rfl
  size := by rw [List.length_append, List.length_singleton]
  fits := by
    rw [textLimit] at hsize
    rw [List.length_append, List.length_singleton]
    exact word_of_lt (by omega)

/-- The lengths of files are told in 64 bits. -/
def fileLimit : Nat := 0x10000000000000000

/-- An archive that was packed under one component of a path holds the file under this name, and
nothing else. A null in the name is refused, unless the name is told in full before its entry. -/
theorem unpack_of_packFile {name : String} (hname : Path.IsName name)
    (htext : name.utf8ByteSize < textLimit) {content : Bytes} (hsize : content.length < fileLimit)
    {modified : Nat} {archive : Bytes} (h : packFile name content modified = some archive) :
    unpack archive = some [⟨Utf8.encode name, Header.mode, content⟩] := by
  obtain ⟨⟨field, isLong⟩, hfield, rfl⟩ := Option.map_eq_some_iff.mp h
  obtain ⟨hlength, hshort⟩ := field_of_nameField hname hfield
  have hfile : IsEntry ⟨field, .file, content.length, modified⟩ content :=
    ⟨hlength, rfl, word_of_lt hsize⟩
  cases isLong with
  | true =>
    have htold := isEntry_longName (Utf8.length_encode name ▸ htext)
    simp only [if_true, longNameEntry, fileEntry, List.append_assoc]
    rw [unpack, htold.unpackNamed_eq]
    simp only [toldName_terminated, hfile.unpackNamed_eq, unpackNamed_trailer]
    rfl
  | false =>
    obtain ⟨hnull, rfl⟩ := hshort rfl
    simp only [Bool.false_eq_true, if_false, List.nil_append, fileEntry, List.append_assoc]
    rw [unpack, hfile.unpackNamed_eq]
    simp only [unpackNamed_trailer, untilNull_padTo hnull]
    rfl

theorem isName_upToNull_of_packFile {name : String} (hname : Path.IsName name) {content : Bytes}
    {modified : Nat} {archive : Bytes} (h : packFile name content modified = some archive) :
    Path.IsName (upToNull name) := by
  obtain ⟨_, hfield, -⟩ := Option.map_eq_some_iff.mp h
  exact isName_upToNull hname hfield

/-- Where the files of an archive lie that is unpacked in a directory, with their content. -/
def extracted (dir : String) (archive : Bytes) : Option (List (String × Bytes)) :=
  (unpack archive).map fun entries =>
    entries.map fun e => (Path.join dir (Utf8.decodeLossy e.path), e.content)

theorem packFile_short {name : String} (hname : IsEntryName name)
    (hshort : (Utf8.encode name).length ≤ nameLength) (content : Bytes) (modified : Nat) :
    packFile name content modified =
      some (Header.encode ⟨padTo nameLength (Utf8.encode name), .file, content.length, modified⟩ ++
        (toBlocks content ++ trailer)) := by
  rw [packFile, hname.nameField_short hshort, ← List.append_assoc]
  rfl

theorem packFile_long {name : String} (hname : IsEntryName name)
    (hlong : nameLength < (Utf8.encode name).length) (content : Bytes) (modified : Nat) :
    ∃ field : Bytes, field.length = nameLength ∧ packFile name content modified =
      some (Header.encode ⟨longNameField, .longName, (Utf8.encode name).length + 1, 0⟩ ++
        (toBlocks (Utf8.encode name ++ [0]) ++
          (Header.encode ⟨field, .file, content.length, modified⟩ ++
            (toBlocks content ++ trailer)))) := by
  obtain ⟨field, hfield, hlength⟩ := hname.nameField_long hlong
  refine ⟨field, hlength, ?_⟩
  rw [packFile, hfield, ← List.append_assoc, ← List.append_assoc, ← List.append_assoc,
    List.append_assoc _ (Header.encode _) (toBlocks content)]
  rfl

/-- The archive of a file, under a name of any length, holds that file alone, whole name and
all. -/
theorem packed_file_read_back {name : String} (hname : IsEntryName name)
    (htext : name.utf8ByteSize < textLimit) {content : Bytes}
    (hsize : content.length < octalLimit) (modified : Nat) :
    ∃ archive, packFile name content modified = some archive ∧
      archive.length % blockLength = 0 ∧
      (∀ block ∈ headers archive, Header.isSummed block = true) ∧
      unpack archive = some [⟨Utf8.encode name, Header.mode, content⟩] := by
  rcases Nat.lt_or_ge nameLength (Utf8.encode name).length with hlong | hshort
  · obtain ⟨field, hlength, hpacked⟩ := packFile_long hname hlong content modified
    have htold := isEntry_longName (Utf8.length_encode name ▸ htext)
    have hfile := isEntry_file hlength hsize modified
    refine ⟨_, hpacked, ?_, ?_, ?_⟩
    · rw [htold.length_mod, hfile.length_mod, length_trailer_mod]
    · rw [htold.headers_eq, hfile.headers_eq, headers_trailer]
      simp [Header.isSummed_encode htold.name, Header.isSummed_encode hfile.name]
    · rw [unpack, htold.unpackNamed_eq]
      simp only [toldName_terminated, hfile.unpackNamed_eq, unpackNamed_trailer]
      rfl
  · have hfile := isEntry_file (length_padTo hshort) hsize modified
    refine ⟨_, packFile_short hname hshort content modified, ?_, ?_, ?_⟩
    · rw [hfile.length_mod, length_trailer_mod]
    · rw [hfile.headers_eq, headers_trailer]
      simp [Header.isSummed_encode hfile.name]
    · rw [unpack, hfile.unpackNamed_eq]
      simp only [unpackNamed_trailer, untilNull_padTo hname.zero_not_mem]
      rfl

/-- Fifty characters of three bytes, the thirty-fourth of which only begins in a header. -/
theorem packed_file_read_back_euros :
    let name := String.ofList (List.replicate 50 '€')
    IsEntryName name ∧ name.utf8ByteSize < textLimit ∧ [0x78].length < octalLimit ∧
    ∃ archive, packFile name [0x78] 0 = some archive ∧
      unpack archive = some [⟨Utf8.encode name, Header.mode, [0x78]⟩] := by
  intro name
  have hname : IsEntryName name := by decide +kernel
  have htext : name.utf8ByteSize < textLimit := by decide +kernel
  have hsize : ([0x78] : Bytes).length < octalLimit := by decide
  obtain ⟨archive, hpacked, -, -, hread⟩ := packed_file_read_back hname htext hsize 0
  exact ⟨hname, htext, hsize, archive, hpacked, hread⟩

end SandboxWorker.Archive
