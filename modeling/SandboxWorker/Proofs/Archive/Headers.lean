import SandboxWorker.Archive.Header
import SandboxWorker.Archive.Name
/-! Headers come back from their blocks: every field stands in its place, the sum is that of the
block, and the numbers are read as they were written. -/
namespace SandboxWorker.Archive

/-! ### Numbers -/

@[simp] theorem length_octal (width n : Nat) : (octal width n).length = width := by
  induction width generalizing n with
  | zero => rfl
  | succ width ih => rw [octal, List.length_append, ih, List.length_singleton]

@[simp] theorem length_bigEndian (width n : Nat) : (bigEndian width n).length = width := by
  induction width generalizing n with
  | zero => rfl
  | succ width ih => rw [bigEndian, List.length_append, ih, List.length_singleton]

@[simp] theorem length_number (n : Nat) : (number n).length = 12 := by
  unfold number
  split <;> simp

theorem toNat_octalDigit (n : Nat) : (UInt8.ofNat (48 + n % 8)).toNat = 48 + n % 8 := by
  rw [UInt8.toNat_ofNat', Nat.mod_eq_of_lt (by omega)]

theorem foldlM_octal (width n m : Nat) :
    (octal width n).foldlM
        (fun n b => if 0x30 ≤ b ∧ b < 0x38 then some (n * 8 + (b.toNat - 48)) else none) m =
      some (m * Nat.pow 8 width + n % Nat.pow 8 width) := by
  induction width generalizing n with
  | zero => simp [octal, Nat.mod_one]
  | succ width ih =>
    have hpow : Nat.pow 8 (width + 1) = 8 * Nat.pow 8 width := Nat.pow_succ'
    have hfront : m * (8 * Nat.pow 8 width) = 8 * (m * Nat.pow 8 width) := Nat.mul_left_comm _ _ _
    rw [octal, List.foldlM_append, ih, hpow, Nat.mod_mul, hfront]
    simp only [List.foldlM_cons, List.foldlM_nil, bind, Option.bind, pure, UInt8.le_iff_toNat_le,
      UInt8.lt_iff_toNat_lt, toNat_octalDigit, UInt8.reduceToNat]
    rw [if_pos (by omega), Option.some_inj]
    omega

theorem ofOctal?_octal {width n : Nat} (h : n < Nat.pow 8 width) :
    ofOctal? (octal width n) = some n := by
  rw [ofOctal?, foldlM_octal, Nat.mod_eq_of_lt h, Nat.zero_mul, Nat.zero_add]

theorem foldl_bigEndian (width n m : Nat) :
    (bigEndian width n).foldl (fun n b => n * 256 + b.toNat) m =
      m * Nat.pow 256 width + n % Nat.pow 256 width := by
  induction width generalizing n with
  | zero => simp [bigEndian, Nat.mod_one]
  | succ width ih =>
    have hpow : Nat.pow 256 (width + 1) = 256 * Nat.pow 256 width := Nat.pow_succ'
    have hfront : m * (256 * Nat.pow 256 width) = 256 * (m * Nat.pow 256 width) :=
      Nat.mul_left_comm _ _ _
    have hbyte : (UInt8.ofNat (n % 256)).toNat = n % 256 := by
      rw [UInt8.toNat_ofNat', Nat.mod_mod]
    rw [bigEndian, List.foldl_append, ih, hpow, Nat.mod_mul, hfront]
    simp only [List.foldl_cons, List.foldl_nil, hbyte]
    omega

theorem lt_of_mem_octal {width n : Nat} {b : UInt8} (h : b ∈ octal width n) : b < 0x80 := by
  induction width generalizing n with
  | zero => cases h
  | succ width ih =>
    rw [octal, List.mem_append, List.mem_singleton] at h
    rcases h with h | rfl
    · exact ih h
    · rw [UInt8.lt_iff_toNat_lt, toNat_octalDigit]
      simp only [UInt8.reduceToNat]
      omega

def word (n : Nat) : Nat := n % 0x10000000000000000

theorem ofBigEndian_bigEndian (n : Nat) : ofBigEndian (bigEndian 8 n) = word n := by
  rw [ofBigEndian, foldl_bigEndian, Nat.zero_mul, Nat.zero_add]
  rfl

theorem word_of_lt {n : Nat} (h : n < 0x10000000000000000) : word n = n := Nat.mod_eq_of_lt h

/-- Eleven octal digits hold less than eight bytes do, so only those can cut a number. -/
theorem ofNumber?_number (n : Nat) : ofNumber? (number n) = some (word n) := by
  unfold number
  split
  · rename_i h
    rw [octalLimit] at h
    cases hdigits : octal 11 n with
    | nil => simpa [hdigits] using length_octal 11 n
    | cons b rest =>
      have hfirst : ¬0x80 ≤ b := by
        have hb : b < 0x80 := lt_of_mem_octal (hdigits ▸ List.mem_cons_self)
        simpa using hb
      have htake : (b :: rest ++ [0]).take 11 = octal 11 n := by
        rw [hdigits]
        exact List.take_left' (by simpa [hdigits] using length_octal 11 n)
      rw [List.cons_append, ofNumber?, if_neg hfirst, ← List.cons_append, htake,
        ofOctal?_octal h, word_of_lt (by omega)]
  · show some (ofBigEndian (bigEndian 8 n)) = _
    rw [ofBigEndian_bigEndian]

/-! ### Blocks -/

namespace Header

theorem field_append {block front content back : Bytes} {offset length : Nat}
    (h : block = front ++ (content ++ back)) (hoffset : front.length = offset)
    (hlength : content.length = length) : field block offset length = content := by
  rw [field, h, List.drop_left' hoffset, List.take_left' hlength]

@[simp] theorem length_zeros (n : Nat) : (zeros n).length = n := List.length_replicate

@[simp] theorem length_owners (kind : EntryKind) : (owners kind).length = 16 := by
  cases kind <;> simp [owners]

theorem total_le (bs : Bytes) : total bs ≤ 255 * bs.length := by
  have hfold (m : Nat) : bs.foldl (fun n b => n + b.toNat) m ≤ m + 255 * bs.length := by
    induction bs generalizing m with
    | nil => simp
    | cons b bs ih =>
      have hb := b.toNat_lt
      have hrest := ih (m + b.toNat)
      rw [List.foldl_cons, List.length_cons]
      omega
  simpa [total] using hfold 0

theorem length_back (h : Header) : h.back.length = 356 := by
  simp [back, magic]

theorem front_eq (h : Header) : h.front = h.name ++
    (octal 7 mode ++ ([0] ++ (owners h.kind ++ (number h.size ++ number h.modified)))) := by
  rw [front]
  simp only [List.append_assoc, List.cons_append, List.nil_append]

theorem encode_eq (h : Header) : h.encode =
    h.front ++ (octal 7 (checksum h.front h.back) ++ ([0] ++ h.back)) := by
  rw [encode, List.append_assoc, List.singleton_append]

variable {h : Header} (hname : h.name.length = nameLength)
include hname

theorem length_front : h.front.length = 148 := by
  simp [front, hname, nameLength]

theorem checksum_lt : checksum h.front h.back < Nat.pow 8 7 := by
  have hfront := total_le h.front
  have hback := total_le h.back
  rw [length_front hname] at hfront
  rw [h.length_back] at hback
  rw [checksum, show Nat.pow 8 7 = 2097152 from rfl]
  omega

theorem length_encode : h.encode.length = blockLength := by
  rw [encode, List.length_append, List.length_append, length_front hname, length_octal,
    List.length_cons, h.length_back, blockLength]

theorem isSummed_encode : isSummed h.encode = true := by
  have hfront := length_front hname
  have hfield : field h.encode 148 7 = octal 7 (checksum h.front h.back) :=
    field_append h.encode_eq hfront (length_octal ..)
  have htake : h.encode.take 148 = h.front := by
    rw [h.encode_eq, List.take_left' hfront]
  have hdrop : h.encode.drop 156 = h.back := by
    rw [h.encode_eq, ← List.append_assoc, ← List.append_assoc, List.drop_left']
    simp [hfront]
  rw [isSummed, hfield, htake, hdrop, ofOctal?_octal (checksum_lt hname), BEq.rfl]

theorem fields_encode :
    field h.encode 0 100 = h.name ∧ field h.encode 100 7 = octal 7 mode ∧
    field h.encode 124 12 = number h.size ∧ field h.encode 136 12 = number h.modified ∧
    h.encode[156]? = some h.kind.flag := by
  rw [nameLength] at hname
  obtain ⟨rest, hrest⟩ : ∃ rest, h.encode = h.front ++ rest := ⟨_, h.encode_eq⟩
  have hwhole : h.encode = [] ++ (h.name ++ (octal 7 mode ++ ([0] ++ (owners h.kind ++
      (number h.size ++ (number h.modified ++ rest)))))) := by
    rw [hrest, h.front_eq]
    simp only [List.append_assoc, List.nil_append]
  have hsize : h.encode = (h.name ++ (octal 7 mode ++ ([0] ++ owners h.kind))) ++
      (number h.size ++ (number h.modified ++ rest)) := by
    rw [hwhole]
    simp only [List.append_assoc, List.nil_append]
  have hmodified : h.encode = (h.name ++ (octal 7 mode ++ ([0] ++ (owners h.kind ++
      number h.size)))) ++ (number h.modified ++ rest) := by
    rw [hwhole]
    simp only [List.append_assoc, List.nil_append]
  refine ⟨field_append hwhole rfl hname, field_append hwhole hname (length_octal ..),
    field_append hsize (by simp [hname]) (length_number _),
    field_append hmodified (by simp [hname]) (length_number _), ?_⟩
  have hfront := length_front hname
  rw [h.encode_eq, ← List.append_assoc, ← List.append_assoc,
    List.getElem?_append_right (by simp [hfront])]
  simp [hfront, back]

/-- A header is read as it was written, but for what eight bytes do not hold of its numbers. -/
theorem decode?_encode :
    decode? h.encode =
      some ({ h with size := word h.size, modified := word h.modified }, mode) := by
  obtain ⟨hfield, hmode, hsize, hmodified, hflag⟩ := fields_encode hname
  have hkind : EntryKind.ofFlag? h.kind.flag = some h.kind := by
    cases h.kind <;> rfl
  have hdigits : ofOctal? (octal 7 mode) = some mode := ofOctal?_octal (by decide)
  have hsum : guard (isSummed h.encode) = some () := if_pos (isSummed_encode hname)
  rw [decode?, hsum, hfield, hmode, hsize, hmodified, hflag]
  simp [hkind, hdigits, ofNumber?_number]

theorem flag_mem_encode : h.kind.flag ∈ h.encode :=
  List.mem_of_getElem? (fields_encode hname).2.2.2.2

end Header

end SandboxWorker.Archive
