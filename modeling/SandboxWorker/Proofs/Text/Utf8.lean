import SandboxWorker.Text.Utf8
/-! The characters of a text come back from its bytes, each whole, whatever bytes follow. -/
namespace SandboxWorker.Utf8

theorem lead_ascii {b : UInt8} (h : b.toNat < 0x80) :
    lead b = ([some (Char.ofNat b.toNat)], .clear) := by
  rw [lead, if_pos (UInt8.lt_iff_toNat_lt.mpr h)]

theorem lead_two {b : UInt8} (hlow : 0xC2 ≤ b.toNat) (hhigh : b.toNat < 0xE0) :
    lead b = ([], .inside (b.toNat % 0x20) 1 0x80 0xBF) := by
  simp only [lead, UInt8.lt_iff_toNat_lt, UInt8.reduceToNat]
  rw [if_neg (by omega), if_neg (by omega), if_pos hhigh]

theorem lead_three {b : UInt8} (hlow : 0xE0 ≤ b.toNat) (hhigh : b.toNat < 0xF0) :
    lead b = ([], .inside (b.toNat % 0x10) 2 (if b.toNat = 0xE0 then 0xA0 else 0x80)
      (if b.toNat = 0xED then 0x9F else 0xBF)) := by
  simp only [lead, UInt8.lt_iff_toNat_lt, ← UInt8.toNat_inj, UInt8.reduceToNat]
  rw [if_neg (by omega), if_neg (by omega), if_neg (by omega)]
  by_cases hE0 : b.toNat = 0xE0
  · simp [hE0]
  · by_cases hED : b.toNat = 0xED
    · simp [hED]
    · rw [if_neg hE0, if_neg hED, if_pos hhigh, if_neg hE0, if_neg hED]

theorem lead_four {b : UInt8} (hlow : 0xF0 ≤ b.toNat) (hhigh : b.toNat ≤ 0xF4) :
    lead b = ([], .inside (b.toNat % 8) 3 (if b.toNat = 0xF0 then 0x90 else 0x80)
      (if b.toNat = 0xF4 then 0x8F else 0xBF)) := by
  simp only [lead, UInt8.lt_iff_toNat_lt, ← UInt8.toNat_inj, UInt8.reduceToNat]
  rw [if_neg (by omega), if_neg (by omega), if_neg (by omega), if_neg (by omega),
    if_neg (by omega), if_neg (by omega)]
  by_cases hF0 : b.toNat = 0xF0
  · simp [hF0]
  · by_cases hF4 : b.toNat = 0xF4
    · simp [hF4]
    · rw [if_neg hF0, if_pos (by omega), if_neg hF0, if_neg hF4]

def tail (n : Nat) : UInt8 := UInt8.ofNat (n % 64 + 128)

theorem toNat_tail (n : Nat) : (tail n).toNat = n % 64 + 128 := by
  rw [tail, UInt8.toNat_ofNat', Nat.mod_eq_of_lt (by omega)]

theorem parts_lead {b : UInt8} {out : List (Option Char)} {r : Reader} (h : lead b = (out, r))
    (bs : Bytes) : Reader.clear.parts (b :: bs) = out ++ r.parts bs := by
  rw [Reader.parts, Reader.step, h]

theorem parts_tail {value owed n : Nat} {low high : UInt8} (hlow : low.toNat ≤ n % 64 + 128)
    (hhigh : n % 64 + 128 ≤ high.toNat) (howed : owed ≠ 1) (bs : Bytes) :
    (Reader.inside value owed low high).parts (tail n :: bs) =
      (Reader.inside (value * 64 + n % 64) (owed - 1) 0x80 0xBF).parts bs := by
  have hbits : (n % 64 + 128) % 64 = n % 64 := by omega
  rw [Reader.parts, Reader.step]
  simp only [UInt8.le_iff_toNat_le, toNat_tail, hbits]
  rw [if_pos ⟨hlow, hhigh⟩, if_neg howed, List.nil_append]

theorem parts_last {value n : Nat} {low high : UInt8} (hlow : low.toNat ≤ n % 64 + 128)
    (hhigh : n % 64 + 128 ≤ high.toNat) (bs : Bytes) :
    (Reader.inside value 1 low high).parts (tail n :: bs) =
      some (Char.ofNat (value * 64 + n % 64)) :: Reader.clear.parts bs := by
  have hbits : (n % 64 + 128) % 64 = n % 64 := by omega
  rw [Reader.parts, Reader.step]
  simp only [UInt8.le_iff_toNat_le, toNat_tail, hbits]
  rw [if_pos ⟨hlow, hhigh⟩, if_true, List.singleton_append]

/-- A character is read from its bytes: by how many they are, the bits they carry are put together
again, and the bounds of the second byte hold because no surrogate is a character. -/
theorem parts_encodeChar (c : Char) (bs : Bytes) :
    Reader.clear.parts (String.utf8EncodeChar c ++ bs) = some c :: Reader.clear.parts bs := by
  obtain ⟨n, hn⟩ : ∃ n, c.toNat = n := ⟨_, rfl⟩
  have hvalid : n < 0xD800 ∨ 0xDFFF < n ∧ n < 0x110000 := hn ▸ c.valid
  have hc : Char.ofNat n = c := by rw [← hn, Char.ofNat_toNat]
  rw [String.utf8EncodeChar, show c.val.toNat = n from hn]
  have htail (m : Nat) : UInt8.ofNat (m % 64 + 128) = tail m := rfl
  simp only [htail]
  split
  · have hb : (UInt8.ofNat n).toNat = n := by rw [UInt8.toNat_ofNat']; omega
    rw [List.singleton_append, parts_lead (lead_ascii (by omega)), hb, hc, List.singleton_append]
  split
  · have hb : (UInt8.ofNat (n / 64 % 32 + 192)).toNat = n / 64 % 32 + 192 := by
      rw [UInt8.toNat_ofNat']; omega
    rw [List.cons_append, parts_lead (lead_two (by omega) (by omega)), List.nil_append, hb,
      List.singleton_append, parts_last (by simp) (by simp; omega)]
    rw [show (n / 64 % 32 + 192) % 32 * 64 + n % 64 = n by omega, hc]
  split
  · have hb : (UInt8.ofNat (n / 4096 % 16 + 224)).toNat = n / 4096 % 16 + 224 := by
      rw [UInt8.toNat_ofNat']; omega
    rw [List.cons_append, parts_lead (lead_three (by omega) (by omega)), List.nil_append, hb,
      List.cons_append, parts_tail ?_ ?_ (by decide), List.singleton_append,
      parts_last (by simp) (by simp; omega)]
    · rw [show (((n / 4096 % 16 + 224) % 16) * 64 + n / 64 % 64) * 64 + n % 64 = n by omega, hc]
    · split
      · simp
        omega
      · simp
    · split <;> simp <;> omega
  · have hb : (UInt8.ofNat (n / 262144 % 8 + 240)).toNat = n / 262144 % 8 + 240 := by
      rw [UInt8.toNat_ofNat']; omega
    rw [List.cons_append, parts_lead (lead_four (by omega) (by omega)), List.nil_append, hb,
      List.cons_append, parts_tail ?_ ?_ (by decide), List.cons_append,
      parts_tail (by simp) (by simp; omega) (by decide), List.singleton_append,
      parts_last (by simp) (by simp; omega)]
    · rw [show ((((n / 262144 % 8 + 240) % 8) * 64 + n / 4096 % 64) * 64 + n / 64 % 64) * 64 +
        n % 64 = n by omega, hc]
    · split
      · simp
        omega
      · simp
    · split <;> simp <;> omega

theorem parts_encodeChars (cs : List Char) :
    Reader.clear.parts (encodeChars cs) = cs.map some := by
  induction cs with
  | nil => rfl
  | cons c cs ih => rw [encodeChars_cons, parts_encodeChar, ih, List.map_cons]

theorem decodeLossy_encodeChars (cs : List Char) :
    decodeLossy (encodeChars cs) = String.ofList cs := by
  rw [decodeLossy, parts_encodeChars, List.map_map]
  exact congrArg String.ofList (List.map_id cs)

theorem decodeLossy_encode (s : String) : decodeLossy (encode s) = s := by
  rw [encode, decodeLossy_encodeChars, String.ofList_toList]

theorem decode?_encodeChars (cs : List Char) :
    decode? (encodeChars cs) = some (String.ofList cs) := by
  have hall : (cs.map some).mapM id = some cs := by
    induction cs with
    | nil => rfl
    | cons c cs ih => rw [List.map_cons, List.mapM_cons, ih]; rfl
  rw [decode?, parts_encodeChars, hall, Option.map_some]

theorem encodeChar_ascii {c : Char} (h : c.toNat < 0x80) :
    String.utf8EncodeChar c = [UInt8.ofNat c.toNat] := by
  exact if_pos (Nat.le_of_lt_succ h)

theorem encodeChars_ascii {cs : List Char} (h : ∀ c ∈ cs, c.toNat < 0x80) :
    encodeChars cs = cs.map fun c => UInt8.ofNat c.toNat := by
  induction cs with
  | nil => rfl
  | cons c cs ih =>
    rw [encodeChars_cons, encodeChar_ascii (h c List.mem_cons_self),
      ih fun d hd => h d (List.mem_cons_of_mem _ hd)]
    rfl

theorem le_of_mem_encodeChar {c : Char} (h : 0x80 ≤ c.toNat) :
    ∀ b ∈ String.utf8EncodeChar c, 0x80 ≤ b.toNat := by
  rw [String.utf8EncodeChar, show c.val.toNat = c.toNat from rfl]
  rw [if_neg (by omega)]
  split
  · simp only [List.forall_mem_cons, UInt8.toNat_ofNat', List.not_mem_nil, false_implies, and_true,
      implies_true]
    omega
  split <;>
    simp only [List.forall_mem_cons, UInt8.toNat_ofNat', List.not_mem_nil, false_implies, and_true,
      implies_true] <;>
    omega

theorem zero_not_mem_encodeChars {cs : List Char} (h : '\x00' ∉ cs) : 0 ∉ encodeChars cs := by
  intro hzero
  obtain ⟨c, hc, hmem⟩ := List.mem_flatMap.mp hzero
  rcases Nat.lt_or_ge c.toNat 0x80 with hascii | hhigh
  · rw [encodeChar_ascii hascii, List.mem_singleton, ← UInt8.toNat_inj, UInt8.toNat_ofNat',
      Nat.mod_eq_of_lt (by omega)] at hmem
    have hnull : c = '\x00' := Char.toNat_inj.mp hmem.symm
    exact h (hnull ▸ hc)
  · exact absurd (le_of_mem_encodeChar hhigh 0 hmem) (by decide)

theorem length_encode (s : String) : (encode s).length = s.utf8ByteSize := by
  rw [String.utf8ByteSize, ← String.utf8Encode_toList, List.utf8Encode, List.size_toByteArray]
  rfl

end SandboxWorker.Utf8
