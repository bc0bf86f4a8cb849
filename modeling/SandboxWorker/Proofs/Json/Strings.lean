import SandboxWorker.Json.Basic
import SandboxWorker.Json.Scan
import SandboxWorker.Proofs.Text.Hex
import SandboxWorker.Proofs.Text.Utf8
/-! A string is read back from its escaped text, character by character. -/
namespace SandboxWorker.Json

def IsPlain (b : UInt8) : Prop := b ≠ quote ∧ b ≠ backslash ∧ ¬ b < 0x20

theorem stringBody_quote (bs : Bytes) : stringBody (quote :: bs) = .ok ([], bs) := by
  rw [stringBody, if_pos rfl]

theorem stringBody_plain {ps : Bytes} (h : ∀ b ∈ ps, IsPlain b) (bs : Bytes) :
    stringBody (ps ++ bs) = (stringBody bs).map fun p => (ps ++ p.1, p.2) := by
  induction ps with
  | nil => cases hbody : stringBody bs <;> simp [hbody, Except.map]
  | cons b ps ih =>
    obtain ⟨hquote, hbackslash, hcontrol⟩ := h b List.mem_cons_self
    rw [List.cons_append, stringBody, if_neg hquote, if_neg hbackslash, if_neg hcontrol,
      ih fun c hc => h c (List.mem_cons_of_mem _ hc)]
    cases stringBody bs <;> rfl

theorem stringBody_escape {bs rest out : Bytes} (h : escape bs = .ok (out, rest)) :
    stringBody (backslash :: bs) = (stringBody rest).map fun p => (out ++ p.1, p.2) := by
  rw [stringBody, if_neg (by decide), if_pos rfl]
  split
  · rename_i e he
    rw [h] at he
    cases he
  · rename_i c rest' he
    rw [h] at he
    cases he
    cases stringBody rest <;> rfl

theorem escape_short {b c : UInt8} (h : shortEscape? b = some c) (bs : Bytes) :
    escape (b :: bs) = .ok ([c], bs) := by
  rw [escape, h]

theorem hexDigit?_lower : ∀ d, d < 16 → hexDigit? (UInt8.ofNat (Hex.lower d).toNat) = some d := by
  decide

theorem ascii_lower : ∀ d, d < 16 → (Hex.lower d).toNat < 0x80 := by decide

theorem hex4_fixed {n : Nat} (h : n < 0x10000) (bs : Bytes) :
    hex4 (Utf8.encodeChars (Hex.fixed 4 n) ++ bs) = .ok (n, bs) := by
  have hdigit (m : Nat) := hexDigit?_lower (m % 16) (Nat.mod_lt _ (by decide))
  have hascii : ∀ c ∈ Hex.fixed 4 n, c.toNat < 0x80 :=
    fun _ => Hex.of_mem_fixed (p := fun c => c.toNat < 0x80) ascii_lower
  rw [Utf8.encodeChars_ascii hascii]
  simp only [Hex.fixed, List.nil_append, List.cons_append, List.map_cons, List.map_nil, hex4,
    hdigit]
  congr 2
  omega

theorem stringBody_short {b e : UInt8} (h : shortEscape? e = some b) (bs : Bytes) :
    stringBody (backslash :: e :: bs) = (stringBody bs).map fun p => ([b] ++ p.1, p.2) :=
  stringBody_escape (escape_short h bs)

theorem stringBody_control {c : Char} (h : c.toNat < 0x20) (bs : Bytes) :
    stringBody (Utf8.encodeChars ('\\' :: 'u' :: Hex.fixed 4 c.toNat) ++ bs) =
      (stringBody bs).map fun p => (String.utf8EncodeChar c ++ p.1, p.2) := by
  have hescape : escape (0x75 :: (Utf8.encodeChars (Hex.fixed 4 c.toNat) ++ bs)) =
      .ok (String.utf8EncodeChar c, bs) := by
    have hlow : isLowSurrogate c.toNat = false := by simp [isLowSurrogate]; omega
    have hhigh : isHighSurrogate c.toNat = false := by simp [isHighSurrogate]; omega
    have hshort : shortEscape? 0x75 = none := by decide
    rw [escape, hshort]
    simp only [if_true, unicodeEscape, hex4_fixed (show c.toNat < 0x10000 by omega), bind,
      Except.bind, hlow, hhigh, Char.ofNat_toNat]
    rfl
  exact stringBody_escape hescape

theorem isPlain_of_mem_encodeChar {c : Char} (hquote : c ≠ '"') (hbackslash : c ≠ '\\')
    (hcontrol : ¬ c.toNat < 0x20) : ∀ b ∈ String.utf8EncodeChar c, IsPlain b := by
  have hplain {b : UInt8} (h : 0x20 ≤ b.toNat ∧ b.toNat ≠ 0x22 ∧ b.toNat ≠ 0x5C) : IsPlain b := by
    refine ⟨?_, ?_, ?_⟩
    · rintro rfl
      exact h.2.1 rfl
    · rintro rfl
      exact h.2.2 rfl
    · rw [UInt8.lt_iff_toNat_lt]
      exact Nat.not_lt.mpr h.1
  by_cases hascii : c.toNat < 0x80
  · rw [Utf8.encodeChar_ascii hascii, List.forall_mem_singleton]
    apply hplain
    have hc : (UInt8.ofNat c.toNat).toNat = c.toNat := by rw [UInt8.toNat_ofNat']; omega
    have hne {d : Char} (hd : c ≠ d) : c.toNat ≠ d.toNat := fun h => hd (Char.toNat_inj.mp h)
    rw [hc]
    exact ⟨Nat.not_lt.mp hcontrol, hne hquote, hne hbackslash⟩
  · intro b hb
    have hbeyond := Utf8.le_of_mem_encodeChar (Nat.not_lt.mp hascii) b hb
    exact hplain (by omega)

theorem stringBody_escapeChar (c : Char) (bs : Bytes) :
    stringBody (Utf8.encodeChars (escapeChar c) ++ bs) =
      (stringBody bs).map fun p => (String.utf8EncodeChar c ++ p.1, p.2) := by
  have hchar {n : Nat} (h : c.toNat = n) : c = Char.ofNat n := by rw [← h, Char.ofNat_toNat]
  unfold escapeChar
  split
  · subst c
    exact stringBody_short (e := 0x22) (by decide) bs
  split
  · subst c
    exact stringBody_short (e := 0x5C) (by decide) bs
  split
  · cases hchar (by assumption)
    exact stringBody_short (e := 0x62) (by decide) bs
  split
  · cases hchar (by assumption)
    exact stringBody_short (e := 0x66) (by decide) bs
  split
  · cases hchar (by assumption)
    exact stringBody_short (e := 0x6E) (by decide) bs
  split
  · cases hchar (by assumption)
    exact stringBody_short (e := 0x72) (by decide) bs
  split
  · cases hchar (by assumption)
    exact stringBody_short (e := 0x74) (by decide) bs
  split
  · exact stringBody_control (by assumption) bs
  · rw [Utf8.encodeChars_cons, Utf8.encodeChars_nil, List.append_nil]
    exact stringBody_plain (isPlain_of_mem_encodeChar (by assumption) (by assumption)
      (by assumption)) bs

theorem stringBody_text (cs : List Char) (rest : Bytes) :
    stringBody (Utf8.encodeChars (cs.flatMap escapeChar) ++ quote :: rest) =
      .ok (Utf8.encodeChars cs, rest) := by
  induction cs with
  | nil => exact stringBody_quote rest
  | cons c cs ih =>
    rw [List.flatMap_cons, Utf8.encodeChars_append, List.append_assoc, stringBody_escapeChar, ih]
    rfl

def stringRest (s : String) : Bytes := Utf8.encodeChars (s.toList.flatMap escapeChar) ++ [quote]

theorem encodeChars_stringText (s : String) :
    Utf8.encodeChars (stringText s) = quote :: stringRest s := by
  rw [stringText, Utf8.encodeChars_append, Utf8.encodeChars_cons]
  rfl

theorem string_stringRest (s : String) (rest : Bytes) :
    string (stringRest s ++ rest) = .ok (s, rest) := by
  rw [string, stringRest, List.append_assoc, List.singleton_append, stringBody_text]
  simp only [bind, Except.bind, Utf8.decode?_encodeChars, String.ofList_toList]
  rfl

end SandboxWorker.Json
