import SandboxWorker.Proofs.Json.Grammar
import SandboxWorker.Proofs.Json.Strings
import SandboxWorker.Proofs.Success
/-! However a string is spelled, its reader gives the characters of its UTF-16, or fails where a
surrogate is alone; passing over the string never fails. -/
namespace SandboxWorker.Json
open Utf8 (encodeChars)

/-! ### What units stand for -/

theorem isLowSurrogate_iff {n : Nat} : isLowSurrogate n = true ↔ 0xDC00 ≤ n ∧ n ≤ 0xDFFF := by
  rw [isLowSurrogate, Bool.and_eq_true, decide_eq_true_eq, decide_eq_true_eq]

theorem isHighSurrogate_iff {n : Nat} : isHighSurrogate n = true ↔ 0xD800 ≤ n ∧ n ≤ 0xDBFF := by
  rw [isHighSurrogate, Bool.and_eq_true, decide_eq_true_eq, decide_eq_true_eq]

theorem characters?_scalar {n : Nat} (hlow : ¬ isLowSurrogate n = true)
    (hhigh : ¬ isHighSurrogate n = true) (us : Units) :
    characters? (n :: us) = (characters? us).map (Char.ofNat n :: ·) := by
  rw [characters?.eq_def]
  simp only [if_neg hlow, if_neg hhigh]

theorem characters?_low {n : Nat} (hlow : isLowSurrogate n = true) (us : Units) :
    characters? (n :: us) = none := by
  rw [characters?.eq_def]
  exact if_pos hlow

theorem not_low_of_high {n : Nat} (hhigh : isHighSurrogate n = true) :
    ¬ isLowSurrogate n = true := by
  rw [isHighSurrogate_iff] at hhigh
  rw [isLowSurrogate_iff]
  omega

theorem characters?_pair {n m : Nat} (hhigh : isHighSurrogate n = true)
    (hlow : isLowSurrogate m = true) (us : Units) : characters? (n :: m :: us) =
      (characters? us).map (Char.ofNat (0x10000 + (n - 0xD800) * 0x400 + (m - 0xDC00)) :: ·) := by
  rw [characters?, if_neg (not_low_of_high hhigh), if_pos hhigh]
  exact if_pos hlow

theorem characters?_alone {n : Nat} (hhigh : isHighSurrogate n = true) {us : Units}
    (h : ∀ m ∈ us.head?, ¬ isLowSurrogate m = true) : characters? (n :: us) = none := by
  rw [characters?.eq_def]
  simp only [if_neg (not_low_of_high hhigh), if_pos hhigh]
  cases us with
  | nil => rfl
  | cons m us => exact if_neg (h m rfl)

theorem unitsOf_cases (c : Char) :
    (unitsOf c = [c.toNat] ∧ ¬ isLowSurrogate c.toNat = true ∧ ¬ isHighSurrogate c.toNat = true) ∨
    ∃ n m, unitsOf c = [n, m] ∧ isHighSurrogate n = true ∧ isLowSurrogate m = true ∧
      0x10000 + (n - 0xD800) * 0x400 + (m - 0xDC00) = c.toNat := by
  have hvalid : c.toNat < 0xD800 ∨ 0xDFFF < c.toNat ∧ c.toNat < 0x110000 := c.valid
  simp only [isLowSurrogate_iff, isHighSurrogate_iff]
  unfold unitsOf
  split
  · exact .inl ⟨rfl, by omega, by omega⟩
  · exact .inr ⟨_, _, rfl, by omega, by omega, by omega⟩

theorem characters?_unitsOf (c : Char) (us : Units) :
    characters? (unitsOf c ++ us) = (characters? us).map (c :: ·) := by
  rcases unitsOf_cases c with ⟨h, hlow, hhigh⟩ | ⟨n, m, h, hhigh, hlow, hvalue⟩
  · rw [h, List.singleton_append, characters?_scalar hlow hhigh, Char.ofNat_toNat]
  · rw [h, List.cons_append, List.singleton_append, characters?_pair hhigh hlow, hvalue,
      Char.ofNat_toNat]

theorem not_low_head_unitsOf (c : Char) (us : Units) :
    ∀ m ∈ (unitsOf c ++ us).head?, ¬ isLowSurrogate m = true := by
  rcases unitsOf_cases c with ⟨hc, hlow, -⟩ | ⟨n, m, hc, hhigh, -⟩
  · rw [hc]
    rintro m ⟨⟩
    exact hlow
  · rw [hc]
    rintro m ⟨⟩
    exact not_low_of_high hhigh

theorem not_surrogate_of_lt {n : Nat} (h : n < 0xD800) :
    ¬ isLowSurrogate n = true ∧ ¬ isHighSurrogate n = true := by
  rw [isLowSurrogate_iff, isHighSurrogate_iff]
  omega

/-! ### Reading -/

theorem stringBody_backslash (bs : Bytes) : (stringBody (backslash :: bs)).toOption =
    (escape bs).toOption.bind fun p => (stringBody p.2).toOption.map fun q => (p.1 ++ q.1, q.2) := by
  cases h : escape bs with
  | error e =>
    rw [stringBody, if_neg (by decide), if_pos rfl]
    split
    · rfl
    · rename_i he
      rw [h] at he
      cases he
  | ok p =>
    have hescape : escape bs = .ok (p.1, p.2) := h
    rw [stringBody_escape hescape, toOption_map]
    rfl

theorem escape_unicode (bs : Bytes) : escape (0x75 :: bs) = unicodeEscape bs := by
  have hshort : shortEscape? 0x75 = none := by decide
  rw [escape, hshort]
  exact if_pos rfl

section UnicodeEscape
variable {n m : Nat} {bs rest rest' : Bytes}

theorem unicodeEscape_low (h : hex4 bs = .ok (n, rest)) (hlow : isLowSurrogate n = true) :
    (unicodeEscape bs).toOption = none := by
  rw [unicodeEscape, h]
  simp only [toOption_bind, toOption_ok, Option.bind_some, if_pos hlow]
  rfl

theorem unicodeEscape_scalar (h : hex4 bs = .ok (n, rest)) (hlow : ¬ isLowSurrogate n = true)
    (hhigh : ¬ isHighSurrogate n = true) :
    (unicodeEscape bs).toOption = some (String.utf8EncodeChar (Char.ofNat n), rest) := by
  rw [unicodeEscape, h]
  simp only [bind, Except.bind, if_neg hlow, Bool.eq_false_iff.mpr hhigh]
  rfl

theorem unicodeEscape_pair (h : hex4 bs = .ok (n, backslash :: 0x75 :: rest))
    (hhigh : isHighSurrogate n = true) (hnext : hex4 rest = .ok (m, rest'))
    (hlow : isLowSurrogate m = true) :
    (unicodeEscape bs).toOption = some (surrogatePair n m, rest') := by
  rw [unicodeEscape, h]
  simp only [bind, Except.bind, if_neg (not_low_of_high hhigh), hhigh, hnext, hlow]
  rfl

/-- A high surrogate fails unless an escape follows that is a low one. -/
theorem unicodeEscape_alone (h : hex4 bs = .ok (n, rest)) (hhigh : isHighSurrogate n = true)
    (hrest : ∀ more, rest = backslash :: 0x75 :: more →
      ∃ m after, hex4 more = .ok (m, after) ∧ ¬ isLowSurrogate m = true) :
    (unicodeEscape bs).toOption = none := by
  rw [unicodeEscape, h]
  simp only [toOption_bind, toOption_ok, Option.bind_some, if_neg (not_low_of_high hhigh), hhigh]
  rcases rest with _ | ⟨b, _ | ⟨u, more⟩⟩
  · rfl
  · by_cases hb : b = backslash <;> simp [hb]
  · by_cases hescape : b ≠ backslash ∨ u ≠ 0x75
    · simp [hescape]
    · obtain ⟨rfl, rfl⟩ : b = backslash ∧ u = 0x75 := by simpa using hescape
      obtain ⟨m, after, hnext, hlow⟩ := hrest more rfl
      simp [hnext, hlow]

end UnicodeEscape

section HexDigits
variable {a b c d : Char} {w x y z : Nat}

theorem ascii_of_hexDigit (h : Hex.digit? a = some w) : a.toNat < 0x80 := by
  simp only [Hex.digit?] at h
  split at h
  · omega
  split at h
  · omega
  split at h
  · omega
  · cases h

theorem hexDigit?_char (h : Hex.digit? a = some w) :
    hexDigit? (UInt8.ofNat a.toNat) = some w := by
  have hascii := ascii_of_hexDigit h
  rw [hexDigit?, UInt8.toNat_ofNat', Nat.mod_eq_of_lt (by omega), Char.ofNat_toNat, h]

theorem hex4_chars (ha : Hex.digit? a = some w) (hb : Hex.digit? b = some x)
    (hc : Hex.digit? c = some y) (hd : Hex.digit? d = some z) (cs : List Char) (rest : Bytes) :
    hex4 (encodeChars (a :: b :: c :: d :: cs) ++ rest) =
      .ok (((w * 16 + x) * 16 + y) * 16 + z, encodeChars cs ++ rest) := by
  simp only [Utf8.encodeChars_cons, Utf8.encodeChar_ascii (ascii_of_hexDigit ha),
    Utf8.encodeChar_ascii (ascii_of_hexDigit hb), Utf8.encodeChar_ascii (ascii_of_hexDigit hc),
    Utf8.encodeChar_ascii (ascii_of_hexDigit hd), List.cons_append, List.nil_append, hex4,
    hexDigit?_char ha, hexDigit?_char hb, hexDigit?_char hc, hexDigit?_char hd]

end HexDigits

theorem shortEscapes_spec : ∀ p ∈ shortEscapes, p.1.toNat < 0x80 ∧ p.2 < 0x80 ∧
    UInt8.ofNat p.1.toNat ≠ 0x75 ∧
      shortEscape? (UInt8.ofNat p.1.toNat) = some (UInt8.ofNat p.2) := by
  decide

theorem encodeChars_backslash (cs : List Char) :
    encodeChars ('\\' :: cs) = backslash :: encodeChars cs := rfl

theorem encodeChar_ofNat : ∀ n, n < 0x80 →
    String.utf8EncodeChar (Char.ofNat n) = [UInt8.ofNat n] := by
  decide

theorem stringBody_refused {bs : Bytes} (h : (unicodeEscape bs).toOption = none) :
    (stringBody (backslash :: 0x75 :: bs)).toOption = none := by
  rw [stringBody_backslash, escape_unicode, h]
  rfl

theorem stringBody_alone {n : Nat} {bs rest : Bytes} {us : Units} (hhex : hex4 bs = .ok (n, rest))
    (hhigh : isHighSurrogate n = true) (hus : ∀ m ∈ us.head?, ¬ isLowSurrogate m = true)
    (hrest : ∀ more, rest = backslash :: 0x75 :: more →
      ∃ m after, hex4 more = .ok (m, after) ∧ ¬ isLowSurrogate m = true)
    (f : List Char → Bytes × Bytes) :
    (stringBody (backslash :: 0x75 :: bs)).toOption = (characters? (n :: us)).map f := by
  rw [stringBody_refused (unicodeEscape_alone hhex hhigh hrest), characters?_alone hhigh hus]
  rfl

/-- A string is read as its units say. The second part carries a high surrogate, whose other half
must be the very next piece. -/
theorem stringBody_spells {us : Units} {cs : List Char} (h : Spells us cs) (rest : Bytes) :
    (stringBody (encodeChars cs ++ quote :: rest)).toOption =
      (characters? us).map (fun s => (encodeChars s, rest)) ∧
    ∀ bs n, hex4 bs = .ok (n, encodeChars cs ++ quote :: rest) → isHighSurrogate n = true →
      (stringBody (backslash :: 0x75 :: bs)).toOption =
        (characters? (n :: us)).map (fun s => (encodeChars s, rest)) := by
  induction h with
  | nil =>
    refine ⟨by rw [Utf8.encodeChars_nil, List.nil_append, stringBody_quote]; rfl, ?_⟩
    intro bs n hhex hhigh
    have hquote : quote ≠ backslash := by decide
    exact stringBody_alone hhex hhigh (by simp)
      (fun more hmore => absurd (List.cons.inj hmore).1 hquote) _
  | @plain us cs c hquote hbackslash hcontrol more ih =>
    have hplain := isPlain_of_mem_encodeChar hquote hbackslash (Nat.not_lt.mpr hcontrol)
    refine ⟨?_, fun bs n hhex hhigh => ?_⟩
    · rw [Utf8.encodeChars_cons, List.append_assoc, stringBody_plain hplain, toOption_map, ih.1,
        characters?_unitsOf, Option.map_map, Option.map_map]
      rfl
    · have hfirst : ∀ more, encodeChars (c :: cs) ++ quote :: rest ≠ backslash :: more := by
        intro more hmore
        obtain ⟨b, bs, hbytes⟩ := List.exists_cons_of_ne_nil
          (String.utf8EncodeChar_ne_nil : String.utf8EncodeChar c ≠ [])
        rw [Utf8.encodeChars_cons, hbytes] at hmore
        exact (hplain b (hbytes ▸ List.mem_cons_self)).2.1 (List.cons.inj hmore).1
      exact stringBody_alone hhex hhigh (not_low_head_unitsOf c us)
        (fun more hmore => absurd hmore (hfirst _)) _
  | @short us cs e m h more ih =>
    obtain ⟨hascii, hbelow, hletter, hescape⟩ := shortEscapes_spec _ h
    obtain ⟨hlow, hhigh⟩ := not_surrogate_of_lt (Nat.lt_trans hbelow (by decide : 0x80 < 0xD800))
    have hbytes : encodeChars ('\\' :: e :: cs) =
        backslash :: UInt8.ofNat e.toNat :: encodeChars cs := by
      rw [encodeChars_backslash, Utf8.encodeChars_cons, Utf8.encodeChar_ascii hascii]
      rfl
    rw [hbytes]
    refine ⟨?_, fun bs n hhex hn => ?_⟩
    · rw [List.cons_append, List.cons_append, stringBody_short hescape, toOption_map, ih.1,
        characters?_scalar hlow hhigh, Option.map_map, Option.map_map]
      simp only [Function.comp_def, Utf8.encodeChars_cons, encodeChar_ofNat m hbelow]
    · exact stringBody_alone hhex hn (by rintro _ ⟨⟩; exact hlow)
        (fun more hmore => absurd (List.cons.inj (List.cons.inj hmore).2).1 hletter) _
  | @code us cs a b c d w x y z ha hb hc hd more ih =>
    have hbytes : encodeChars ('\\' :: 'u' :: a :: b :: c :: d :: cs) ++ quote :: rest =
        backslash :: 0x75 :: (encodeChars (a :: b :: c :: d :: cs) ++ quote :: rest) := rfl
    have hhex := hex4_chars ha hb hc hd cs (quote :: rest)
    rw [hbytes]
    generalize ((w * 16 + x) * 16 + y) * 16 + z = m at hhex ⊢
    generalize encodeChars (a :: b :: c :: d :: cs) ++ quote :: rest = next at hhex ⊢
    refine ⟨?_, fun bs n hfirst hn => ?_⟩
    · by_cases hlow : isLowSurrogate m = true
      · rw [stringBody_refused (unicodeEscape_low hhex hlow), characters?_low hlow]
        rfl
      by_cases hhigh : isHighSurrogate m = true
      · exact ih.2 next m hhex hhigh
      · rw [stringBody_backslash, escape_unicode, unicodeEscape_scalar hhex hlow hhigh,
          characters?_scalar hlow hhigh]
        simp only [Option.bind_some, ih.1, Option.map_map]
        rfl
    · by_cases hlow : isLowSurrogate m = true
      · rw [stringBody_backslash, escape_unicode, unicodeEscape_pair hfirst hn hhex hlow,
          characters?_pair hn hlow]
        simp only [Option.bind_some, ih.1, Option.map_map]
        rfl
      · refine stringBody_alone hfirst hn (by rintro _ ⟨⟩; exact hlow) (fun more hmore => ?_) _
        obtain rfl : next = more := (List.cons.inj (List.cons.inj hmore).2).2
        exact ⟨m, _, hhex, hlow⟩

theorem string_spells {us : Units} {cs : List Char} (h : Spells us cs) (rest : Bytes) :
    (string (encodeChars cs ++ quote :: rest)).toOption = (string? us).map (·, rest) := by
  rw [string, toOption_bind, (stringBody_spells h rest).1, string?]
  cases characters? us with
  | none => rfl
  | some s =>
    simp only [Option.map_some, Option.bind_some, Utf8.decode?_encodeChars]
    rfl

theorem skipString_plain {ps : Bytes} (h : ∀ b ∈ ps, IsPlain b) (bs : Bytes) :
    skipString (ps ++ bs) = skipString bs := by
  induction ps with
  | nil => rfl
  | cons b ps ih =>
    obtain ⟨hquote, hbackslash, hcontrol⟩ := h b List.mem_cons_self
    rw [List.cons_append, skipString.eq_def]
    simp only [if_neg hquote, if_neg hbackslash, if_neg hcontrol,
      ih fun c hc => h c (List.mem_cons_of_mem _ hc)]

theorem skipString_spells {us : Units} {cs : List Char} (h : Spells us cs) (rest : Bytes) :
    skipString (encodeChars cs ++ quote :: rest) = .ok rest := by
  induction h with
  | nil =>
    rw [Utf8.encodeChars_nil, List.nil_append, skipString.eq_def]
    exact if_pos rfl
  | plain hquote hbackslash hcontrol more ih =>
    have hplain := isPlain_of_mem_encodeChar hquote hbackslash (Nat.not_lt.mpr hcontrol)
    rw [Utf8.encodeChars_cons, List.append_assoc, skipString_plain hplain, ih]
  | short h more ih =>
    obtain ⟨hascii, -, -, hescape⟩ := shortEscapes_spec _ h
    rw [encodeChars_backslash, Utf8.encodeChars_cons, Utf8.encodeChar_ascii hascii,
      List.cons_append, List.singleton_append, List.cons_append, skipString.eq_def]
    simp only [if_neg (by decide : backslash ≠ quote), hescape, Option.isSome_some, if_true, ih]
  | @code us cs a b c d w x y z ha hb hc hd more ih =>
    have hhex := hex4_chars ha hb hc hd cs (quote :: rest)
    have hshort : (shortEscape? 0x75).isSome = false := by decide
    have hbytes : encodeChars ('\\' :: 'u' :: a :: b :: c :: d :: cs) ++ quote :: rest =
        backslash :: 0x75 :: (encodeChars (a :: b :: c :: d :: cs) ++ quote :: rest) := rfl
    rw [hbytes, skipString.eq_def]
    simp only [if_neg (by decide : backslash ≠ quote), hshort, Bool.false_eq_true, if_false,
      if_true]
    split
    · rename_i e he
      rw [hhex] at he
      cases he
    · rename_i rest' he
      rw [hhex] at he
      cases he
      exact ih

end SandboxWorker.Json
