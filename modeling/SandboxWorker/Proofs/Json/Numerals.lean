import SandboxWorker.Proofs.Json.Escapes
import SandboxWorker.Proofs.Json.Numbers
/-! Whatever a number is read as, its digits alone tell, whichever blank, comma or bracket follows. -/
namespace SandboxWorker.Json
open Utf8 (encodeChars)

/-- What may stand behind a value: nothing, a blank, a comma or a closing bracket. -/
def Stops (rest : Bytes) : Prop :=
  ∀ b ∈ rest.head?, isBlank b = true ∨ b = comma ∨ b = closeBracket ∨ b = closeBrace

/-- What goes on neither with the digits of a number nor with a point. -/
def Breaks (rest : Bytes) : Prop := ∀ b ∈ rest.head?, isDigit b = false ∧ b ≠ point

variable {rest : Bytes}

theorem stops_nil : Stops [] := fun _ hb => nomatch hb

theorem Stops.head_cases (h : Stops rest) {b : UInt8} (hb : b ∈ rest.head?) :
    b = 0x20 ∨ b = 0x09 ∨ b = 0x0A ∨ b = 0x0D ∨ b = comma ∨ b = closeBracket ∨ b = closeBrace := by
  rcases h b hb with hblank | hmark
  · simp only [isBlank, Bool.or_eq_true, beq_iff_eq] at hblank
    tauto
  · tauto

theorem Stops.breaks (h : Stops rest) : Breaks rest := by
  intro b hb
  rcases h.head_cases hb with rfl | rfl | rfl | rfl | rfl | rfl | rfl <;> decide

theorem isDigit_ofNat {c : Char} (h : Decimal.isDigit c = true) :
    isDigit (UInt8.ofNat c.toNat) = true := by
  have hbounds := Decimal.isDigit_iff.mp h
  simp only [isDigit, Bool.and_eq_true, decide_eq_true_eq, UInt8.le_iff_toNat_le, toNat_digit h]
  exact hbounds

section Digits
variable {cs : List Char}

theorem IsDigits.bytes (h : IsDigits cs) :
    encodeChars cs = cs.map fun c => UInt8.ofNat c.toNat :=
  Utf8.encodeChars_ascii fun c hc => Decimal.ascii_of_isDigit (h.2 c hc)

theorem IsDigits.isDigit (h : IsDigits cs) : ∀ b ∈ encodeChars cs, isDigit b = true := by
  intro b hb
  rw [h.bytes, List.mem_map] at hb
  obtain ⟨c, hc, rfl⟩ := hb
  exact isDigit_ofNat (h.2 c hc)

theorem IsDigits.cons (h : IsDigits cs) : ∃ b bs, encodeChars cs = b :: bs ∧ Json.isDigit b = true := by
  obtain ⟨c, more, rfl⟩ := List.exists_cons_of_ne_nil h.1
  have hbytes := h.bytes
  rw [List.map_cons] at hbytes
  exact ⟨_, _, hbytes, isDigit_ofNat (h.2 c List.mem_cons_self)⟩

theorem IsDigits.read (h : IsDigits cs) (atEnd : Error)
    (hrest : ∀ b ∈ rest.head?, Json.isDigit b = false) :
    someDigits atEnd (encodeChars cs ++ rest) = .ok (encodeChars cs, rest) := by
  rw [someDigits, takeWhile_append_of_head h.isDigit hrest,
    dropWhile_append_of_head h.isDigit hrest]
  obtain ⟨b, bs, hbytes, -⟩ := h.cons
  rw [hbytes]

theorem IsWhole.read (h : IsWhole cs) (atEnd : Error)
    (hrest : ∀ b ∈ rest.head?, Json.isDigit b = false) :
    wholePart atEnd (encodeChars cs ++ rest) = .ok (encodeChars cs, rest) := by
  have hpadded : ¬ ((encodeChars cs).length ≠ 1 ∧ (encodeChars cs).head? = some zero) := by
    rintro ⟨hlength, hhead⟩
    rw [h.1.bytes, List.head?_map, Option.map_eq_some_iff] at hhead
    obtain ⟨c, hc, hzero⟩ := hhead
    have hdigit := h.1.2 c (List.mem_of_mem_head? hc)
    have hcode : c.toNat = '0'.toNat := by
      rw [← toNat_digit hdigit, hzero]
      rfl
    rw [Char.toNat_inj] at hcode
    rw [h.2 (hcode ▸ hc)] at hlength
    exact hlength rfl
  simp only [wholePart, h.1.read atEnd hrest, bind, Except.bind, if_neg hpadded]
  rfl

theorem IsFraction.read (h : IsFraction cs) : ∃ fraction, ∀ atEnd rest, Breaks rest →
    fractionPart atEnd (encodeChars cs ++ rest) = .ok (fraction, rest) := by
  rcases h with rfl | ⟨ds, rfl, hds⟩
  · refine ⟨none, fun atEnd rest hrest => ?_⟩
    cases rest with
    | nil => rfl
    | cons b rest => exact if_neg (hrest b rfl).2
  · refine ⟨some (encodeChars ds), fun atEnd rest hrest => ?_⟩
    have hread := hds.read atEnd fun b hb => (hrest b hb).1
    change fractionPart atEnd (point :: (encodeChars ds ++ rest)) = _
    rw [fractionPart, if_pos rfl, hread]
    rfl

theorem IsFraction.breaks (h : IsFraction cs) (hrest : Breaks rest) :
    ∀ b ∈ (encodeChars cs ++ rest).head?, Json.isDigit b = false := by
  rcases h with rfl | ⟨ds, rfl, -⟩
  · exact fun b hb => (hrest b hb).1
  · rintro b ⟨⟩
    decide

theorem IsExponent.read (h : IsExponent cs) : ∃ exponent, ∀ atEnd rest, Stops rest →
    exponentPart atEnd (encodeChars cs ++ rest) = .ok (exponent, rest) := by
  rcases h with rfl | ⟨e, sign, ds, rfl, he, hsign, hds⟩
  · refine ⟨none, fun atEnd rest hrest => ?_⟩
    cases rest with
    | nil => rfl
    | cons b rest =>
      have hletter : ¬ (b = 0x65 ∨ b = 0x45) := by
        rcases hrest.head_cases rfl with rfl | rfl | rfl | rfl | rfl | rfl | rfl <;> decide
      exact if_neg hletter
  · obtain ⟨b, hb, hbytes⟩ : ∃ b : UInt8, (b = 0x65 ∨ b = 0x45) ∧
        encodeChars (e :: (sign ++ ds)) = b :: encodeChars (sign ++ ds) := by
      rcases he with rfl | rfl
      · exact ⟨0x65, .inl rfl, rfl⟩
      · exact ⟨0x45, .inr rfl, rfl⟩
    refine ⟨some (sign == ['-'], encodeChars ds), fun atEnd rest hrest => ?_⟩
    have hread := hds.read atEnd fun b hb => (hrest.breaks b hb).1
    rw [hbytes, List.cons_append, exponentPart.eq_def]
    simp only [if_pos hb]
    rcases hsign with rfl | rfl | rfl
    · obtain ⟨d, more, hdigits, hd⟩ := hds.cons
      have hminus : d ≠ minus := by rintro rfl; exact absurd hd (by decide)
      have hplus : d ≠ plus := by rintro rfl; exact absurd hd (by decide)
      rw [hdigits, List.cons_append] at hread
      rw [List.nil_append, hdigits, List.cons_append]
      simp only [if_neg hminus, if_neg hplus, hread]
      rfl
    · have hplus : encodeChars (['+'] ++ ds) ++ rest = plus :: (encodeChars ds ++ rest) := rfl
      simp only [hplus, if_neg (by decide : plus ≠ minus), if_true, hread]
      rfl
    · have hminus : encodeChars (['-'] ++ ds) ++ rest = minus :: (encodeChars ds ++ rest) := rfl
      simp only [hminus, if_true, hread]
      rfl

theorem IsExponent.breaks (h : IsExponent cs) (hrest : Stops rest) :
    Breaks (encodeChars cs ++ rest) := by
  rcases h with rfl | ⟨e, sign, ds, rfl, he, -⟩
  · exact hrest.breaks
  · rcases he with rfl | rfl
    · rintro b ⟨⟩
      decide
    · rintro b ⟨⟩
      decide

end Digits

theorem numberText_parts {whole fraction exponent : List Char} (hwhole : IsWhole whole)
    (hfraction : IsFraction fraction) (hexponent : IsExponent exponent) :
    ∃ t, ∀ atEnd rest, Stops rest →
      numberText atEnd (encodeChars (whole ++ (fraction ++ exponent)) ++ rest) = .ok (t, rest) := by
  obtain ⟨f, hf⟩ := hfraction.read
  obtain ⟨x, hx⟩ := hexponent.read
  refine ⟨⟨encodeChars whole, f, x⟩, fun atEnd rest hrest => ?_⟩
  have hbreaks := hexponent.breaks hrest
  have hw := hwhole.read atEnd (hfraction.breaks hbreaks)
  simp only [Utf8.encodeChars_append, List.append_assoc, numberText, hw, hf atEnd _ hbreaks,
    hx atEnd rest hrest, bind, Except.bind]
  rfl

theorem startsNumber_number {cs : List Char} (h : IsNumber cs) :
    ∃ b bs, encodeChars cs = b :: bs ∧ startsNumber b = true := by
  obtain ⟨sign, whole, fraction, exponent, rfl, rfl | rfl, hwhole, -, -⟩ := h
  · obtain ⟨b, bs, hbytes, hb⟩ := hwhole.1.cons
    refine ⟨b, bs ++ encodeChars (fraction ++ exponent), ?_, by rw [startsNumber, hb, Bool.or_true]⟩
    rw [List.nil_append, Utf8.encodeChars_append, hbytes, List.cons_append]
  · exact ⟨minus, _, rfl, by decide⟩

def NumberText.read (t : NumberText) (negative : Bool) (cs : List Char) : Outcome Json :=
  if t.number negative = .real ∧ t.overflows then .error .malformed
  else match t.number negative with
    | .int n => .ok (.int n)
    | .real => .ok (.real (String.ofList cs))

/-- A number whose first byte is no minus, or which has had one taken off. -/
theorem numberValue_parts {bs : Bytes} {cs : List Char} {t : NumberText} (negative : Bool)
    (hsign : numberValue (encodeChars cs ++ rest) = do
      let (n, after) ← number negative bs
      match n with
      | .int n => return (.int n, after)
      | .real => return (.real (Utf8.decodeLossy ((encodeChars cs ++ rest).take
          ((encodeChars cs ++ rest).length - after.length))), after))
    (ht : numberText .ended bs = .ok (t, rest)) :
    numberValue (encodeChars cs ++ rest) = (t.read negative cs).map (·, rest) := by
  rw [hsign, number, ht, NumberText.read]
  by_cases hover : t.number negative = .real ∧ t.overflows = true
  · simp only [bind, Except.bind, if_pos hover]
    rfl
  · simp only [bind, Except.bind, if_neg hover, pure, Except.pure]
    cases t.number negative with
    | int n => rfl
    | real =>
      simp only [List.length_append, Nat.add_sub_cancel, List.take_left,
        Utf8.decodeLossy_encodeChars]
      rfl

theorem numberValue_stops {cs : List Char} (h : IsNumber cs) :
    ∃ o : Outcome Json, ∀ rest, Stops rest →
      numberValue (encodeChars cs ++ rest) = o.map (·, rest) := by
  obtain ⟨sign, whole, fraction, exponent, rfl, hsign, hwhole, hfraction, hexponent⟩ := h
  obtain ⟨t, ht⟩ := numberText_parts hwhole hfraction hexponent
  rcases hsign with rfl | rfl
  · refine ⟨t.read false _, fun rest hrest => numberValue_parts false ?_ (ht .ended rest hrest)⟩
    obtain ⟨b, bs, hbytes, hb⟩ := hwhole.1.cons
    have hminus : b ≠ minus := by rintro rfl; exact absurd hb (by decide)
    simp only [List.nil_append, Utf8.encodeChars_append, hbytes, List.cons_append]
    exact if_neg hminus
  · exact ⟨t.read true _, fun rest hrest => numberValue_parts true rfl (ht .ended rest hrest)⟩

def numeral? (cs : List Char) : Option Json := (numberValue (encodeChars cs)).toOption.map (·.1)

theorem numberValue_number {cs : List Char} (h : IsNumber cs) (hrest : Stops rest) :
    (numberValue (encodeChars cs ++ rest)).toOption = (numeral? cs).map (·, rest) := by
  obtain ⟨o, ho⟩ := numberValue_stops h
  have halone := ho [] stops_nil
  rw [List.append_nil] at halone
  rw [ho rest hrest, numeral?, halone]
  cases o <;> rfl

theorem skipNumber_number {cs : List Char} (h : IsNumber cs) (hrest : Stops rest) :
    skipNumber (encodeChars cs ++ rest) = .ok rest := by
  obtain ⟨sign, whole, fraction, exponent, rfl, hsign, hwhole, hfraction, hexponent⟩ := h
  obtain ⟨t, ht⟩ := numberText_parts hwhole hfraction hexponent
  have hread := ht .malformed rest hrest
  rcases hsign with rfl | rfl
  · obtain ⟨b, bs, hbytes, hb⟩ := hwhole.1.cons
    have hminus : b ≠ minus := by rintro rfl; exact absurd hb (by decide)
    rw [Utf8.encodeChars_append, hbytes, List.cons_append, List.cons_append] at hread
    simp only [List.nil_append, Utf8.encodeChars_append, hbytes, List.cons_append, skipNumber,
      if_neg hminus]
    simp only [Utf8.encodeChars_append, List.append_assoc] at hread ⊢
    rw [hread]
    rfl
  · have hminus : encodeChars (['-'] ++ (whole ++ (fraction ++ exponent))) ++ rest =
        minus :: (encodeChars (whole ++ (fraction ++ exponent)) ++ rest) := rfl
    rw [hminus, skipNumber]
    simp only [if_true, hread]
    rfl

theorem numberValue_cases {bs : Bytes} {j : Json} (h : numberValue bs = .ok (j, rest)) :
    (∃ n, j = .int n) ∨ ∃ spelling, j = .real spelling := by
  have hread {x : Outcome (Number × Bytes)} (hx : (do
      let (n, after) ← x
      match n with
      | .int n => return (.int n, after)
      | .real => return (.real (Utf8.decodeLossy (bs.take (bs.length - after.length))), after)) =
      (.ok (j, rest) : Outcome (Json × Bytes))) :
      (∃ n, j = .int n) ∨ ∃ spelling, j = .real spelling := by
    rw [← toOption_eq_some, toOption_bind, Option.bind_eq_some_iff] at hx
    obtain ⟨⟨n | _, after⟩, -, hx⟩ := hx
    · cases hx
      exact .inl ⟨_, rfl⟩
    · cases hx
      exact .inr ⟨_, rfl⟩
  unfold numberValue at h
  match bs with
  | [] => exact hread h
  | b :: more =>
    by_cases hminus : b = minus
    · simp only [if_pos hminus] at h
      exact hread h
    · simp only [if_neg hminus] at h
      exact hread h

theorem numeral?_cases {cs : List Char} {j : Json} (h : numeral? cs = some j) :
    (∃ n, j = .int n) ∨ ∃ spelling, j = .real spelling := by
  rw [numeral?, Option.map_eq_some_iff] at h
  obtain ⟨p, hp, rfl⟩ := h
  exact numberValue_cases (toOption_eq_some.mp hp)

end SandboxWorker.Json
