import SandboxWorker.Json.Value
import SandboxWorker.Proofs.Text.Decimal
import SandboxWorker.Proofs.Text.Utf8
/-! An integer of 64 bits is read back from its digits. -/
namespace SandboxWorker

theorem Decimal.head_digits {n : Nat} (h : 0 < n) : (digits n).head? ≠ some '0' := by
  rw [digits]
  split
  · intro hhead
    have hvalue := congrArg Char.toNat (Option.some.inj hhead)
    rw [toNat_digitChar (by assumption), show '0'.toNat = 48 from rfl] at hvalue
    omega
  · have hfront := head_digits (show 0 < n / 10 by omega)
    obtain ⟨d, ds, hds⟩ := List.exists_cons_of_ne_nil (digits_ne_nil (n / 10))
    rw [hds] at hfront ⊢
    exact hfront
termination_by n
decreasing_by omega

namespace Json

def Ends (rest : Bytes) : Prop := ∀ b ∈ rest.head?, b = comma ∨ b = closeBracket ∨ b = closeBrace

variable {rest : Bytes}

theorem Ends.not_digit (h : Ends rest) : ∀ b ∈ rest.head?, isDigit b = false := by
  intro b hb
  rcases h b hb with rfl | rfl | rfl <;> decide

def digitBytes (n : Nat) : Bytes := Utf8.encodeChars (Decimal.digits n)

theorem toNat_digit {c : Char} (h : Decimal.isDigit c = true) :
    (UInt8.ofNat c.toNat).toNat = c.toNat := by
  have := Decimal.isDigit_iff.mp h
  rw [UInt8.toNat_ofNat']
  omega

theorem digitBytes_eq (n : Nat) :
    digitBytes n = (Decimal.digits n).map fun c => UInt8.ofNat c.toNat :=
  Utf8.encodeChars_ascii fun _ hc => Decimal.ascii_of_isDigit (Decimal.isDigit_of_mem_digits hc)

theorem isDigit_of_mem_digitBytes {n : Nat} : ∀ b ∈ digitBytes n, isDigit b = true := by
  intro b hb
  rw [digitBytes_eq, List.mem_map] at hb
  obtain ⟨c, hc, rfl⟩ := hb
  have hdigit := Decimal.isDigit_of_mem_digits hc
  have hbounds := Decimal.isDigit_iff.mp hdigit
  simp only [isDigit, Bool.and_eq_true, decide_eq_true_eq, UInt8.le_iff_toNat_le,
    toNat_digit hdigit]
  exact hbounds

theorem digitBytes_ne_nil (n : Nat) : digitBytes n ≠ [] := by
  rw [digitBytes_eq, ne_eq, List.map_eq_nil_iff]
  exact Decimal.digits_ne_nil n

theorem foldl_digitValue {cs : List Char} (h : ∀ c ∈ cs, Decimal.isDigit c = true) (n : Nat) :
    (cs.map fun c => UInt8.ofNat c.toNat).foldl (fun n d => n * 10 + digitValue d) n =
      cs.foldl (fun n c => n * 10 + (c.toNat - 48)) n := by
  induction cs generalizing n with
  | nil => rfl
  | cons c cs ih =>
    rw [List.map_cons, List.foldl_cons, List.foldl_cons, digitValue,
      toNat_digit (h c List.mem_cons_self)]
    exact ih (fun d hd => h d (List.mem_cons_of_mem _ hd)) _

theorem digitsValue_digitBytes (n : Nat) : digitsValue (digitBytes n) = n := by
  rw [digitsValue, digitBytes_eq, foldl_digitValue fun c => Decimal.isDigit_of_mem_digits]
  exact Decimal.value_digits n

theorem not_padded_digitBytes (n : Nat) :
    ¬ ((digitBytes n).length ≠ 1 ∧ (digitBytes n).head? = some zero) := by
  rintro ⟨hlength, hhead⟩
  rw [digitBytes_eq] at hlength hhead
  rcases Nat.eq_zero_or_pos n with rfl | hpos
  · exact hlength (by rw [Decimal.digits]; rfl)
  · rw [List.head?_map, Option.map_eq_some_iff] at hhead
    obtain ⟨c, hc, hzero⟩ := hhead
    have hdigit := Decimal.isDigit_of_mem_digits (List.mem_of_mem_head? hc)
    have hcode : c.toNat = '0'.toNat := by
      rw [← toNat_digit hdigit, hzero]
      rfl
    rw [Char.toNat_inj] at hcode
    exact Decimal.head_digits hpos (hcode ▸ hc)

theorem someDigits_digitBytes (atEnd : Error) (n : Nat) (h : Ends rest) :
    someDigits atEnd (digitBytes n ++ rest) = .ok (digitBytes n, rest) := by
  rw [someDigits, takeWhile_append_of_head isDigit_of_mem_digitBytes h.not_digit,
    dropWhile_append_of_head isDigit_of_mem_digitBytes h.not_digit]
  obtain ⟨d, ds, hds⟩ := List.exists_cons_of_ne_nil (digitBytes_ne_nil n)
  rw [hds]

theorem fractionPart_ends (atEnd : Error) (h : Ends rest) :
    fractionPart atEnd rest = .ok (none, rest) := by
  cases rest with
  | nil => rfl
  | cons b rest =>
    have hpoint : b ≠ point := by rcases h b rfl with rfl | rfl | rfl <;> decide
    rw [fractionPart, if_neg hpoint]

theorem exponentPart_ends (atEnd : Error) (h : Ends rest) :
    exponentPart atEnd rest = .ok (none, rest) := by
  cases rest with
  | nil => rfl
  | cons b rest =>
    have hletter : ¬ (b = 0x65 ∨ b = 0x45) := by rcases h b rfl with rfl | rfl | rfl <;> decide
    exact if_neg hletter

theorem numberText_digitBytes (atEnd : Error) (n : Nat) (h : Ends rest) :
    numberText atEnd (digitBytes n ++ rest) = .ok (⟨digitBytes n, none, none⟩, rest) := by
  simp only [numberText, wholePart, someDigits_digitBytes atEnd n h, bind, Except.bind, pure,
    Except.pure, if_neg (not_padded_digitBytes n), fractionPart_ends atEnd h,
    exponentPart_ends atEnd h]

theorem number_digitBytes {n : Nat} (hlt : n < wordLimit) (h : Ends rest) :
    number false (digitBytes n ++ rest) = .ok (.int n, rest) := by
  have hnumber : NumberText.number ⟨digitBytes n, none, none⟩ false = .int n := by
    rw [NumberText.number, digitsValue_digitBytes]
    simp [hlt]
  simp only [number, numberText_digitBytes .ended n h, bind, Except.bind, hnumber]
  rfl

theorem number_negative {n : Nat} (hpos : 0 < n) (hle : n ≤ 0x8000000000000000) (h : Ends rest) :
    number true (digitBytes n ++ rest) = .ok (.int (-n), rest) := by
  have hnumber : NumberText.number ⟨digitBytes n, none, none⟩ true = .int (-n) := by
    rw [NumberText.number, digitsValue_digitBytes]
    simp [hpos, hle]
  simp only [number, numberText_digitBytes .ended n h, bind, Except.bind, hnumber]
  rfl

theorem numberValue_ofInt {n : Int} (hlow : -0x8000000000000000 ≤ n) (hhigh : n < wordLimit)
    (h : Ends rest) :
    numberValue (Utf8.encodeChars (Decimal.ofInt n) ++ rest) = .ok (.int n, rest) := by
  unfold Decimal.ofInt
  split
  · have hnumber := number_negative (n := n.natAbs) (by omega) (by omega) h
    rw [show -(n.natAbs : Int) = n by omega] at hnumber
    have hbytes : Utf8.encodeChars ('-' :: Decimal.digits n.natAbs) ++ rest =
        minus :: (digitBytes n.natAbs ++ rest) := rfl
    rw [hbytes, numberValue]
    simp only [if_true, hnumber, bind, Except.bind]
    rfl
  · have hnumber := number_digitBytes (n := n.natAbs) (by omega) h
    rw [show (n.natAbs : Int) = n by omega] at hnumber
    have hfirst := isDigit_of_mem_digitBytes (n := n.natAbs)
    obtain ⟨d, ds, hds⟩ := List.exists_cons_of_ne_nil (digitBytes_ne_nil n.natAbs)
    rw [show Utf8.encodeChars (Decimal.digits n.natAbs) = digitBytes n.natAbs from rfl]
    rw [hds] at hnumber hfirst ⊢
    have hminus : d ≠ minus := by
      rintro rfl
      exact absurd (hfirst minus List.mem_cons_self) (by decide)
    rw [List.cons_append] at hnumber ⊢
    simp only [numberValue, if_neg hminus, hnumber, bind, Except.bind]
    rfl

end Json
end SandboxWorker
