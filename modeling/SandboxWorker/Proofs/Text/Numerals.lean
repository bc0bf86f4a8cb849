import Mathlib.Data.Nat.Digits.Defs
import Mathlib.Data.Set.List
import SandboxWorker.Proofs.Text.Decimal
/-! Whole numbers as they may be written, zeros in front and all. The readers of numbers take
exactly the numerals whose value their type holds. -/
namespace SandboxWorker.Decimal

inductive Sign where
  | plus
  | minus
deriving DecidableEq, Repr

def Sign.char : Sign → Char
  | .plus => '+'
  | .minus => '-'

theorem Sign.eq_of_char_eq {s s' : Sign} (h : s.char = s'.char) : s = s' := by
  cases s <;> cases s' <;> first | rfl | cases h

/-- A written number: at least one digit, the most significant first, perhaps behind a sign. -/
structure Numeral where
  sign : Option Sign
  digits : List (Fin 10)
  digits_ne_nil : digits ≠ []
deriving DecidableEq

def figure (d : Fin 10) : Char := digitChar d.val

def magnitude (ds : List (Fin 10)) : Nat := Nat.ofDigits 10 (ds.map Fin.val).reverse

namespace Numeral

def chars (w : Numeral) : List Char := w.sign.toList.map Sign.char ++ w.digits.map figure

def text (w : Numeral) : String := String.ofList w.chars

def value (w : Numeral) : Int :=
  if w.sign = some .minus then -(magnitude w.digits : Int) else magnitude w.digits

def withZeros (w : Numeral) (zeros : Nat) : Numeral where
  sign := w.sign
  digits := List.replicate zeros 0 ++ w.digits
  digits_ne_nil := by simp [w.digits_ne_nil]

end Numeral

inductive NumberType where
  | natural (bits : Nat)
  | integer64
deriving DecidableEq, Repr

namespace NumberType

def least : NumberType → Int
  | .natural _ => 0
  | .integer64 => -9223372036854775808

def greatest : NumberType → Int
  | .natural bits => Nat.pow 2 bits - 1
  | .integer64 => 9223372036854775807

/-- A number of this type as it may be written. Naturals take no minus, not even before zero. -/
structure Takes (t : NumberType) (w : Numeral) : Prop where
  minus : w.sign = some .minus → t = .integer64
  least_le : t.least ≤ w.value
  le_greatest : w.value ≤ t.greatest

def read? : NumberType → List Char → Option Int
  | .natural bits, cs => (natBelow? (Nat.pow 2 bits) cs).map Int.ofNat
  | .integer64, cs => (int64? cs).map Int64.toInt

end NumberType

/-! ### Digits by their places -/

theorem isDigit_iff_mem_range {c : Char} : isDigit c = true ↔ c ∈ Set.range figure := by
  constructor
  · intro h
    obtain ⟨hlow, hhigh⟩ := isDigit_iff.mp h
    refine ⟨⟨c.toNat - 48, by omega⟩, ?_⟩
    unfold figure digitChar
    rw [Nat.add_sub_cancel' hlow, Char.ofNat_toNat]
  · rintro ⟨d, rfl⟩
    exact isDigit_digitChar d.isLt

theorem magnitude_append_digit (ds : List (Fin 10)) (d : Fin 10) :
    magnitude (ds ++ [d]) = magnitude ds * 10 + d := by
  unfold magnitude
  rw [List.map_append, List.reverse_append, List.map_singleton, List.reverse_singleton,
    List.singleton_append, Nat.ofDigits_cons]
  omega

theorem value_figures (ds : List (Fin 10)) : Decimal.value (ds.map figure) = magnitude ds := by
  induction ds using List.reverseRecOn with
  | nil => rfl
  | append_singleton ds d ih =>
    rw [magnitude_append_digit, ← ih, List.map_append]
    exact value_append_digit d.isLt

theorem magnitude_zeros (zeros : Nat) (ds : List (Fin 10)) :
    magnitude (List.replicate zeros 0 ++ ds) = magnitude ds := by
  unfold magnitude
  rw [List.map_append, List.reverse_append, List.map_replicate, List.reverse_replicate]
  exact Nat.ofDigits_append_replicate_zero _

namespace Numeral
variable {w : Numeral}

theorem value_of_minus (h : w.sign = some .minus) : w.value = -(magnitude w.digits : Int) :=
  if_pos h

theorem value_of_not_minus (h : w.sign ≠ some .minus) : w.value = magnitude w.digits := if_neg h

theorem value_withZeros (w : Numeral) (zeros : Nat) : (w.withZeros zeros).value = w.value := by
  unfold value withZeros
  rw [magnitude_zeros]

/-- No digit is a sign, so a sign in front is the sign of the number. -/
theorem sign_of_chars {s : Sign} {r : List Char} (h : w.chars = s.char :: r) :
    w.sign = some s := by
  obtain ⟨sign, ds, _⟩ := w
  cases sign with
  | none =>
    obtain ⟨d, -, -, hd, -⟩ := List.map_eq_cons_iff.mp h
    have hdigit : isDigit s.char = true := hd ▸ isDigit_digitChar d.isLt
    cases s <;> cases hdigit
  | some sign =>
    exact congrArg some (Sign.eq_of_char_eq (List.cons.inj h).1)

end Numeral

theorem NumberType.Takes.withZeros {t : NumberType} {w : Numeral} (h : t.Takes w) (zeros : Nat) :
    t.Takes (w.withZeros zeros) where
  minus := h.minus
  least_le := w.value_withZeros zeros ▸ h.least_le
  le_greatest := w.value_withZeros zeros ▸ h.le_greatest

/-! ### Reading -/

section Reading
variable {cs : List Char}

theorem nat?_eq_some_iff {n : Nat} :
    nat? cs = some n ↔ ∃ ds : List (Fin 10), ds ≠ [] ∧ ds.map figure = cs ∧ magnitude ds = n := by
  constructor
  · intro h
    unfold nat? at h
    split at h
    · cases h
    · rename_i hsome
      simp only [Bool.or_eq_true, Bool.not_eq_true', not_or, Bool.not_eq_true,
        Bool.not_eq_false, List.all_eq_true] at hsome
      have hfigures : cs ∈ Set.range (List.map figure) := by
        rw [Set.range_list_map]
        exact fun c hc => isDigit_iff_mem_range.mp (hsome.2 c hc)
      obtain ⟨ds, rfl⟩ := hfigures
      refine ⟨ds, ?_, rfl, ?_⟩
      · rintro rfl
        cases hsome.1
      · rw [← value_figures]
        exact Option.some.inj h
  · rintro ⟨ds, hne, rfl, rfl⟩
    rw [← value_figures]
    apply nat?_digits
    · simpa using hne
    · intro c hc
      obtain ⟨d, -, rfl⟩ := List.mem_map.mp hc
      exact isDigit_iff_mem_range.mpr ⟨d, rfl⟩

theorem filter_nat?_eq_some_iff {p : Nat → Prop} [DecidablePred p] {n : Nat} :
    (nat? cs).filter p = some n ↔
      p n ∧ ∃ ds : List (Fin 10), ds ≠ [] ∧ ds.map figure = cs ∧ magnitude ds = n := by
  rw [Option.filter_eq_some_iff, nat?_eq_some_iff, decide_eq_true_iff, and_comm]

theorem natBelow?_plus (bound : Nat) (r : List Char) :
    natBelow? bound ('+' :: r) = (nat? r).filter (· < bound) := rfl

theorem natBelow?_of_head {bound : Nat} (h : ∀ r, cs ≠ '+' :: r) :
    natBelow? bound cs = (nat? cs).filter (· < bound) := by
  unfold natBelow?
  split
  · exact absurd rfl (h _)
  · rfl

theorem int64?_minus (r : List Char) : int64? ('-' :: r) =
    ((nat? r).filter (· ≤ 0x8000000000000000)).map fun (n : Nat) => Int64.ofInt (-n) := by
  rw [int64?]
  cases (nat? r).filter (· ≤ 0x8000000000000000) <;> rfl

theorem int64?_of_head (h : ∀ r, cs ≠ '-' :: r) :
    int64? cs = (natBelow? 0x8000000000000000 cs).map fun (n : Nat) => Int64.ofInt n := by
  unfold int64?
  split
  · exact absurd rfl (h _)
  · cases natBelow? 0x8000000000000000 cs <;> rfl

theorem natBelow?_eq_some_iff {bound n : Nat} : natBelow? bound cs = some n ↔
    n < bound ∧ ∃ w : Numeral, w.chars = cs ∧ w.sign ≠ some .minus ∧ magnitude w.digits = n := by
  constructor
  · intro h
    by_cases hplus : ∃ r, cs = '+' :: r
    · obtain ⟨r, rfl⟩ := hplus
      rw [natBelow?_plus, filter_nat?_eq_some_iff] at h
      obtain ⟨hlt, ds, hne, rfl, hn⟩ := h
      exact ⟨hlt, ⟨some .plus, ds, hne⟩, rfl, nofun, hn⟩
    · rw [natBelow?_of_head (not_exists.mp hplus), filter_nat?_eq_some_iff] at h
      obtain ⟨hlt, ds, hne, rfl, hn⟩ := h
      exact ⟨hlt, ⟨none, ds, hne⟩, rfl, nofun, hn⟩
  · rintro ⟨hlt, ⟨sign, ds, hne⟩, rfl, hsign, rfl⟩
    have hread : (nat? (ds.map figure)).filter (· < bound) = some (magnitude ds) :=
      filter_nat?_eq_some_iff.mpr ⟨hlt, ds, hne, rfl, rfl⟩
    match sign, hsign with
    | none, _ =>
      refine (natBelow?_of_head fun r hr => ?_).trans hread
      cases Numeral.sign_of_chars (s := .plus) hr
    | some .plus, _ => exact (natBelow?_plus bound _).trans hread
    | some .minus, hsign => exact absurd rfl hsign

theorem int64?_eq_some_iff {i : Int64} :
    int64? cs = some i ↔ ∃ w : Numeral, w.chars = cs ∧ w.value = i.toInt := by
  constructor
  · intro h
    by_cases hminus : ∃ r, cs = '-' :: r
    · obtain ⟨r, rfl⟩ := hminus
      rw [int64?_minus] at h
      obtain ⟨n, hn, rfl⟩ := Option.map_eq_some_iff.mp h
      obtain ⟨hle, ds, hne, rfl, rfl⟩ := filter_nat?_eq_some_iff.mp hn
      refine ⟨⟨some .minus, ds, hne⟩, rfl, ?_⟩
      rw [Int64.toInt_ofInt_of_le (by omega) (by omega)]
      rfl
    · rw [int64?_of_head (not_exists.mp hminus)] at h
      obtain ⟨n, hn, rfl⟩ := Option.map_eq_some_iff.mp h
      obtain ⟨hlt, w, rfl, hsign, rfl⟩ := natBelow?_eq_some_iff.mp hn
      refine ⟨w, rfl, ?_⟩
      rw [Int64.toInt_ofInt_of_le (by omega) (by omega), Numeral.value_of_not_minus hsign]
  · rintro ⟨w, rfl, hvalue⟩
    have hlow := i.le_toInt
    have hhigh := i.toInt_lt
    rw [← Int64.ofInt_toInt i, ← hvalue]
    -- Digits stand behind a minus; any other numeral is read as a natural of the same bound.
    by_cases hsign : w.sign = some .minus
    · rw [Numeral.value_of_minus hsign] at hvalue ⊢
      have hread : (nat? (w.digits.map figure)).filter (· ≤ 0x8000000000000000) =
          some (magnitude w.digits) :=
        filter_nat?_eq_some_iff.mpr ⟨by omega, _, w.digits_ne_nil, rfl, rfl⟩
      rw [Numeral.chars, hsign]
      exact (int64?_minus _).trans (congrArg _ hread)
    · rw [Numeral.value_of_not_minus hsign] at hvalue ⊢
      have hread : natBelow? 0x8000000000000000 w.chars = some (magnitude w.digits) :=
        natBelow?_eq_some_iff.mpr ⟨by omega, w, rfl, hsign, rfl⟩
      have hhead : ∀ r, w.chars ≠ '-' :: r := fun r hr =>
        hsign (Numeral.sign_of_chars (s := .minus) hr)
      rw [int64?_of_head hhead, hread]
      rfl

/-- A number is read from the numerals that its type takes and from no other text. -/
theorem NumberType.read?_eq_some_iff {t : NumberType} {n : Int} :
    t.read? cs = some n ↔ ∃ w : Numeral, w.chars = cs ∧ t.Takes w ∧ w.value = n := by
  unfold NumberType.read?
  cases t with
  | natural bits =>
    rw [Option.map_eq_some_iff]
    constructor
    · rintro ⟨m, hm, rfl⟩
      obtain ⟨hlt, w, hw, hsign, rfl⟩ := natBelow?_eq_some_iff.mp hm
      have hvalue := Numeral.value_of_not_minus hsign
      refine ⟨w, hw, ⟨fun hminus => absurd hminus hsign, ?_, ?_⟩, hvalue⟩
      · exact hvalue ▸ Int.natCast_nonneg _
      · show w.value ≤ Nat.pow 2 bits - 1
        omega
    · rintro ⟨w, hw, htakes, rfl⟩
      have hsign : w.sign ≠ some .minus := fun hminus => nomatch htakes.minus hminus
      have hle : w.value ≤ Nat.pow 2 bits - 1 := htakes.le_greatest
      rw [Numeral.value_of_not_minus hsign] at hle ⊢
      exact ⟨magnitude w.digits, natBelow?_eq_some_iff.mpr ⟨by omega, w, hw, hsign, rfl⟩, rfl⟩
  | integer64 =>
    rw [Option.map_eq_some_iff]
    constructor
    · rintro ⟨i, hi, rfl⟩
      obtain ⟨w, hw, hvalue⟩ := int64?_eq_some_iff.mp hi
      refine ⟨w, hw, ⟨fun _ => rfl, ?_, ?_⟩, hvalue⟩
      · exact hvalue ▸ i.le_toInt
      · exact hvalue ▸ Int.lt_add_one_iff.mp i.toInt_lt
    · rintro ⟨w, hw, htakes, rfl⟩
      have hlow : -9223372036854775808 ≤ w.value := htakes.least_le
      have hhigh : w.value ≤ 9223372036854775807 := htakes.le_greatest
      have hvalue := Int64.toInt_ofInt_of_le (n := w.value) (by omega) (by omega)
      exact ⟨Int64.ofInt w.value, int64?_eq_some_iff.mpr ⟨w, hw, hvalue.symm⟩, hvalue⟩

end Reading

-- Only a type with negative numbers reads a minus, and none reads a sign alone.
example : NumberType.integer64.read? ['-', '0'] = some 0 ∧
    (NumberType.natural 64).read? ['-', '0'] = none ∧
    (NumberType.natural 64).read? ['+'] = none := by
  decide +kernel

end SandboxWorker.Decimal
