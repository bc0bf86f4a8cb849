import Mathlib.Data.List.Induction
import SandboxWorker.Text.Blank
import SandboxWorker.Text.Decimal
/-! Written digits are digits, are ASCII and are no blanks; padded ones denote their number. -/
namespace SandboxWorker

theorem takeWhile_append_of_head {α : Type} {p : α → Bool} {front rest : List α}
    (hfront : ∀ a ∈ front, p a = true) (hrest : ∀ a ∈ rest.head?, p a = false) :
    (front ++ rest).takeWhile p = front := by
  rw [List.takeWhile_append_of_pos hfront]
  cases rest with
  | nil => simp
  | cons a rest => simp [hrest a rfl]

theorem dropWhile_of_head {α : Type} {p : α → Bool} {rest : List α}
    (hrest : ∀ a ∈ rest.head?, p a = false) : rest.dropWhile p = rest := by
  cases rest with
  | nil => rfl
  | cons a rest => rw [List.dropWhile_cons, hrest a rfl, if_neg Bool.false_ne_true]

theorem dropWhile_append_of_head {α : Type} {p : α → Bool} {front rest : List α}
    (hfront : ∀ a ∈ front, p a = true) (hrest : ∀ a ∈ rest.head?, p a = false) :
    (front ++ rest).dropWhile p = rest := by
  rw [List.dropWhile_append_of_pos hfront, dropWhile_of_head hrest]

namespace Decimal

theorem isDigit_iff {c : Char} : isDigit c = true ↔ 48 ≤ c.toNat ∧ c.toNat ≤ 57 := by
  unfold isDigit digit?
  split <;> simp_all

theorem isDigit_digitChar {d : Nat} (h : d < 10) : isDigit (digitChar d) = true := by
  rw [isDigit, digit?_digitChar h]
  rfl

theorem digit?_of_isDigit {c : Char} (h : isDigit c = true) : digit? c = some (c.toNat - 48) :=
  if_pos (isDigit_iff.mp h)

theorem foldl_digits_lt {ds : List Char} (hds : ∀ c ∈ ds, isDigit c = true) (n : Nat) :
    ds.foldl (fun n c => n * 10 + (c.toNat - 48)) n < (n + 1) * Nat.pow 10 ds.length := by
  induction ds generalizing n with
  | nil => simp
  | cons d ds ih =>
    obtain ⟨hlow, hhigh⟩ := isDigit_iff.mp (hds d List.mem_cons_self)
    calc (d :: ds).foldl (fun n c => n * 10 + (c.toNat - 48)) n
        < (n * 10 + (d.toNat - 48) + 1) * Nat.pow 10 ds.length :=
          ih (fun c hc => hds c (List.mem_cons_of_mem _ hc)) _
      _ ≤ (n + 1) * 10 * Nat.pow 10 ds.length := Nat.mul_le_mul_right _ (by omega)
      _ = (n + 1) * Nat.pow 10 (d :: ds).length := by
        rw [List.length_cons, Nat.pow_eq, Nat.pow_eq, Nat.pow_succ', Nat.mul_assoc]

theorem value_lt {ds : List Char} (hds : ∀ c ∈ ds, isDigit c = true) :
    value ds < Nat.pow 10 ds.length := by
  simpa only [value, Nat.zero_add, Nat.one_mul] using foldl_digits_lt hds 0

theorem value_eq_zero {ds : List Char} (hds : ∀ c ∈ ds, isDigit c = true) :
    value ds = 0 ↔ ∀ c ∈ ds, c = '0' := by
  induction ds using List.reverseRecOn with
  | nil => simp [value]
  | append_singleton ds d ih =>
    rw [List.forall_mem_append, List.forall_mem_singleton] at hds ⊢
    have hlow := (isDigit_iff.mp hds.2).1
    have hd : d = '0' ↔ d.toNat = 48 := by rw [← Char.toNat_inj]; rfl
    rw [← ih hds.1, hd, value, List.foldl_append, ← value]
    simp only [List.foldl_cons, List.foldl_nil]
    omega

theorem isDigit_of_mem_fixed {width n : Nat} {c : Char} (h : c ∈ fixed width n) :
    isDigit c = true := by
  induction width generalizing n with
  | zero => cases h
  | succ width ih =>
    rw [fixed, List.mem_append, List.mem_singleton] at h
    rcases h with hfront | rfl
    · exact ih hfront
    · exact isDigit_digitChar (Nat.mod_lt _ (by decide))

theorem isDigit_of_mem_digits {n : Nat} {c : Char} (h : c ∈ digits n) : isDigit c = true := by
  rw [digits] at h
  split at h
  · rw [List.mem_singleton.mp h]
    exact isDigit_digitChar (by assumption)
  · rw [List.mem_append, List.mem_singleton] at h
    rcases h with hfront | rfl
    · exact isDigit_of_mem_digits hfront
    · exact isDigit_digitChar (Nat.mod_lt _ (by decide))
termination_by n
decreasing_by omega

theorem digits_ne_nil (n : Nat) : digits n ≠ [] := by
  rw [digits]
  split <;> simp

theorem isDigit_of_mem_padded {width n : Nat} {c : Char} (h : c ∈ padded width n) :
    isDigit c = true := by
  unfold padded at h
  split at h
  · exact isDigit_of_mem_fixed h
  · exact isDigit_of_mem_digits h

theorem value_padded (width n : Nat) : value (padded width n) = n := by
  unfold padded
  split
  · rw [value_fixed, Nat.mod_eq_of_lt (by assumption)]
  · exact value_digits n

theorem value_fixed_of_lt {width n : Nat} (h : n < Nat.pow 10 width) :
    value (fixed width n) = n := by
  rw [value_fixed, Nat.mod_eq_of_lt h]

theorem fixed_ne_nil {width : Nat} (h : 0 < width) (n : Nat) : fixed width n ≠ [] := by
  rw [← List.length_pos_iff, length_fixed]
  exact h

theorem padded_ne_nil {width : Nat} (h : 0 < width) (n : Nat) : padded width n ≠ [] := by
  unfold padded
  split
  · exact fixed_ne_nil h n
  · exact digits_ne_nil n

theorem le_length_padded (width n : Nat) : width ≤ (padded width n).length := by
  unfold padded
  split
  · exact Nat.le_of_eq (length_fixed width n).symm
  · rename_i hlong
    have hlt : value (digits n) < Nat.pow 10 (digits n).length :=
      value_lt fun _ => isDigit_of_mem_digits
    rw [value_digits] at hlt
    have hpower : Nat.pow 10 width < Nat.pow 10 (digits n).length :=
      Nat.lt_of_le_of_lt (Nat.not_lt.mp hlong) hlt
    exact Nat.le_of_lt ((Nat.pow_lt_pow_iff_right (by decide)).mp hpower)

theorem nat?_digits {ds : List Char} (hne : ds ≠ []) (hds : ∀ c ∈ ds, isDigit c = true) :
    nat? ds = some (value ds) := by
  have hempty : ds.isEmpty = false := by simpa using hne
  rw [nat?, hempty, List.all_eq_true.mpr hds]
  rfl

theorem ascii_of_isDigit {c : Char} (h : isDigit c = true) : c.toNat < 0x80 := by
  have hbounds := isDigit_iff.mp h
  omega

end Decimal

namespace Text

theorem isBlank_of_isDigit {c : Char} (h : Decimal.isDigit c = true) : isBlank c = false := by
  obtain ⟨hlow, hhigh⟩ := Decimal.isDigit_iff.mp h
  simp only [isBlank, Bool.or_eq_false_iff, Bool.and_eq_false_iff, decide_eq_false_iff_not,
    beq_eq_false_iff_ne]
  omega

theorem trimLeft_cons {c : Char} (h : isBlank c = false) (cs : List Char) :
    trimLeft (c :: cs) = c :: cs := by
  rw [trimLeft, List.dropWhile_cons, h]
  rfl

theorem trimLeft_digits {ds : List Char} (hds : ∀ c ∈ ds, Decimal.isDigit c = true) (hne : ds ≠ [])
    (rest : List Char) : trimLeft (ds ++ rest) = ds ++ rest := by
  obtain ⟨d, ds, rfl⟩ := List.exists_cons_of_ne_nil hne
  exact trimLeft_cons (isBlank_of_isDigit (hds d List.mem_cons_self)) _

end Text
end SandboxWorker
