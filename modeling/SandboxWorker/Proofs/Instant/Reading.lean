import SandboxWorker.Instant.Reading
import SandboxWorker.Instant.Writing
import SandboxWorker.Proofs.Instant.Civil
import SandboxWorker.Proofs.Text.Decimal
/-! Written instants read back: event fields in the lenient form, log frames in the strict one. -/
namespace SandboxWorker.Instant
open Decimal (isDigit value fixed padded value_fixed_of_lt fixed_ne_nil padded_ne_nil)
open Text (trimLeft trimLeft_digits)

@[simp] theorem expect_cons (c : Char) (rest : List Char) : expect c (c :: rest) = .ok rest :=
  if_pos rfl

theorem digitRun_digits {limit : Nat} {ds rest : List Char} (hds : ∀ c ∈ ds, isDigit c = true)
    (hne : ds ≠ []) (hlimit : ds.length ≤ limit)
    (hrest : ds.length = limit ∨ ∀ c ∈ rest.head?, isDigit c = false) :
    digitRun limit (ds ++ rest) = .ok (ds, rest) := by
  have hend : ∀ c ∈ (rest.take (limit - ds.length)).head?, isDigit c = false := by
    rcases hrest with hfull | hrest
    · simp [hfull]
    · intro c hc
      rw [List.head?_take] at hc
      split at hc
      · cases hc
      · exact hrest c hc
  have htake : ((ds ++ rest).take limit).takeWhile isDigit = ds := by
    rw [List.take_append, List.take_of_length_le hlimit]
    exact takeWhile_append_of_head hds hend
  rw [digitRun, htake]
  obtain ⟨d, ds, rfl⟩ := List.exists_cons_of_ne_nil hne
  simp

theorem exactly_go_digits {ds : List Char} (hds : ∀ c ∈ ds, isDigit c = true) (n : Nat)
    (rest : List Char) :
    exactly.go ds.length n (ds ++ rest) =
      .ok (ds.foldl (fun n c => n * 10 + (c.toNat - 48)) n, rest) := by
  induction ds generalizing n with
  | nil => rfl
  | cons d ds ih =>
    rw [List.length_cons, List.cons_append, exactly.go,
      Decimal.digit?_of_isDigit (hds d List.mem_cons_self)]
    exact ih (fun c hc => hds c (List.mem_cons_of_mem _ hc)) _

theorem exactly_fixed {width n : Nat} (h : n < Nat.pow 10 width) (rest : List Char) :
    exactly width (fixed width n ++ rest) = .ok (n, rest) := by
  have hgo := exactly_go_digits (fun c (hc : c ∈ fixed width n) =>
    Decimal.isDigit_of_mem_fixed hc) 0 rest
  rw [Decimal.length_fixed] at hgo
  rw [exactly, hgo]
  exact congrArg (fun n => Except.ok (n, rest)) (value_fixed_of_lt h)

theorem field_fixed {low high n : Nat} (hlow : low ≤ n) (hhigh : n ≤ high) (hlt : n < 100)
    (rest : List Char) : field low high (fixed 2 n ++ rest) = .ok (n, rest) := by
  have hdigits : ∀ c ∈ fixed 2 n, isDigit c = true := fun c => Decimal.isDigit_of_mem_fixed
  have hne : fixed 2 n ≠ [] := fixed_ne_nil (by decide) n
  rw [field, trimLeft_digits hdigits hne, digitRun_digits hdigits hne (by simp) (by simp)]
  simp only [bind, Except.bind, value_fixed_of_lt (show n < Nat.pow 10 2 from hlt)]
  rw [if_neg (by omega)]
  rfl

/-- Fewer than nine digits of a fraction count as if zeros followed. -/
theorem fraction_fixed {width n : Nat} (hpos : 0 < width) (hle : width ≤ 9)
    (hlt : n < Nat.pow 10 width) {rest : List Char} (hrest : ∀ c ∈ rest.head?, isDigit c = false) :
    fraction ('.' :: (fixed width n ++ rest)) = .ok (n * Nat.pow 10 (9 - width), rest) := by
  have hdigits : ∀ c ∈ fixed width n, isDigit c = true := fun c => Decimal.isDigit_of_mem_fixed
  rw [fraction, digitRun_digits hdigits (fixed_ne_nil hpos n) (by simpa using hle) (.inr hrest)]
  simp only [bind, Except.bind, value_fixed_of_lt hlt, Decimal.length_fixed,
    dropWhile_of_head hrest]
  rfl

theorem head_of_digits {ds : List Char} (hds : ∀ c ∈ ds, isDigit c = true) (hne : ds ≠ [])
    {rest tail : List Char} {c : Char} (h : ds ++ rest = c :: tail) : isDigit c = true := by
  obtain ⟨d, ds, rfl⟩ := List.exists_cons_of_ne_nil hne
  rw [← (List.cons.inj h).1]
  exact hds d List.mem_cons_self

theorem year_bare {n : Nat} (hlt : n < 10000) (rest : List Char) :
    year (fixed 4 n ++ rest) = .ok (n, rest) := by
  have hdigits : ∀ c ∈ fixed 4 n, isDigit c = true := fun c => Decimal.isDigit_of_mem_fixed
  have hne : fixed 4 n ≠ [] := fixed_ne_nil (by decide) n
  have hrun : digitRun 4 (fixed 4 n ++ rest) = .ok (fixed 4 n, rest) :=
    digitRun_digits hdigits hne (by simp) (by simp)
  have hvalue : value (fixed 4 n) = n := value_fixed_of_lt hlt
  rw [year, trimLeft_digits hdigits hne]
  split
  · exact absurd (head_of_digits hdigits hne (by assumption)) (by decide)
  · exact absurd (head_of_digits hdigits hne (by assumption)) (by decide)
  · rw [hrun]
    simp only [bind, Except.bind, hvalue]
    rfl

theorem year_signed {n : Nat} (hlt : n < 0x80000000) {rest : List Char}
    (hrest : ∀ c ∈ rest.head?, isDigit c = false) :
    year ('-' :: (padded 4 n ++ rest)) = .ok (-n, rest) ∧
      year ('+' :: (padded 4 n ++ rest)) = .ok (n, rest) := by
  have hrun : digitRun (padded 4 n ++ rest).length (padded 4 n ++ rest) = .ok (padded 4 n, rest) :=
    digitRun_digits (fun _ => Decimal.isDigit_of_mem_padded) (padded_ne_nil (by decide) n) (by simp)
      (.inr hrest)
  have hvalue : value (padded 4 n) = n := Decimal.value_padded 4 n
  constructor
  · rw [year, Text.trimLeft_cons (by decide)]
    simp only [hrun, bind, Except.bind, hvalue]
    rw [if_neg (by omega)]
    rfl
  · rw [year, Text.trimLeft_cons (by decide)]
    simp only [hrun, bind, Except.bind, hvalue]
    rw [if_neg (by omega)]
    rfl

theorem year_yearText {y : Int} (hlow : -0x80000000 < y) (hhigh : y < 0x80000000)
    {rest : List Char} (hrest : ∀ c ∈ rest.head?, isDigit c = false) :
    year (yearText y ++ rest) = .ok (y, rest) := by
  obtain ⟨hminus, hplus⟩ := year_signed (n := y.natAbs) (by omega) hrest
  unfold yearText
  split
  · rw [year_bare (by omega), Int.natAbs_of_nonneg (by omega)]
  · split
    · rw [List.cons_append, hminus, show -(y.natAbs : Int) = y by omega]
    · rw [List.cons_append, hplus, show (y.natAbs : Int) = y by omega]

theorem not_digit_zone : ∀ c ∈ ['Z'].head?, isDigit c = false := by
  rintro c ⟨⟩
  rfl

theorem fraction_fractionText {n : Nat} (hlt : n < 1000000000) :
    fraction (fractionText n ++ ['Z']) = .ok (n, ['Z']) := by
  have hrest := not_digit_zone
  unfold fractionText
  split
  · subst n
    rfl
  split
  · rw [List.cons_append, fraction_fixed (by decide) (by decide) (by simp; omega) hrest,
      show n / 1000000 * Nat.pow 10 (9 - 3) = n by simp; omega]
  split
  · rw [List.cons_append, fraction_fixed (by decide) (by decide) (by simp; omega) hrest,
      show n / 1000 * Nat.pow 10 (9 - 6) = n by simp; omega]
  · rw [List.cons_append, fraction_fixed (by decide) (by decide) (by simpa using hlt) hrest]
    simp

theorem finish_civil (t : Instant) : finish t.civil 0 = .ok t := by
  rw [finish, t.civil_isPossible, if_neg (by decide), ofCivil?_civil]

/-- Every instant is read back from the text of event fields. -/
theorem lenient_text (t : Instant) : lenient t.text = .ok t := by
  obtain ⟨hyear, hdate, hhour, hminute, hsecond, hnano⟩ :=
    Civil.isPossible_iff.mp t.civil_isPossible
  have hday := hdate.day_le
  obtain ⟨hmonth₁, hmonth₂, hday₁, -⟩ := hdate
  have hfinish := finish_civil t
  rw [text]
  generalize t.civil = c at *
  have hdash (cs : List Char) : trimLeft ('-' :: cs) = '-' :: cs :=
    Text.trimLeft_cons (by decide) cs
  have hcolon (cs : List Char) : trimLeft (':' :: cs) = ':' :: cs :=
    Text.trimLeft_cons (by decide) cs
  simp only [Civil.text, lenient, List.append_assoc, List.cons_append]
  rw [year_yearText (by omega) (by omega) (by simp; decide)]
  simp only [bind, Except.bind, hdash, expect_cons]
  rw [field_fixed hmonth₁ hmonth₂ (by omega)]
  simp only [hdash, expect_cons]
  rw [field_fixed hday₁ hday (by omega)]
  simp only [dateEnd, true_or, if_true]
  rw [field_fixed (Nat.zero_le _) (by omega) (by omega)]
  simp only [hcolon, expect_cons]
  rw [field_fixed (Nat.zero_le _) (by omega) (by omega)]
  simp only [hcolon, expect_cons]
  rw [field_fixed (Nat.zero_le _) hsecond (by omega)]
  simp only [fraction_fractionText hnano]
  exact hfinish

/-- An instant of a year of four digits is read back from the timestamp of a frame. -/
theorem strict_stamp {t : Instant} (hlow : 0 ≤ t.civil.date.year)
    (hhigh : t.civil.date.year ≤ 9999) : strict t.stamp = .ok t := by
  obtain ⟨-, hdate, hhour, hminute, hsecond, hnano⟩ := Civil.isPossible_iff.mp t.civil_isPossible
  have hday := hdate.day_le
  have hmonth := hdate.2.1
  have hyear : (t.civil.date.year.natAbs : Int) = t.civil.date.year := Int.natAbs_of_nonneg hlow
  have hfinish := finish_civil t
  rw [stamp]
  generalize t.civil = c at *
  have hrest := not_digit_zone
  simp only [Civil.text, strict, List.append_assoc, List.cons_append, yearText]
  rw [if_pos ⟨hlow, hhigh⟩, exactly_fixed (by simp; omega)]
  simp only [bind, Except.bind, expect_cons]
  rw [exactly_fixed (by simp; omega)]
  simp only [expect_cons]
  rw [exactly_fixed (by simp; omega)]
  simp only [hyear, if_neg (not_not_intro hdate), dateEnd, true_or, if_true]
  rw [exactly_fixed (by simp; omega)]
  simp only [expect_cons]
  rw [exactly_fixed (by simp; omega)]
  simp only [expect_cons]
  rw [exactly_fixed (by simp; omega)]
  have hfraction := fraction_fixed (show 0 < 9 by decide) (by decide)
    (show c.nano < Nat.pow 10 9 by simpa using hnano) hrest
  simp only [hfraction]
  rw [if_neg (by omega), show c.nano * Nat.pow 10 (9 - 9) = c.nano from Nat.mul_one _]
  exact hfinish

end SandboxWorker.Instant
