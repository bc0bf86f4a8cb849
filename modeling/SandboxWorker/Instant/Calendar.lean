/-! Days of the proleptic Gregorian calendar. A year is counted from March, so that the leap day
comes last; the days before such a year are then one formula for all years. -/
namespace SandboxWorker.Calendar

structure Date where
  year : Int
  month : Nat
  day : Nat
deriving DecidableEq, Repr

def isLeap (year : Int) : Bool :=
  year % 4 == 0 && (year % 100 != 0 || year % 400 == 0)

def daysInMonth (year : Int) (month : Nat) : Nat :=
  if month = 2 then if isLeap year then 29 else 28
  else if month = 4 ∨ month = 6 ∨ month = 9 ∨ month = 11 then 30
  else 31

def Date.Valid (d : Date) : Prop :=
  1 ≤ d.month ∧ d.month ≤ 12 ∧ 1 ≤ d.day ∧ d.day ≤ daysInMonth d.year d.month

instance (d : Date) : Decidable d.Valid := by unfold Date.Valid; infer_instance

/-- Days from 1 March of year 0 to 1 March of `year`. -/
def daysBeforeYear (year : Int) : Int := 365 * year + year / 4 - year / 100 + year / 400

/-- Days from 1 March to the first day of a month; month 0 is March. -/
def daysBeforeMonth (month : Nat) : Nat := (153 * month + 2) / 5

/-- Day 0 is 1970-01-01, this many days after 1 March of year 0. -/
def epoch : Int := 719468

/-- Days since 1970-01-01, negative before. -/
def Date.dayNumber (d : Date) : Int :=
  let year := if d.month ≤ 2 then d.year - 1 else d.year
  daysBeforeYear year + (daysBeforeMonth ((d.month + 9) % 12) + d.day - 1 : Int) - epoch

/-- A day as a year counted from March and the days that have passed in it. -/
structure MarchDay where
  year : Int
  day : Nat

/-- Whole eras of 400 years, centuries, leap periods and years are taken off in turn; the last
century of an era and the last year of a leap period have one day more. -/
def MarchDay.ofDayNumber (n : Int) : MarchDay :=
  let era := (n + epoch) / 146097
  let inEra := (n + epoch) % 146097
  let century := min 3 (inEra / 36524)
  let inCentury := inEra - 36524 * century
  let period := inCentury / 1461
  let inPeriod := inCentury % 1461
  let year := min 3 (inPeriod / 365)
  { year := 400 * era + 100 * century + 4 * period + year
    day := (inPeriod - 365 * year).toNat }

def MarchDay.date (d : MarchDay) : Date :=
  let month := (5 * d.day + 2) / 153
  { year := if month < 10 then d.year else d.year + 1
    month := if month < 10 then month + 3 else month - 9
    day := d.day - daysBeforeMonth month + 1 }

def Date.ofDayNumber (n : Int) : Date := (MarchDay.ofDayNumber n).date

/-- The pieces taken off a day number: each lies in its range and together they are the day. -/
theorem MarchDay.ofDayNumber_pieces (n : Int) : ∃ era century period year : Int, ∃ day : Nat,
    MarchDay.ofDayNumber n = ⟨400 * era + 100 * century + 4 * period + year, day⟩ ∧
    (0 ≤ century ∧ century ≤ 3) ∧ (0 ≤ period ∧ period ≤ 24) ∧ (0 ≤ year ∧ year ≤ 3) ∧
    day ≤ 365 ∧ (day = 365 → year = 3 ∧ (period = 24 → century = 3)) ∧
    n + epoch = 146097 * era + 36524 * century + 1461 * period + 365 * year + day := by
  have hera := Int.mul_ediv_add_emod (n + epoch) 146097
  have h0 := Int.emod_nonneg (n + epoch) (by decide : (146097 : Int) ≠ 0)
  have h1 := Int.emod_lt_of_pos (n + epoch) (by decide : (0 : Int) < 146097)
  refine ⟨_, _, _, _, _, rfl, ?_⟩
  revert hera h0 h1
  generalize (n + epoch) / 146097 = era
  generalize (n + epoch) % 146097 = inEra
  intro hera h0 h1
  have hc : 0 ≤ min 3 (inEra / 36524) ∧ min 3 (inEra / 36524) ≤ 3 ∧
      0 ≤ inEra - 36524 * min 3 (inEra / 36524) ∧
      inEra - 36524 * min 3 (inEra / 36524) ≤ 36524 ∧
      (inEra - 36524 * min 3 (inEra / 36524) = 36524 → min 3 (inEra / 36524) = 3) := by omega
  revert hc
  generalize min 3 (inEra / 36524) = century
  intro hc
  obtain ⟨inCentury, hi⟩ : ∃ m, inEra - 36524 * century = m := ⟨_, rfl⟩
  rw [hi] at hc ⊢
  have hp : 0 ≤ inCentury / 1461 ∧ inCentury / 1461 ≤ 24 ∧
      inCentury = 1461 * (inCentury / 1461) + inCentury % 1461 ∧
      0 ≤ inCentury % 1461 ∧ inCentury % 1461 ≤ 1460 := by omega
  revert hp
  generalize inCentury / 1461 = period
  generalize inCentury % 1461 = inPeriod
  intro hp
  have hy : 0 ≤ min 3 (inPeriod / 365) ∧ min 3 (inPeriod / 365) ≤ 3 ∧
      0 ≤ inPeriod - 365 * min 3 (inPeriod / 365) ∧
      inPeriod - 365 * min 3 (inPeriod / 365) ≤ 365 ∧
      (inPeriod - 365 * min 3 (inPeriod / 365) = 365 → min 3 (inPeriod / 365) = 3) := by omega
  revert hy
  generalize min 3 (inPeriod / 365) = year
  intro hy
  omega

/-- The day lies in its year, and is the 366th only where the next February is long. -/
theorem MarchDay.ofDayNumber_day (n : Int) :
    (MarchDay.ofDayNumber n).day ≤ 365 ∧
      ((MarchDay.ofDayNumber n).day = 365 → isLeap ((MarchDay.ofDayNumber n).year + 1) = true) := by
  obtain ⟨era, century, period, year, day, he, hc, hp, hy, hd, hl, _⟩ :=
    MarchDay.ofDayNumber_pieces n
  rw [he]
  refine ⟨hd, fun h => ?_⟩
  obtain ⟨rfl, hlast⟩ := hl h
  simp only [isLeap, Bool.and_eq_true, Bool.or_eq_true, beq_iff_eq, bne_iff_ne]
  refine ⟨by omega, ?_⟩
  by_cases h24 : period = 24
  · obtain rfl := hlast h24
    exact Or.inr (by omega)
  · exact Or.inl (by omega)

theorem MarchDay.ofDayNumber_number (n : Int) :
    daysBeforeYear (MarchDay.ofDayNumber n).year + (MarchDay.ofDayNumber n).day - epoch = n := by
  obtain ⟨era, century, period, year, day, he, hc, hp, hy, _, _, hn⟩ :=
    MarchDay.ofDayNumber_pieces n
  rw [he]
  have h4 : (400 * era + 100 * century + 4 * period + year) / 4 =
      100 * era + 25 * century + period := by omega
  have h100 : (400 * era + 100 * century + 4 * period + year) / 100 = 4 * era + century := by omega
  have h400 : (400 * era + 100 * century + 4 * period + year) / 400 = era := by omega
  simp only [daysBeforeYear, h4, h100, h400]
  omega

theorem MarchDay.dayNumber_date (d : MarchDay) (h : d.day ≤ 365) :
    d.date.dayNumber = daysBeforeYear d.year + d.day - epoch := by
  obtain ⟨month, hm⟩ : ∃ m, (5 * d.day + 2) / 153 = m := ⟨_, rfl⟩
  have hb : daysBeforeMonth month ≤ d.day := by unfold daysBeforeMonth; omega
  have hle : month ≤ 11 := by omega
  simp only [MarchDay.date, Date.dayNumber, hm]
  by_cases h10 : month < 10
  · rw [if_pos h10, if_pos h10, if_neg (by omega : ¬ month + 3 ≤ 2),
      show (month + 3 + 9) % 12 = month by omega]
    omega
  · rw [if_neg h10, if_neg h10, if_pos (by omega : month - 9 ≤ 2),
      show (month - 9 + 9) % 12 = month by omega, Int.add_sub_cancel]
    omega

theorem MarchDay.date_valid (d : MarchDay) (h : d.day ≤ 365)
    (h' : d.day = 365 → isLeap (d.year + 1) = true) : d.date.Valid := by
  obtain ⟨month, hm⟩ : ∃ m, (5 * d.day + 2) / 153 = m := ⟨_, rfl⟩
  have hle : month ≤ 11 := by omega
  have hday : d.day < (153 * (month + 1) + 2) / 5 := by omega
  simp only [MarchDay.date, Date.Valid, hm, daysInMonth, daysBeforeMonth]
  by_cases h10 : month < 10
  · rw [if_pos h10, if_pos h10, if_neg (by omega : ¬ month + 3 = 2)]
    refine ⟨by omega, by omega, by omega, ?_⟩
    rcases (by omega : month = 0 ∨ month = 1 ∨ month = 2 ∨ month = 3 ∨ month = 4 ∨ month = 5 ∨
      month = 6 ∨ month = 7 ∨ month = 8 ∨ month = 9) with
      rfl | rfl | rfl | rfl | rfl | rfl | rfl | rfl | rfl | rfl <;> simp <;> omega
  · rw [if_neg h10, if_neg h10]
    rcases (by omega : month = 10 ∨ month = 11) with rfl | rfl
    · simp; omega
    · cases hl : isLeap (d.year + 1)
      · have hd : d.day ≠ 365 := fun e => by simp [hl] at h'; exact h' e
        simp; omega
      · simp; omega

/-- Every day number is the number of its own date. -/
theorem dayNumber_ofDayNumber (n : Int) : (Date.ofDayNumber n).dayNumber = n := by
  rw [Date.ofDayNumber, MarchDay.dayNumber_date _ (MarchDay.ofDayNumber_day n).1,
    MarchDay.ofDayNumber_number]

theorem ofDayNumber_valid (n : Int) : (Date.ofDayNumber n).Valid :=
  MarchDay.date_valid _ (MarchDay.ofDayNumber_day n).1 (MarchDay.ofDayNumber_day n).2

end SandboxWorker.Calendar
