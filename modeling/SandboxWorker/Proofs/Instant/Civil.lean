import SandboxWorker.Instant.Basic
/-! What clocks of universal time show at an instant is a possible civil time, and the only instant
at which they show it is this one. -/
namespace SandboxWorker

namespace Calendar

theorem daysBeforeYear_mono {a b : Int} (h : a ≤ b) : daysBeforeYear a ≤ daysBeforeYear b := by
  unfold daysBeforeYear
  omega

/-- January and February are months 10 and 11 of a year counted from March. -/
theorem MarchDay.date_year (d : MarchDay) :
    d.date.year = if d.day < 306 then d.year else d.year + 1 := by
  simp only [MarchDay.date]
  by_cases h : d.day < 306
  · rw [if_pos (by omega), if_pos h]
  · rw [if_neg (by omega), if_neg h]

/-- The first day in range is 1 January of its year and the last one 31 December of its year. -/
theorem ofDayNumber_year_bounds {n : Int} (hlow : leastSecond / 86400 ≤ n)
    (hhigh : n ≤ greatestSecond / 86400) :
    -262143 ≤ (Date.ofDayNumber n).year ∧ (Date.ofDayNumber n).year ≤ 262142 := by
  have hnumber := MarchDay.ofDayNumber_number n
  have hday := (MarchDay.ofDayNumber_day n).1
  rw [Date.ofDayNumber, MarchDay.date_year]
  generalize MarchDay.ofDayNumber n = d at *
  have hearly (y : Int) (h : d.year ≤ y) := daysBeforeYear_mono h
  have hlate (y : Int) (h : y ≤ d.year) := daysBeforeYear_mono h
  have h₁ := hearly (-262145)
  have h₂ := hearly (-262144)
  have h₃ := hlate 262142
  have h₄ := hlate 262143
  rw [show daysBeforeYear (-262145) = -95746496 by decide] at h₁
  rw [show daysBeforeYear (-262144) = -95746130 by decide] at h₂
  rw [show daysBeforeYear 262142 = 95745399 by decide] at h₃
  rw [show daysBeforeYear 262143 = 95745764 by decide] at h₄
  simp only [epoch, leastSecond, greatestSecond] at *
  split <;> omega

theorem Date.Valid.day_le {d : Date} (h : d.Valid) : d.day ≤ 31 := by
  refine Nat.le_trans h.2.2.2 ?_
  unfold daysInMonth
  split
  · split <;> decide
  · split <;> decide

end Calendar

namespace Instant

theorem Civil.isPossible_iff {c : Civil} : c.isPossible = true ↔
    (-262143 ≤ c.date.year ∧ c.date.year ≤ 262142) ∧ c.date.Valid ∧
      c.hour < 24 ∧ c.minute < 60 ∧ c.second ≤ 60 ∧ c.nano < 1000000000 := by
  simp only [isPossible, yearInRange, Bool.and_eq_true, decide_eq_true_iff, and_assoc]

theorem civil_clock (t : Instant) : ∃ n : Nat, n < 86400 ∧
    t.second = t.second / 86400 * 86400 + n ∧ t.civil.hour = n / 3600 ∧
    t.civil.minute = n / 60 % 60 ∧
    t.civil.second = if t.nano < 1000000000 then n % 60 else 60 := by
  have hnonneg := Int.emod_nonneg t.second (by decide : (86400 : Int) ≠ 0)
  have hlt := Int.emod_lt_of_pos t.second (by decide : (0 : Int) < 86400)
  refine ⟨(t.second % 86400).toNat, by omega, by omega, rfl, rfl, rfl⟩

theorem civil_isPossible (t : Instant) : t.civil.isPossible = true := by
  obtain ⟨n, hn, -, hhour, hminute, hsecond⟩ := t.civil_clock
  have hyear := Calendar.ofDayNumber_year_bounds
    (Int.ediv_le_ediv (by decide : (0 : Int) < 86400) t.least_le)
    (Int.ediv_le_ediv (by decide : (0 : Int) < 86400) t.le_greatest)
  have hvalid := Calendar.ofDayNumber_valid (t.second / 86400)
  have hnano : t.nano % 1000000000 < 1000000000 := Nat.mod_lt _ (by decide)
  rw [Civil.isPossible_iff, hhour, hminute, hsecond]
  refine ⟨hyear, hvalid, ?_, ?_, ?_, hnano⟩
  · omega
  · omega
  · split <;> omega

theorem ofCivil?_civil (t : Instant) : ofCivil? t.civil 0 = some t := by
  obtain ⟨n, hn, ht, hhour, hminute, hsecond⟩ := t.civil_clock
  have hday : t.civil.date.dayNumber = t.second / 86400 := Calendar.dayNumber_ofDayNumber _
  have hnano : t.civil.nano = t.nano % 1000000000 := rfl
  have hlt := t.nano_lt
  have hleap := t.leap_ends_minute
  rw [← ofSecond?_second_nano t, ofCivil?, hday, hhour, hminute, hsecond, hnano]
  by_cases hwhole : t.nano < 1000000000
  · rw [if_pos hwhole, if_neg (by omega), if_neg (by omega)]
    congr 1 <;> omega
  · rw [if_neg hwhole, if_pos rfl, if_pos rfl]
    congr 1 <;> omega

end Instant
end SandboxWorker
