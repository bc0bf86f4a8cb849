import Mathlib.Data.List.Basic
import Mathlib.Data.List.TakeWhile
import SandboxWorker.Proofs.Instant.Reading
import SandboxWorker.Proofs.Success
/-! The texts that the strict form reads as instants, and no others, are those of a date of the
calendar, a time of day and the zone of the clock that shows them. -/
namespace SandboxWorker.Instant
open Decimal (isDigit digit? value)

structure Digits (width : Nat) (ds : List Char) : Prop where
  length : ds.length = width
  digit : ∀ c ∈ ds, isDigit c = true

/-- A fraction of a second has any number of digits, and may be left out. -/
inductive IsFraction : List Char → Prop where
  | whole : IsFraction []
  | point {ds : List Char} (some : ds ≠ []) (digit : ∀ c ∈ ds, isDigit c = true) :
    IsFraction ('.' :: ds)

/-- A zone is universal time, or ahead of it or behind by less than a day. -/
inductive IsZone : List Char → Prop where
  | universal {c : Char} (letter : c = 'Z' ∨ c = 'z') : IsZone [c]
  | apart {sign : Char} {hours minutes : List Char}
    (signed : sign = '+' ∨ sign = '-' ∨ sign = '\u2212') (hours_digits : Digits 2 hours)
    (hours_lt : value hours < 24) (minutes_digits : Digits 2 minutes)
    (minutes_lt : value minutes < 60) : IsZone (sign :: (hours ++ ':' :: minutes))

/-- The text of an instant in the strict form. Second 60 is the leap second of any minute. -/
inductive IsTimestamp : List Char → Prop where
  | intro {year month day hour minute second fraction zone : List Char} {between : Char}
    (year_digits : Digits 4 year) (month_digits : Digits 2 month) (day_digits : Digits 2 day)
    (date : (⟨value year, value month, value day⟩ : Calendar.Date).Valid)
    (separated : between = 'T' ∨ between = 't' ∨ between = ' ')
    (hour_digits : Digits 2 hour) (hour_lt : value hour < 24)
    (minute_digits : Digits 2 minute) (minute_lt : value minute < 60)
    (second_digits : Digits 2 second) (second_le : value second ≤ 60)
    (fractional : IsFraction fraction) (zoned : IsZone zone) :
    IsTimestamp (year ++ '-' :: (month ++ '-' :: (day ++ between :: (hour ++ ':' ::
      (minute ++ ':' :: (second ++ (fraction ++ zone)))))))

/-! ### Reading in steps -/

theorem throw_else_eq_ok {α β : Type} {p : Prop} [Decidable p] {e : ReadError} {next : α → Read β}
    {read : Read β} {b : β} :
    (if p then (throw e : Read α) >>= next else read) = .ok b ↔ ¬p ∧ read = .ok b := by
  by_cases h : p <;> simp [h, throw, throwThe, MonadExceptOf.throw, bind, Except.bind]

theorem expect_eq_ok {c : Char} {cs rest : List Char} :
    expect c cs = .ok rest ↔ cs = c :: rest := by
  cases cs with
  | nil => simp [expect]
  | cons d cs =>
    by_cases h : d = c <;> simp [expect, h]

theorem dateEnd_eq_ok {cs rest : List Char} :
    dateEnd cs = .ok rest ↔ ∃ c, (c = 'T' ∨ c = 't' ∨ c = ' ') ∧ cs = c :: rest := by
  cases cs with
  | nil => simp [dateEnd]
  | cons c cs =>
    by_cases h : c = 'T' ∨ c = 't' ∨ c = ' '
    · simp only [dateEnd, if_pos h, Except.ok.injEq, List.cons.injEq]
      constructor
      · intro hcs
        exact ⟨c, h, rfl, hcs⟩
      · rintro ⟨-, -, -, hcs⟩
        exact hcs
    · simp only [dateEnd, if_neg h, List.cons.injEq, reduceCtorEq, false_iff]
      rintro ⟨_, hc, rfl, -⟩
      exact h hc

theorem digit?_eq_some {c : Char} {d : Nat} :
    digit? c = some d ↔ isDigit c = true ∧ c.toNat - 48 = d := by
  constructor
  · intro h
    have hdigit : isDigit c = true := by simp [isDigit, h]
    rw [Decimal.digit?_of_isDigit hdigit] at h
    exact ⟨hdigit, Option.some.inj h⟩
  · rintro ⟨hdigit, rfl⟩
    exact Decimal.digit?_of_isDigit hdigit

theorem exactly_go_eq_ok {width n m : Nat} {cs rest : List Char} :
    exactly.go width n cs = .ok (m, rest) ↔ ∃ ds, Digits width ds ∧ cs = ds ++ rest ∧
      ds.foldl (fun n c => n * 10 + (c.toNat - 48)) n = m := by
  constructor
  · intro h
    induction width generalizing n cs with
    | zero =>
      cases h
      exact ⟨[], ⟨rfl, by simp⟩, rfl, rfl⟩
    | succ width ih =>
      cases cs with
      | nil => cases h
      | cons c cs =>
        rw [exactly.go] at h
        split at h
        · rename_i d hd
          obtain ⟨hdigit, rfl⟩ := digit?_eq_some.mp hd
          obtain ⟨ds, hds, rfl, rfl⟩ := ih h
          refine ⟨c :: ds, ⟨by simp [hds.length], ?_⟩, rfl, rfl⟩
          simpa [hdigit] using hds.digit
        · cases h
  · rintro ⟨ds, hds, rfl, rfl⟩
    rw [← hds.length]
    exact exactly_go_digits hds.digit n rest

theorem exactly_eq_ok {width n : Nat} {cs rest : List Char} :
    exactly width cs = .ok (n, rest) ↔
      ∃ ds, Digits width ds ∧ cs = ds ++ rest ∧ value ds = n :=
  exactly_go_eq_ok

/-! ### The fraction -/

theorem digitRun_nine {ds rest : List Char} (hds : ∀ c ∈ ds, isDigit c = true) (hne : ds ≠ [])
    (hrest : ∀ c ∈ rest.head?, isDigit c = false) :
    digitRun 9 (ds ++ rest) = .ok (ds.take 9, ds.drop 9 ++ rest) := by
  have hfront : ∀ c ∈ ds.take 9, isDigit c = true := fun c hc => hds c (List.mem_of_mem_take hc)
  have hsplit : ds ++ rest = ds.take 9 ++ (ds.drop 9 ++ rest) := by
    rw [← List.append_assoc, List.take_append_drop]
  rw [hsplit]
  apply digitRun_digits hfront (by simp [hne]) (by rw [List.length_take]; omega)
  by_cases hlong : 9 ≤ ds.length
  · exact .inl (by simp [hlong])
  · rw [List.drop_eq_nil_of_le (by omega)]
    exact .inr hrest

theorem fraction_append {fs rest : List Char} (h : IsFraction fs)
    (hrest : ∀ c ∈ rest.head?, isDigit c = false ∧ c ≠ '.') :
    ∃ n, fraction (fs ++ rest) = .ok (n, rest) := by
  have hdigit : ∀ c ∈ rest.head?, isDigit c = false := fun c hc => (hrest c hc).1
  cases h with
  | whole =>
    refine ⟨0, ?_⟩
    cases rest with
    | nil => rfl
    | cons c rest =>
      rw [List.nil_append]
      unfold fraction
      split
      · rename_i heq
        exact absurd (List.cons.inj heq).1 (hrest c rfl).2
      · rfl
  | @point ds hne hds =>
    refine ⟨value (ds.take 9) * Nat.pow 10 (9 - (ds.take 9).length), ?_⟩
    rw [List.cons_append, fraction, digitRun_nine hds hne hdigit]
    simp only [bind, Except.bind]
    rw [dropWhile_append_of_head (fun c hc => hds c (List.mem_of_mem_drop hc)) hdigit]
    rfl

theorem digitRun_eq_ok {limit : Nat} {cs ds rest : List Char}
    (h : digitRun limit cs = .ok (ds, rest)) :
    cs = ds ++ rest ∧ ds ≠ [] ∧ ds.length ≤ limit ∧ ∀ c ∈ ds, isDigit c = true := by
  unfold digitRun at h
  have hstart := List.takeWhile_prefix isDigit (l := cs.take limit)
  have hdigits : ∀ c ∈ (cs.take limit).takeWhile isDigit, isDigit c = true :=
    fun c => List.mem_takeWhile_imp
  generalize (cs.take limit).takeWhile isDigit = run at *
  split at h
  · split at h <;> cases h
  · cases h
    refine ⟨?_, by assumption, ?_, hdigits⟩
    · exact (List.prefix_iff_eq_append.mp (hstart.trans (cs.take_prefix limit))).symm
    · exact hstart.length_le.trans (cs.length_take_le limit)

/-- Digits past the ninth do not count, so that no fraction is as long as a second. -/
theorem isFraction_of_fraction {cs rest : List Char} {n : Nat} (h : fraction cs = .ok (n, rest)) :
    n < 1000000000 ∧ ∃ fs, IsFraction fs ∧ cs = fs ++ rest := by
  unfold fraction at h
  split at h
  · rename_i cs
    obtain ⟨⟨ds, tail⟩, hrun, heq⟩ := bind_eq_ok.mp h
    cases heq
    obtain ⟨rfl, hne, hlength, hdigits⟩ := digitRun_eq_ok hrun
    refine ⟨?_, '.' :: (ds ++ tail.takeWhile isDigit), .point (by simp [hne]) ?_, by simp⟩
    · calc value ds * Nat.pow 10 (9 - ds.length)
          < Nat.pow 10 ds.length * Nat.pow 10 (9 - ds.length) :=
            Nat.mul_lt_mul_of_pos_right (Decimal.value_lt hdigits) (Nat.pow_pos (by decide))
        _ = 1000000000 := by
          rw [Nat.pow_eq, Nat.pow_eq, ← Nat.pow_add, Nat.add_sub_cancel' hlength]
    · simp only [List.forall_mem_append]
      exact ⟨hdigits, fun c => List.mem_takeWhile_imp⟩
  · cases h
    exact ⟨by decide, [], .whole, rfl⟩

/-! ### The zone -/

theorem zonePair_eq_ok {x y : Nat} {cs rest : List Char} :
    zonePair cs = .ok (x, y, rest) ↔
      y < 10 ∧ ∃ ds, Digits 2 ds ∧ cs = ds ++ rest ∧ value ds = x * 10 + y := by
  constructor
  · intro h
    unfold zonePair at h
    split at h
    · cases h
    · split at h <;> cases h
    · rename_i a b cs
      split at h
      · rename_i x y hx hy
        cases h
        obtain ⟨ha, rfl⟩ := digit?_eq_some.mp hx
        obtain ⟨hb, rfl⟩ := digit?_eq_some.mp hy
        have hbound := Decimal.isDigit_iff.mp hb
        exact ⟨by omega, [a, b], ⟨rfl, by simp [ha, hb]⟩, rfl, by simp [value]⟩
      · cases h
  · rintro ⟨hy, ds, hds, rfl, hvalue⟩
    obtain ⟨a, b, rfl⟩ := List.length_eq_two.mp hds.length
    have ha := hds.digit a (by simp)
    have hb := hds.digit b (by simp)
    have hbound := Decimal.isDigit_iff.mp hb
    simp only [value, List.foldl_cons, List.foldl_nil] at hvalue
    simp only [List.cons_append, List.nil_append, zonePair, Decimal.digit?_of_isDigit ha,
      Decimal.digit?_of_isDigit hb, Except.ok.injEq, Prod.mk.injEq, and_true]
    omega

theorem isZone_of_zone {cs : List Char} {offset : Int}
    (h : zone (expect ':') cs = .ok (offset, [])) :
    offset % 60 = 0 ∧ (offset.natAbs < 86400 → IsZone cs) := by
  cases cs with
  | nil => cases h
  | cons sign cs =>
    by_cases hletter : sign = 'Z' ∨ sign = 'z'
    · rw [zone, if_pos hletter] at h
      cases h
      exact ⟨rfl, fun _ => .universal hletter⟩
    · simp only [zone, if_neg hletter, throw_else_eq_ok, bind_eq_ok, Prod.exists, expect_eq_ok,
        zonePair_eq_ok] at h
      obtain ⟨hsign, h₁, h₂, _, ⟨hh₂, hours, hhours, rfl, hh⟩, _, rfl, m₁, m₂, _,
        ⟨hm₂, minutes, hminutes, rfl, hm⟩, hm₁, heq⟩ := h
      have hsigned : sign = '+' ∨ sign = '-' ∨ sign = '\u2212' := by
        by_contra hnot
        simp_all
      cases heq
      rw [List.append_nil]
      refine ⟨by split <;> omega, fun hlt => ?_⟩
      refine .apart hsigned hhours ?_ hminutes (by omega)
      split at hlt <;> omega

theorem zone_of_isZone {cs : List Char} (h : IsZone cs) :
    ∃ offset, zone (expect ':') cs = .ok (offset, []) ∧ offset.natAbs < 86400 := by
  cases h with
  | universal letter => exact ⟨0, if_pos letter, by decide⟩
  | @apart sign hours minutes signed hhours hh hminutes hm =>
    have hletter : ¬(sign = 'Z' ∨ sign = 'z') := by
      rcases signed with rfl | rfl | rfl <;> decide
    have hsign : ¬(sign ≠ '+' ∧ sign ≠ '-' ∧ sign ≠ '\u2212') := by
      rcases signed with rfl | rfl | rfl <;> decide
    have hpair : zonePair (hours ++ ':' :: minutes) =
        .ok (value hours / 10, value hours % 10, ':' :: minutes) :=
      zonePair_eq_ok.mpr ⟨by omega, hours, hhours, rfl, by omega⟩
    have hlast : zonePair minutes = .ok (value minutes / 10, value minutes % 10, []) :=
      zonePair_eq_ok.mpr ⟨by omega, minutes, hminutes, (List.append_nil _).symm, by omega⟩
    simp only [zone, if_neg hletter, throw_else_eq_ok, bind_eq_ok, Prod.exists, expect_eq_ok]
    refine ⟨_, ⟨hsign, _, _, _, hpair, _, rfl, _, _, _, hlast, by omega, rfl⟩, ?_⟩
    split <;> omega

/-! ### The instant -/

theorem dayNumber_bounds {d : Calendar.Date} (hlow : 0 ≤ d.year) (hhigh : d.year ≤ 9999)
    (hvalid : d.Valid) : -800000 ≤ d.dayNumber ∧ d.dayNumber ≤ 3000000 := by
  have hday := hvalid.day_le
  have hmonth : Calendar.daysBeforeMonth ((d.month + 9) % 12) ≤ 337 := by
    unfold Calendar.daysBeforeMonth
    omega
  simp only [Calendar.Date.dayNumber, Calendar.daysBeforeYear, Calendar.epoch]
  split <;> omega

/-- A zone of whole minutes keeps a leap second at the end of a minute, and years of four digits are
far from the ends of the range. -/
theorem finish_eq_ok {c : Civil} {offset : Int} (hlow : 0 ≤ c.date.year)
    (hhigh : c.date.year ≤ 9999) (hminutes : offset % 60 = 0) :
    (∃ t, finish c offset = .ok t) ↔ c.isPossible = true ∧ offset.natAbs < 86400 := by
  constructor
  · rintro ⟨t, h⟩
    unfold finish at h
    split at h
    · cases h
    · rename_i hfine
      simpa using hfine
  · rintro ⟨hpossible, hoffset⟩
    obtain ⟨-, hvalid, hhour, hminute, hsecond, hnano⟩ := Civil.isPossible_iff.mp hpossible
    have hday := dayNumber_bounds hlow hhigh hvalid
    have hsome : ∃ t, ofCivil? c offset = some t := by
      unfold ofCivil? ofSecond?
      refine ⟨_, dif_pos ?_⟩
      simp only [leastSecond, greatestSecond]
      by_cases hleap : c.second = 60
      · simp only [if_pos hleap]
        omega
      · simp only [if_neg hleap]
        omega
    obtain ⟨t, ht⟩ := hsome
    refine ⟨t, ?_⟩
    rw [finish, hpossible, if_neg (by simpa using hoffset), ht]

theorem Digits.value_lt {width : Nat} {ds : List Char} (h : Digits width ds) :
    value ds < Nat.pow 10 width :=
  h.length ▸ Decimal.value_lt h.digit

theorem IsZone.head {zone : List Char} (h : IsZone zone) :
    ∀ c ∈ zone.head?, isDigit c = false ∧ c ≠ '.' := by
  intro c hc
  cases h with
  | universal letter =>
    cases hc
    rcases letter with rfl | rfl <;> decide
  | apart signed =>
    cases hc
    rcases signed with rfl | rfl | rfl <;> decide

/-- The strict form reads the texts of timestamps, and nothing else. -/
theorem strict_eq_ok {cs : List Char} : (∃ t, strict cs = .ok t) ↔ IsTimestamp cs := by
  constructor
  · rintro ⟨t, h⟩
    simp only [strict, bind_eq_ok, Prod.exists, throw_else_eq_ok, exactly_eq_ok, expect_eq_ok,
      dateEnd_eq_ok] at h
    obtain ⟨_, _, ⟨year, hyear, rfl, rfl⟩, _, rfl, _, _, ⟨month, hmonth, rfl, rfl⟩, _, rfl, _, _,
      ⟨day, hday, rfl, rfl⟩, hdate, _, ⟨between, hbetween, rfl⟩, _, _, ⟨hour, hhour, rfl, rfl⟩, _,
      rfl, _, _, ⟨minute, hminute, rfl, rfl⟩, _, rfl, _, _, ⟨second, hsecond, rfl, rfl⟩, nano, _,
      hfraction, htime, offset, rest, hzone, hrest, hfinish⟩ := h
    obtain ⟨-, fraction, hfractional, rfl⟩ := isFraction_of_fraction hfraction
    have hend : rest = [] := by simpa using hrest
    rw [hend] at hzone
    obtain ⟨hwhole, hzoned⟩ := isZone_of_zone hzone
    have hbound : value year < 10000 := hyear.value_lt
    have hoffset := ((finish_eq_ok (by simp) (by simp; omega) hwhole).mp ⟨t, hfinish⟩).2
    exact .intro hyear hmonth hday (not_not.mp hdate) hbetween hhour (by omega) hminute (by omega)
      hsecond (by omega) hfractional (hzoned hoffset)
  · rintro @⟨year, month, day, hour, minute, second, fraction, zone, between, hyear, hmonth, hday,
      hdate, hbetween, hhour, hh, hminute, hm, hsecond, hs, hfractional, hzoned⟩
    obtain ⟨nano, hfraction⟩ := fraction_append hfractional hzoned.head
    obtain ⟨offset, hzone, hoffset⟩ := zone_of_isZone hzoned
    have hnano := (isFraction_of_fraction hfraction).1
    have hbound : value year < 10000 := hyear.value_lt
    have hpossible : (⟨⟨value year, value month, value day⟩, value hour, value minute, value second,
        nano⟩ : Civil).isPossible = true := by
      refine Civil.isPossible_iff.mpr ⟨?_, hdate, hh, hm, hs, hnano⟩
      change (-262143 : Int) ≤ value year ∧ (value year : Int) ≤ 262142
      omega
    obtain ⟨t, hfinish⟩ := (finish_eq_ok (by simp) (by simp; omega) (isZone_of_zone hzone).1).mpr
      ⟨hpossible, hoffset⟩
    refine ⟨t, ?_⟩
    simp only [strict, bind_eq_ok, Prod.exists, throw_else_eq_ok, exactly_eq_ok, expect_eq_ok,
      dateEnd_eq_ok]
    exact ⟨_, _, ⟨year, hyear, rfl, rfl⟩, _, rfl, _, _, ⟨month, hmonth, rfl, rfl⟩, _, rfl, _, _,
      ⟨day, hday, rfl, rfl⟩, not_not_intro hdate, _, ⟨between, hbetween, rfl⟩, _, _,
      ⟨hour, hhour, rfl, rfl⟩, _, rfl, _, _, ⟨minute, hminute, rfl, rfl⟩, _, rfl, _, _,
      ⟨second, hsecond, rfl, rfl⟩, nano, zone, hfraction, by omega, offset, [], hzone, by simp,
      hfinish⟩

end SandboxWorker.Instant
