import SandboxWorker.Instant.Calendar
/-! Instants of universal time with nanoseconds. A leap second is the stretch of nanoseconds past
one full second at the end of a minute, so it sorts after all of that minute and before the next. -/
namespace SandboxWorker

/-- The first second of year -262143. -/
def leastSecond : Int := -8334601228800

/-- The last second of year 262142. -/
def greatestSecond : Int := 8210266876799

@[ext] structure Instant where
  /-- Whole seconds since 1970, rounded down. -/
  second : Int
  nano : Nat
  nano_lt : nano < 2000000000
  leap_ends_minute : 1000000000 ≤ nano → second % 60 = 59
  least_le : leastSecond ≤ second
  le_greatest : second ≤ greatestSecond
deriving DecidableEq, Repr

namespace Instant

def before (a b : Instant) : Bool :=
  a.second < b.second || (a.second == b.second && a.nano < b.nano)

def notAfter (a b : Instant) : Bool := !b.before a

def ofSecond? (second : Int) (nano : Nat) : Option Instant :=
  if h : nano < 2000000000 ∧ (1000000000 ≤ nano → second % 60 = 59) ∧
      leastSecond ≤ second ∧ second ≤ greatestSecond then
    some ⟨second, nano, h.1, h.2.1, h.2.2.1, h.2.2.2⟩
  else none

@[simp] theorem ofSecond?_second_nano (t : Instant) : ofSecond? t.second t.nano = some t := by
  rw [ofSecond?, dif_pos ⟨t.nano_lt, t.leap_ends_minute, t.least_le, t.le_greatest⟩]

theorem before_irrefl (a : Instant) : a.before a = false := by
  simp [before]

theorem before_trans {a b c : Instant} (h : a.before b = true) (h' : b.before c = true) :
    a.before c = true := by
  simp only [before, Bool.or_eq_true, Bool.and_eq_true, decide_eq_true_eq, beq_iff_eq] at *
  omega

theorem eq_of_not_before {a b : Instant} (h : a.before b = false) (h' : b.before a = false) :
    a = b := by
  have ha : ¬ a.before b = true := by simp [h]
  have hb : ¬ b.before a = true := by simp [h']
  simp only [before, Bool.or_eq_true, Bool.and_eq_true, decide_eq_true_eq, beq_iff_eq] at ha hb
  ext <;> omega

structure Civil where
  date : Calendar.Date
  hour : Nat
  minute : Nat
  /-- 60 names the leap second of any minute. -/
  second : Nat
  nano : Nat

def yearInRange (year : Int) : Bool := -262143 ≤ year && year ≤ 262142

def Civil.isPossible (c : Civil) : Bool :=
  yearInRange c.date.year && decide c.date.Valid && c.hour < 24 && c.minute < 60 &&
    c.second ≤ 60 && c.nano < 1000000000

/-- The instant at which clocks `offset` seconds ahead of universal time show a civil time, unless
it is out of range. -/
def ofCivil? (c : Civil) (offset : Int) : Option Instant :=
  let inDay : Nat := c.hour * 3600 + c.minute * 60 + (if c.second = 60 then 59 else c.second)
  ofSecond? (c.date.dayNumber * 86400 + inDay - offset)
    (if c.second = 60 then c.nano + 1000000000 else c.nano)

def civil (t : Instant) : Civil :=
  let inDay := (t.second % 86400).toNat
  { date := Calendar.Date.ofDayNumber (t.second / 86400)
    hour := inDay / 3600
    minute := inDay / 60 % 60
    second := if t.nano < 1000000000 then inDay % 60 else 60
    nano := t.nano % 1000000000 }

end Instant
end SandboxWorker
