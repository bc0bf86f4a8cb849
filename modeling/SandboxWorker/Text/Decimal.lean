/-! Decimal digits: writing naturals with or without padding, and reading runs of digits. -/
namespace SandboxWorker.Decimal

def digitChar (d : Nat) : Char := Char.ofNat (48 + d)

def digit? (c : Char) : Option Nat :=
  if 48 ≤ c.toNat ∧ c.toNat ≤ 57 then some (c.toNat - 48) else none

def isDigit (c : Char) : Bool := (digit? c).isSome

def digits (n : Nat) : List Char :=
  if n < 10 then [digitChar n] else digits (n / 10) ++ [digitChar (n % 10)]
termination_by n
decreasing_by omega

def fixed : Nat → Nat → List Char
  | 0, _ => []
  | width + 1, n => fixed width (n / 10) ++ [digitChar (n % 10)]

def padded (width n : Nat) : List Char :=
  if n < Nat.pow 10 width then fixed width n else digits n

def ofInt (i : Int) : List Char :=
  if i < 0 then '-' :: digits i.natAbs else digits i.natAbs

def value (cs : List Char) : Nat :=
  cs.foldl (fun n c => n * 10 + (c.toNat - 48)) 0

def nat? (cs : List Char) : Option Nat :=
  if cs.isEmpty || !cs.all isDigit then none else some (value cs)

/-- A natural below `bound`: digits, after an optional plus. -/
def natBelow? (bound : Nat) (cs : List Char) : Option Nat :=
  let body := match cs with
    | '+' :: r => r
    | _ => cs
  (nat? body).filter (· < bound)

def int64? (cs : List Char) : Option Int64 :=
  match cs with
  | '-' :: r => ((nat? r).filter (· ≤ 0x8000000000000000)).map fun n => Int64.ofInt (-n)
  | _ => (natBelow? 0x8000000000000000 cs).map fun n => Int64.ofInt n

theorem digitChar_toNat_all : ∀ d, d < 10 → (digitChar d).toNat = 48 + d := by decide

theorem toNat_digitChar {d : Nat} (h : d < 10) : (digitChar d).toNat = 48 + d :=
  digitChar_toNat_all d h

@[simp] theorem digit?_digitChar {d : Nat} (h : d < 10) : digit? (digitChar d) = some d := by
  simp only [digit?, toNat_digitChar h]
  rw [if_pos (by omega)]
  simp

@[simp] theorem length_fixed (width n : Nat) : (fixed width n).length = width := by
  induction width generalizing n with
  | zero => rfl
  | succ w ih => simp [fixed, ih]

theorem value_append_digit {cs : List Char} {d : Nat} (h : d < 10) :
    value (cs ++ [digitChar d]) = value cs * 10 + d := by
  simp [value, toNat_digitChar h]

theorem value_digits (n : Nat) : value (digits n) = n := by
  rw [digits]
  split
  · simp [value, toNat_digitChar (by assumption)]
  · rw [value_append_digit (by omega), value_digits (n / 10)]
    omega
termination_by n
decreasing_by omega

theorem value_fixed (width n : Nat) : value (fixed width n) = n % Nat.pow 10 width := by
  induction width generalizing n with
  | zero => simp [fixed, value, Nat.mod_one]
  | succ w ih =>
    rw [fixed, value_append_digit (by omega), ih, Nat.pow_eq, Nat.pow_eq, Nat.pow_succ',
      Nat.mod_mul]
    omega

end SandboxWorker.Decimal
