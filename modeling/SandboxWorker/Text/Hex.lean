/-! Hexadecimal digits: written in one case, read in both. -/
namespace SandboxWorker.Hex

def lower (d : Nat) : Char := if d < 10 then Char.ofNat (48 + d) else Char.ofNat (87 + d)

def upper (d : Nat) : Char := if d < 10 then Char.ofNat (48 + d) else Char.ofNat (55 + d)

def digit? (c : Char) : Option Nat :=
  let n := c.toNat
  if 48 ≤ n ∧ n ≤ 57 then some (n - 48)
  else if 97 ≤ n ∧ n ≤ 102 then some (n - 87)
  else if 65 ≤ n ∧ n ≤ 70 then some (n - 55)
  else none

def isDigit (c : Char) : Bool := (digit? c).isSome

def fixed : Nat → Nat → List Char
  | 0, _ => []
  | width + 1, n => fixed width (n / 16) ++ [lower (n % 16)]

theorem digit?_lower_all : ∀ d, d < 16 → digit? (lower d) = some d := by decide

theorem digit?_upper_all : ∀ d, d < 16 → digit? (upper d) = some d := by decide

@[simp] theorem digit?_lower {d : Nat} (h : d < 16) : digit? (lower d) = some d :=
  digit?_lower_all d h

@[simp] theorem digit?_upper {d : Nat} (h : d < 16) : digit? (upper d) = some d :=
  digit?_upper_all d h

@[simp] theorem length_fixed (width n : Nat) : (fixed width n).length = width := by
  induction width generalizing n with
  | zero => rfl
  | succ w ih => simp [fixed, ih]

end SandboxWorker.Hex
