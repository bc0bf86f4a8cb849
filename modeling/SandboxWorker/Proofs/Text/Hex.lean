import SandboxWorker.Uuid
/-! Hexadecimal digits of fixed number, and the identifiers that are written in them: an identifier
is read back from its text. -/
namespace SandboxWorker

theorem Hex.of_mem_fixed {p : Char → Prop} (h : ∀ d, d < 16 → p (lower d)) {width n : Nat}
    {c : Char} (hc : c ∈ fixed width n) : p c := by
  induction width generalizing n with
  | zero => cases hc
  | succ width ih =>
    rw [fixed, List.mem_append, List.mem_singleton] at hc
    rcases hc with hfront | rfl
    · exact ih hfront
    · exact h _ (Nat.mod_lt _ (by decide))

namespace Uuid

theorem length_text (u : Uuid) : u.text.length = 36 := by
  simp [text, Hex.length_fixed]

theorem foldlM_fixed (width n m : Nat) :
    (Hex.fixed width n).foldlM (fun n c => (Hex.digit? c).map (n * 16 + ·)) m =
      some (m * Nat.pow 16 width + n % Nat.pow 16 width) := by
  induction width generalizing n with
  | zero => simp [Hex.fixed, Nat.mod_one]
  | succ width ih =>
    have hdigit := Hex.digit?_lower (Nat.mod_lt n (by decide : 0 < 16))
    have hpow : Nat.pow 16 (width + 1) = 16 * Nat.pow 16 width := Nat.pow_succ'
    have hfront : m * (16 * Nat.pow 16 width) = 16 * (m * Nat.pow 16 width) :=
      Nat.mul_left_comm _ _ _
    rw [Hex.fixed, List.foldlM_append, ih, hpow, Nat.mod_mul, hfront]
    simp only [List.foldlM_cons, List.foldlM_nil, hdigit, Option.map_some, bind, Option.bind, pure]
    rw [Nat.add_mul, Nat.mul_comm _ 16, Nat.mul_comm _ 16, Nat.add_assoc, Nat.add_comm (n % 16)]

variable {a b c d e : List Char}

theorem isGrouped_hyphens (ha : a.length = 8) (hb : b.length = 4) (hc : c.length = 4)
    (hd : d.length = 4) (he : e.length = 12) :
    isGrouped (a ++ '-' :: b ++ '-' :: c ++ '-' :: d ++ '-' :: e) = true := by
  simp [isGrouped, ha, hb, hc, hd, he]

theorem ofGrouped?_hyphens (ha : a.length = 8) (hb : b.length = 4) (hc : c.length = 4)
    (hd : d.length = 4) (he : e.length = 12) :
    ofGrouped? (a ++ '-' :: b ++ '-' :: c ++ '-' :: d ++ '-' :: e) =
      (ofHex? (a ++ b ++ c ++ d ++ e)).map fun n => ⟨BitVec.ofNat 128 n⟩ := by
  rw [ofGrouped?, isGrouped_hyphens ha hb hc hd he, if_pos rfl]
  simp [List.drop_append, List.drop_eq_nil_of_le, ha, hb, hc, hd]

/-- The groups overlap nowhere and leave no digit out. -/
theorem ofHex?_groups {n : Nat} (h : n < Nat.pow 2 128) :
    ofHex? (Hex.fixed 8 (n >>> 96) ++ Hex.fixed 4 (n >>> 80) ++ Hex.fixed 4 (n >>> 64) ++
      Hex.fixed 4 (n >>> 48) ++ Hex.fixed 12 n) = some n := by
  simp only [ofHex?, List.foldlM_append, foldlM_fixed, bind, Option.bind, Nat.shiftRight_eq_div_pow,
    Nat.pow_eq] at h ⊢
  congr 1
  omega

theorem ofChars?_text (u : Uuid) : ofChars? u.text = some u := by
  have hlength := u.length_text
  rw [ofChars?, if_neg (by omega), if_neg (by omega), if_neg (by omega), text,
    ofGrouped?_hyphens (by simp) (by simp) (by simp) (by simp) (by simp),
    ofHex?_groups u.bits.isLt, Option.map_some]
  simp

theorem text_inj {u v : Uuid} (h : u.text = v.text) : u = v := by
  have hread := u.ofChars?_text
  rw [h, v.ofChars?_text] at hread
  exact (Option.some.inj hread).symm

theorem toString_inj {u v : Uuid} (h : u.toString = v.toString) : u = v :=
  text_inj (String.ofList_inj.mp h)

end Uuid
end SandboxWorker
