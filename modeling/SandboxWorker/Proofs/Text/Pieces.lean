import SandboxWorker.Proofs.Text.Utf8
/-! The bytes of a text read in pieces, each piece afresh. A cut inside a character leaves an
ill-formed part on both sides of it, so such pieces have more parts than the text has characters. -/
namespace SandboxWorker.Utf8

namespace Reader

def done : Reader → Bytes → List (Option Char)
  | _, [] => []
  | r, b :: bs => (r.step b).1 ++ (r.step b).2.done bs

def after : Reader → Bytes → Reader
  | r, [] => r
  | r, b :: bs => (r.step b).2.after bs

theorem parts_append (r : Reader) (x y : Bytes) :
    r.parts (x ++ y) = r.done x ++ (r.after x).parts y := by
  induction x generalizing r with
  | nil => rfl
  | cons b x ih => rw [List.cons_append, parts, ih, done, after, List.append_assoc]

theorem parts_eq (r : Reader) (bs : Bytes) : r.parts bs = r.done bs ++ (r.after bs).finish := by
  have happend := r.parts_append bs []
  rwa [List.append_nil] at happend

/-- Only continuation bytes lie between the bounds of an open character. -/
def Bounded : Reader → Prop
  | .clear => True
  | .inside _ _ low high => 0x80 ≤ low ∧ high ≤ 0xBF

theorem bounded_lead (b : UInt8) : (lead b).2.Bounded := by
  unfold lead
  repeat' split
  all_goals simp [Bounded]

theorem Bounded.step {r : Reader} (h : r.Bounded) (b : UInt8) : (r.step b).2.Bounded := by
  cases r with
  | clear => exact bounded_lead b
  | inside value owed low high =>
    rw [Reader.step]
    split
    · dsimp only
      split
      · exact trivial
      · exact ⟨by decide, by decide⟩
    · exact bounded_lead b

theorem Bounded.after {r : Reader} (h : r.Bounded) (bs : Bytes) : (r.after bs).Bounded := by
  induction bs generalizing r with
  | nil => exact h
  | cons b bs ih => exact ih (h.step b)

end Reader

theorem lead_continuation {b : UInt8} (hlow : 0x80 ≤ b) (hhigh : b ≤ 0xBF) :
    lead b = ([none], .clear) := by
  simp only [UInt8.le_iff_toNat_le, UInt8.reduceToNat] at hlow hhigh
  simp only [lead, UInt8.lt_iff_toNat_lt, UInt8.reduceToNat]
  rw [if_neg (by omega), if_pos (by omega)]

/-- Read afresh, the bytes that go on with a character have no fewer parts than when they are read
as going on with it. -/
theorem length_done_le {r : Reader} (h : r.Bounded) {bs : Bytes} (hwhole : none ∉ r.done bs) :
    (r.done bs).length ≤ (Reader.clear.parts bs).length := by
  induction bs generalizing r with
  | nil => exact Nat.zero_le _
  | cons b bs ih =>
    cases r with
    | clear =>
      rw [Reader.parts_eq, List.length_append]
      exact Nat.le_add_right _ _
    | inside value owed low high =>
      have hstep := h.step b
      rw [Reader.done, Reader.step] at hwhole ⊢
      rw [Reader.step] at hstep
      split at hwhole
      · rename_i hnext
        rw [if_pos hnext] at hstep ⊢
        -- The byte goes on with the character; read afresh, it is an ill-formed part of its own.
        have hlead := lead_continuation (UInt8.le_trans h.1 hnext.1) (UInt8.le_trans hnext.2 h.2)
        rw [parts_lead hlead, List.singleton_append, List.length_cons]
        dsimp only at hwhole hstep ⊢
        split at hwhole
        · rename_i hlast
          rw [if_pos hlast, List.singleton_append, List.length_cons]
          rw [List.singleton_append, List.mem_cons, not_or] at hwhole
          exact Nat.succ_le_succ (ih trivial hwhole.2)
        · rename_i hmore
          rw [if_neg hmore] at hstep ⊢
          rw [List.nil_append] at hwhole ⊢
          exact Nat.le_succ_of_le (ih hstep hwhole)
      · exact absurd List.mem_cons_self hwhole

theorem isSome_decode? {bs : Bytes} : (decode? bs).isSome ↔ none ∉ Reader.clear.parts bs := by
  rw [decode?, Option.isSome_map]
  induction Reader.clear.parts bs with
  | nil => simp
  | cons p ps ih =>
    rw [List.mapM_cons, List.mem_cons, not_or, ← ih]
    cases p with
    | none => simp
    | some c => cases ps.mapM id <;> simp

section Pieces
variable {pieces : List Bytes}

def partsOf (pieces : List Bytes) : List (Option Char) := pieces.flatMap Reader.clear.parts

theorem partsOf_cons (x : Bytes) (xs : List Bytes) :
    partsOf (x :: xs) = Reader.clear.parts x ++ partsOf xs := rfl

theorem join_decodeLossy (pieces : List Bytes) :
    String.join (pieces.map decodeLossy) =
      String.ofList ((partsOf pieces).map (·.getD '\uFFFD')) := by
  induction pieces with
  | nil => rfl
  | cons x xs ih =>
    rw [List.map_cons, String.join_cons, ih, partsOf_cons, List.map_append, String.ofList_append]
    rfl

theorem after_clear {bs : Bytes} (h : none ∉ Reader.clear.parts bs) :
    Reader.clear.after bs = .clear := by
  rw [Reader.parts_eq, List.mem_append, not_or] at h
  cases hend : Reader.clear.after bs with
  | clear => rfl
  | inside value owed low high =>
    rw [hend] at h
    exact absurd (List.mem_singleton_self none) h.2

theorem parts_append_of_clear {x : Bytes} (h : Reader.clear.after x = .clear) (y : Bytes) :
    Reader.clear.parts (x ++ y) = Reader.clear.parts x ++ Reader.clear.parts y := by
  rw [Reader.parts_append, Reader.parts_eq _ x, h, Reader.finish, List.append_nil]

theorem parts_flatten (h : ∀ x ∈ pieces, none ∉ Reader.clear.parts x) :
    Reader.clear.parts pieces.flatten = partsOf pieces := by
  induction pieces with
  | nil => rfl
  | cons x xs ih =>
    rw [List.flatten_cons, parts_append_of_clear (after_clear (h x List.mem_cons_self)),
      partsOf_cons, ih fun y hy => h y (List.mem_cons_of_mem x hy)]

theorem length_parts_flatten_le {r : Reader} (h : r.Bounded)
    (hwhole : none ∉ r.parts pieces.flatten) :
    (r.parts pieces.flatten).length ≤ (partsOf pieces).length := by
  -- On the pieces: whatever character the first one leaves open, the others go on with it.
  induction pieces generalizing r with
  | nil =>
    cases r with
    | clear => exact Nat.le_refl 0
    | inside value owed low high => exact absurd (List.mem_singleton_self none) hwhole
  | cons x xs ih =>
    rw [List.flatten_cons, Reader.parts_append] at hwhole ⊢
    rw [List.mem_append, not_or] at hwhole
    have hx := length_done_le h hwhole.1
    have hxs := ih (h.after x) hwhole.2
    rw [partsOf_cons, List.length_append, List.length_append]
    omega

/-- Where the first ill-formed piece ends, a character is open, and it counts twice. -/
theorem length_parts_flatten_lt (hwhole : none ∉ Reader.clear.parts pieces.flatten)
    (hcut : ¬∀ x ∈ pieces, none ∉ Reader.clear.parts x) :
    (Reader.clear.parts pieces.flatten).length < (partsOf pieces).length := by
  induction pieces with
  | nil => exact absurd (fun x hx => absurd hx List.not_mem_nil) hcut
  | cons x xs ih =>
    rw [List.flatten_cons] at hwhole ⊢
    rw [partsOf_cons, List.length_append]
    cases hend : Reader.clear.after x with
    | clear =>
      rw [parts_append_of_clear hend, List.mem_append, not_or] at hwhole
      have hrest : ¬∀ y ∈ xs, none ∉ Reader.clear.parts y :=
        fun h => hcut (List.forall_mem_cons.mpr ⟨hwhole.1, h⟩)
      rw [parts_append_of_clear hend, List.length_append]
      exact Nat.add_lt_add_left (ih hwhole.2 hrest) _
    | inside value owed low high =>
      have hclear : Reader.clear.Bounded := trivial
      have hbounded := hclear.after x
      rw [Reader.parts_append, List.mem_append, not_or] at hwhole
      have hrest := length_parts_flatten_le hbounded hwhole.2
      rw [Reader.parts_append, Reader.parts_eq _ x, List.length_append, List.length_append, hend,
        Reader.finish, List.length_singleton]
      rw [hend] at hrest
      omega

/-- Pieces of the bytes of a text that are read one by one give the text just if no cut falls inside
a character. -/
theorem join_decodeLossy_eq_iff {text : String} (h : pieces.flatten = encode text) :
    String.join (pieces.map decodeLossy) = text ↔ ∀ x ∈ pieces, (decode? x).isSome := by
  have hparts : Reader.clear.parts pieces.flatten = text.toList.map some := by
    rw [h, encode, parts_encodeChars]
  simp only [isSome_decode?]
  constructor
  · intro hjoin
    refine Classical.byContradiction fun hcut => ?_
    have hlt := length_parts_flatten_lt (by simp [hparts]) hcut
    rw [join_decodeLossy] at hjoin
    rw [hparts, ← hjoin, String.toList_ofList, List.length_map, List.length_map] at hlt
    exact Nat.lt_irrefl _ hlt
  · intro hall
    rw [join_decodeLossy, ← parts_flatten hall, ← decodeLossy, h, decodeLossy_encode]

end Pieces
end SandboxWorker.Utf8
