import SandboxWorker.Json.Fields
import SandboxWorker.Proofs.Json.Values
/-! Wire forms that read what they write, and how they are put together. -/
namespace SandboxWorker.Json

/-- A form whose values are written readably, nested at most so deep, and read back. -/
structure Wire.Lawful {α : Type} (w : Wire α) (depth : Nat) : Prop where
  readable : ∀ a, Readable depth (w.write a)
  buffered : ∀ a, w.buffered (w.write a) = .ok a

namespace Wire

variable {α β : Type} {depth : Nat}

theorem lawful_string : Wire.string.Lawful depth where
  readable s := .str s
  buffered _ := rfl

theorem Lawful.refine {w : Wire α} (h : w.Lawful depth) {read : α → Decoded β} {write : β → α}
    (hread : ∀ b, read (write b) = .ok b) : (w.refine read write).Lawful depth where
  readable b := h.readable (write b)
  buffered b := by
    simp only [Wire.refine, h.buffered, bind, Except.bind, hread]

theorem lawful_ofText {read : List Char → Decoded α} {text : α → List Char}
    (hread : ∀ a, read (text a) = .ok a) : (Wire.ofText read text).Lawful depth :=
  lawful_string.refine fun a => by rw [String.toList_ofList, hread]

theorem lawful_int64 : Wire.int64.Lawful depth where
  readable n := .int n.le_toInt (Int.lt_trans n.toInt_lt (by decide))
  buffered n := by
    simp only [int64, refine, integer, integerOf, bind, Except.bind,
      if_pos (And.intro n.minValue_le_toInt n.toInt_le), Int64.ofInt_toInt]

theorem lawful_choice {all : List α} {name : α → String}
    (h : ∀ a, all.find? (name · == name a) = some a) : (Wire.choice all name).Lawful depth where
  readable a := .str (name a)
  buffered a := by
    simp only [choice, named, h]

theorem mapM_buffered {w : Wire α} (h : w.Lawful depth) (as : List α) :
    (as.map w.write).mapM w.buffered = .ok as := by
  induction as with
  | nil => rfl
  | cons a as ih =>
    rw [List.map_cons, List.mapM_cons, h.buffered, ih]
    rfl

theorem Lawful.list {w : Wire α} (h : w.Lawful depth) : w.list.Lawful (depth + 1) where
  readable _ := .arr (List.forall_mem_map.mpr fun a _ => h.readable a)
  buffered := mapM_buffered h

theorem Lawful.optional {w : Wire α} (h : w.Lawful depth) (hnull : ∀ a, w.write a ≠ .null) :
    w.optional.Lawful depth where
  readable a := by
    cases a with
    | none => exact .null
    | some a => exact h.readable a
  buffered a := by
    cases a with
    | none => rfl
    | some a =>
      have hread := h.buffered a
      have hne := hnull a
      simp only [Wire.optional]
      generalize w.write a = j at hread hne
      cases j with
      | null => exact absurd rfl hne
      | _ => simp only [hread, bind, Except.bind]; rfl

end Wire

structure Fields.Lawful {α : Type} (f : Fields α) (names : List String) (depth : Nat) : Prop where
  written : ∀ a, (f.write a).map Prod.fst = names
  readable : ∀ a, ∀ m ∈ f.write a, Readable depth m.2
  known : ∀ name, (f.bufferedMember name).isSome = true ↔ name ∈ names
  buffered : ∀ a, ∃ s, f.bufferedMembers f.empty (f.write a) = .ok s ∧ f.finish s = .ok a

namespace Fields

variable {α β : Type} {depth : Nat} {ns ms : List String}

theorem lawful_field {w : Wire α} (h : w.Lawful depth) (name : String) (default : Default α) :
    (field name w default).Lawful [name] depth where
  written _ := rfl
  readable a := by
    rintro m hm
    cases List.mem_singleton.mp hm
    exact h.readable a
  known found := by
    simp only [field]
    split <;> simp_all
  buffered a := by
    refine ⟨some a, ?_, rfl⟩
    simp only [bufferedMembers, field, ne_eq, not_true_eq_false, if_false, Option.isSome_none,
      h.buffered, bind, Except.bind]
    rfl

theorem bufferedMembers_append (f : Fields α) (s : f.Slots) (front back : List (String × Json)) :
    f.bufferedMembers s (front ++ back) =
      f.bufferedMembers s front >>= fun t => f.bufferedMembers t back := by
  induction front generalizing s with
  | nil => rfl
  | cons m front ih =>
    simp only [List.cons_append, bufferedMembers]
    cases f.bufferedMember m.1 with
    | none => exact ih s
    | some read =>
      cases hread : read s m.2 with
      | error e => simp only [hread]; rfl
      | ok t => simp only [hread]; exact ih t

theorem bufferedMember_fst {f : Fields α} (g : Fields β) {name : String}
    {read : f.Slots → Json → Decoded f.Slots} (h : f.bufferedMember name = some read) :
    (f.pair g).bufferedMember name = some fun s j => do return (← read s.1 j, s.2) := by
  simp only [pair, h]
  rfl

theorem bufferedMember_snd {f : Fields α} (g : Fields β) {name : String}
    (h : f.bufferedMember name = none) : (f.pair g).bufferedMember name =
      (g.bufferedMember name).map fun read s j => do return (s.1, ← read s.2 j) := by
  simp only [pair, h]
  rfl

theorem bufferedMembers_fst (f : Fields α) (g : Fields β) {members : List (String × Json)}
    (h : ∀ m ∈ members, (f.bufferedMember m.1).isSome = true) (s : f.Slots) (t : g.Slots) :
    (f.pair g).bufferedMembers (s, t) members = (f.bufferedMembers s members).map (·, t) := by
  induction members generalizing s with
  | nil => rfl
  | cons m members ih =>
    obtain ⟨read, hread⟩ := Option.isSome_iff_exists.mp (h m List.mem_cons_self)
    simp only [bufferedMembers, bufferedMember_fst g hread, hread]
    cases read s m.2 with
    | error e => rfl
    | ok u => exact ih (fun i hi => h i (List.mem_cons_of_mem _ hi)) u

theorem bufferedMembers_snd (f : Fields α) (g : Fields β) {members : List (String × Json)}
    (h : ∀ m ∈ members, f.bufferedMember m.1 = none) (s : f.Slots) (t : g.Slots) :
    (f.pair g).bufferedMembers (s, t) members = (g.bufferedMembers t members).map (s, ·) := by
  induction members generalizing t with
  | nil => rfl
  | cons m members ih =>
    have hrest := ih fun i hi => h i (List.mem_cons_of_mem _ hi)
    simp only [bufferedMembers, bufferedMember_snd g (h m List.mem_cons_self)]
    cases g.bufferedMember m.1 with
    | none => exact hrest t
    | some read =>
      change ((do return (s, ← read t m.2)) >>= fun u => (f.pair g).bufferedMembers u members) =
        (read t m.2 >>= fun u => g.bufferedMembers u members).map (s, ·)
      cases read t m.2 with
      | error e => rfl
      | ok u => exact hrest u

theorem Lawful.mem {f : Fields α} (h : f.Lawful ns depth) {a : α} {m : String × Json}
    (hm : m ∈ f.write a) : m.1 ∈ ns := by
  rw [← h.written a]
  exact List.mem_map_of_mem hm

theorem Lawful.pair {f : Fields α} {g : Fields β} (hf : f.Lawful ns depth) (hg : g.Lawful ms depth)
    (hapart : ∀ n ∈ ns, n ∉ ms) : (f.pair g).Lawful (ns ++ ms) depth where
  written ab := by
    simp only [Fields.pair, List.map_append, hf.written, hg.written]
  readable ab := List.forall_mem_append.mpr ⟨hf.readable ab.1, hg.readable ab.2⟩
  known name := by
    rw [List.mem_append, ← hf.known, ← hg.known]
    simp only [Fields.pair]
    cases f.bufferedMember name <;> cases g.bufferedMember name <;> simp
  buffered ab := by
    obtain ⟨s, hreadf, hfinishf⟩ := hf.buffered ab.1
    obtain ⟨t, hreadg, hfinishg⟩ := hg.buffered ab.2
    have hown : ∀ m ∈ f.write ab.1, (f.bufferedMember m.1).isSome = true :=
      fun m hm => (hf.known m.1).mpr (hf.mem hm)
    have hforeign : ∀ m ∈ g.write ab.2, f.bufferedMember m.1 = none := by
      intro m hm
      rw [← Option.not_isSome_iff_eq_none, hf.known]
      exact fun hn => hapart m.1 hn (hg.mem hm)
    refine ⟨(s, t), ?_, ?_⟩
    · have hfront := bufferedMembers_fst f g hown f.empty g.empty
      have hback := bufferedMembers_snd f g hforeign s g.empty
      have hsplit := bufferedMembers_append (f.pair g) (f.empty, g.empty) (f.write ab.1)
        (g.write ab.2)
      rw [hfront, hreadf] at hsplit
      rw [hreadg] at hback
      exact hsplit.trans hback
    · simp only [Fields.pair, hfinishf, hfinishg]
      rfl

theorem Lawful.wire {f : Fields α} (h : f.Lawful ns depth) : f.wire.Lawful (depth + 1) where
  readable a := .obj (h.readable a)
  buffered a := by
    obtain ⟨s, hread, hfinish⟩ := h.buffered a
    simp only [Fields.wire, hread, bind, Except.bind, hfinish]

end Fields
end SandboxWorker.Json
