import SandboxWorker.Proofs.Json.Wires
/-! Forms read straight from text. Each reads back from bytes what it has written, and stops where
its value ends; a record does so if each of its fields does. -/
namespace SandboxWorker.Json

def Wire.ReadsBack {α : Type} (w : Wire α) : Prop :=
  ∀ a rest, Ends rest → w.direct ((w.write a).bytes ++ rest) = .ok (a, rest)

namespace Wire

variable {α β : Type} {depth : Nat}

theorem readsBack_string : Wire.string.ReadsBack := by
  intro s rest _
  simp only [Wire.string, bytes_str, List.cons_append,
    skipBlanks_cons (show isBlank quote = false by decide), if_true, string_stringRest]

theorem ReadsBack.refine {w : Wire α} (h : w.ReadsBack) {read : α → Decoded β} {write : β → α}
    (hread : ∀ b, read (write b) = .ok b) : (w.refine read write).ReadsBack := by
  intro b rest hrest
  simp only [Wire.refine, h (write b) rest hrest, bind, Except.bind, hread]
  rfl

theorem readsBack_ofText {read : List Char → Decoded α} {text : α → List Char}
    (hread : ∀ a, read (text a) = .ok a) : (Wire.ofText read text).ReadsBack :=
  readsBack_string.refine fun a => by rw [String.toList_ofList, hread]

theorem integer_bytes {low high n : Int} (hlow : -0x8000000000000000 ≤ n) (hhigh : n < wordLimit)
    (hbounds : low ≤ n ∧ n ≤ high) {rest : Bytes} (hrest : Ends rest) :
    (integer low high).direct ((Json.int n).bytes ++ rest) = .ok (n, rest) := by
  have hnumber := numberValue_ofInt hlow hhigh hrest
  obtain ⟨b, bs, hbytes, hb⟩ := startsNumber_ofInt n
  rw [hbytes, List.cons_append] at hnumber
  simp only [integer, bytes, text, hbytes, List.cons_append,
    skipBlanks_cons (isBlank_of_startsNumber hb), if_pos hb, hnumber, bind, Except.bind, integerOf,
    if_pos hbounds]
  rfl

theorem readsBack_int64 : Wire.int64.ReadsBack := by
  intro n rest hrest
  have hread := integer_bytes n.le_toInt (Int.lt_trans n.toInt_lt (by decide))
    ⟨n.minValue_le_toInt, n.toInt_le⟩ hrest
  simp only [int64, refine, show (integer _ _).write n.toInt = Json.int n.toInt from rfl, hread,
    bind, Except.bind, Int64.ofInt_toInt]
  rfl

theorem readsBack_choice {all : List α} {name : α → String}
    (h : ∀ a, all.find? (name · == name a) = some a) : (Wire.choice all name).ReadsBack := by
  intro a rest _
  simp only [choice, bytes_str, List.cons_append,
    skipBlanks_cons (show isBlank quote = false by decide), if_neg (by decide : quote ≠ openBrace),
    if_true, string_stringRest, bind, Except.bind, named, h]
  rfl

theorem ReadsBack.optional {w : Wire α} (h : w.ReadsBack) (hlaw : w.Lawful depth)
    (hnull : ∀ a, w.write a ≠ .null) : w.optional.ReadsBack := by
  intro a rest hrest
  cases a with
  | none =>
    simp only [Wire.optional]
    rw [show Json.bytes .null = letterN :: nullTail from rfl, List.cons_append,
      skipBlanks_cons (by decide)]
    simp only [if_true, word_append]
    rfl
  | some a =>
    obtain ⟨b, bs, hbytes, hblank, -, hletter⟩ := (hlaw.readable a).first
    have hread := h a rest hrest
    rw [hbytes, List.cons_append] at hread
    simp only [Wire.optional, hbytes, List.cons_append, skipBlanks_cons hblank,
      if_neg (hletter (hnull a)), hread, bind, Except.bind]
    rfl

end Wire

namespace Fields

variable {α β : Type} {depth : Nat} {ns ms : List String}

structure ReadsBack (f : Fields α) : Prop where
  known : ∀ name, (f.directMember name).isSome = (f.bufferedMember name).isSome
  member : ∀ a, ∀ m ∈ f.write a, ∃ direct buffered, f.directMember m.1 = some direct ∧
    f.bufferedMember m.1 = some buffered ∧ ∀ s rest, Ends rest →
      direct s (colon :: (m.2.bytes ++ rest)) = (lift (buffered s m.2)).map (·, rest)

theorem readsBack_field {w : Wire α} (h : w.ReadsBack) (hlaw : w.Lawful depth) (name : String)
    (default : Default α) : (field name w default).ReadsBack where
  known found := by
    simp only [field]
    split <;> rfl
  member a m hm := by
    cases List.mem_singleton.mp hm
    refine ⟨_, _, if_neg (by simp), if_neg (by simp), fun s rest hrest => ?_⟩
    cases s with
    | none =>
      simp only [Option.isSome_none, Bool.false_eq_true, if_false, endKey_colon, h a rest hrest,
        hlaw.buffered, bind, Except.bind]
      rfl
    | some b => rfl

theorem ReadsBack.pair {f : Fields α} {g : Fields β} (hf : f.ReadsBack) (hg : g.ReadsBack)
    (hlaw : f.Lawful ns depth) (hlaw' : g.Lawful ms depth) (hapart : ∀ n ∈ ns, n ∉ ms) :
    (f.pair g).ReadsBack where
  known name := by
    have hknown := hf.known name
    have hknown' := hg.known name
    simp only [Fields.pair]
    cases hd : f.directMember name <;> cases hb : f.bufferedMember name <;>
      cases hd' : g.directMember name <;> cases hb' : g.bufferedMember name <;> simp_all
  member ab m hm := by
    rcases List.mem_append.mp hm with hm | hm
    · obtain ⟨direct, buffered, hdirect, hbuffered, hread⟩ := hf.member ab.1 m hm
      refine ⟨_, _, by simp only [Fields.pair, hdirect]; rfl, bufferedMember_fst g hbuffered,
        fun s rest hrest => ?_⟩
      simp only [hread s.1 rest hrest]
      cases buffered s.1 m.2 <;> rfl
    · obtain ⟨direct, buffered, hdirect, hbuffered, hread⟩ := hg.member ab.2 m hm
      have hforeign : f.bufferedMember m.1 = none := by
        rw [← Option.not_isSome_iff_eq_none, hlaw.known]
        exact fun hn => hapart m.1 hn (hlaw'.mem hm)
      have hforeign' : f.directMember m.1 = none := by
        rw [← Option.not_isSome_iff_eq_none, hf.known, hforeign]
        simp
      refine ⟨_, _, by simp only [Fields.pair, hforeign', hdirect]; rfl,
        by rw [bufferedMember_snd g hforeign, hbuffered]; rfl, fun s rest hrest => ?_⟩
      simp only [hread s.2 rest hrest]
      cases buffered s.2 m.2 <;> rfl

def bufferedNext (f : Fields α) (s : f.Slots) (m : String × Json) : Decoded f.Slots :=
  match f.bufferedMember m.1 with
  | some read => read s m.2
  | none => .ok s

theorem bufferedMembers_cons (f : Fields α) (s : f.Slots) (m : String × Json)
    (members : List (String × Json)) :
    f.bufferedMembers s (m :: members) =
      f.bufferedNext s m >>= fun t => f.bufferedMembers t members := by
  rw [bufferedMembers, bufferedNext]
  cases f.bufferedMember m.1 <;> rfl

theorem bufferedMembers_eq_foldlM (f : Fields α) (s : f.Slots) (members : List (String × Json)) :
    members.foldlM (fun s m => lift (f.bufferedNext s m)) s =
      lift (f.bufferedMembers s members) := by
  induction members generalizing s with
  | nil => rfl
  | cons m members ih =>
    rw [List.foldlM_cons, bufferedMembers_cons]
    cases f.bufferedNext s m with
    | error e => rfl
    | ok t => exact ih t

theorem ReadsBack.wire {f : Fields α} (h : f.ReadsBack) (hlaw : f.Lawful ns depth) :
    f.wire.ReadsBack := by
  intro a rest _
  obtain ⟨s, hread, hfinish⟩ := hlaw.buffered a
  have hstep : ∀ s, ∀ m ∈ f.write a, ∀ rest, Ends rest →
      wire.member f s m.1 (colon :: (m.2.bytes ++ rest)) =
        (lift (f.bufferedNext s m)).map (·, rest) := by
    intro s m hm rest hrest
    obtain ⟨direct, buffered, hdirect, hbuffered, hmember⟩ := h.member a m hm
    simp only [wire.member, hdirect, bufferedNext, hbuffered, hmember s rest hrest]
  have hlength := length_membersBytes (f.write a) true
  have hfold := bufferedMembers_eq_foldlM f f.empty (f.write a)
  simp only [Fields.wire, bytes_obj, List.cons_append, skipBlanks_cons
    (show isBlank openBrace = false by decide), if_true, encodeChars_membersText, List.append_assoc]
  rw [foldMembers_members (fun s m => lift (f.bufferedNext s m)) hstep
    (by rw [List.length_append]; omega), hfold, hread]
  simp only [lift, Except.map, bind, Except.bind, hfinish, endObject_end]
  rfl

end Fields

/-! ### Both ways of reading -/

structure Wire.Exact {α : Type} (w : Wire α) (depth : Nat) : Prop where
  lawful : w.Lawful depth
  readsBack : w.ReadsBack

structure Fields.Exact {α : Type} (f : Fields α) (names : List String) (depth : Nat) : Prop where
  lawful : f.Lawful names depth
  readsBack : f.ReadsBack

section Exact
variable {α β : Type} {depth : Nat} {ns ms : List String}

theorem Wire.exact_string : Wire.string.Exact depth :=
  ⟨lawful_string, readsBack_string⟩

theorem Wire.exact_int64 : Wire.int64.Exact depth :=
  ⟨lawful_int64, readsBack_int64⟩

theorem Wire.exact_ofText {read : List Char → Decoded α} {text : α → List Char}
    (h : ∀ a, read (text a) = .ok a) : (Wire.ofText read text).Exact depth :=
  ⟨lawful_ofText h, readsBack_ofText h⟩

theorem Wire.exact_choice {all : List α} {name : α → String}
    (h : ∀ a, all.find? (name · == name a) = some a) : (Wire.choice all name).Exact depth :=
  ⟨lawful_choice h, readsBack_choice h⟩

theorem Wire.Exact.refine {w : Wire α} (h : w.Exact depth) {read : α → Decoded β} {write : β → α}
    (hread : ∀ b, read (write b) = .ok b) : (w.refine read write).Exact depth :=
  ⟨h.lawful.refine hread, h.readsBack.refine hread⟩

theorem Wire.Exact.optional {w : Wire α} (h : w.Exact depth) (hnull : ∀ a, w.write a ≠ .null) :
    w.optional.Exact depth :=
  ⟨h.lawful.optional hnull, h.readsBack.optional h.lawful hnull⟩

theorem Wire.Exact.field {w : Wire α} (h : w.Exact depth) (name : String)
    (default : Fields.Default α) : (Fields.field name w default).Exact [name] depth :=
  ⟨Fields.lawful_field h.lawful name default,
    Fields.readsBack_field h.readsBack h.lawful name default⟩

theorem Fields.Exact.pair {f : Fields α} {g : Fields β} (hf : f.Exact ns depth)
    (hg : g.Exact ms depth) (hapart : ∀ n ∈ ns, n ∉ ms) : (f.pair g).Exact (ns ++ ms) depth :=
  ⟨hf.lawful.pair hg.lawful hapart,
    hf.readsBack.pair hg.readsBack hf.lawful hg.lawful hapart⟩

theorem Fields.Exact.wire {f : Fields α} (h : f.Exact ns depth) : f.wire.Exact (depth + 1) :=
  ⟨h.lawful.wire, h.readsBack.wire h.lawful⟩

theorem Wire.Exact.read_bytes {w : Wire α} (h : w.Exact depth) (a : α) :
    w.read (w.write a).bytes = .ok a := by
  have hread := h.readsBack a [] (fun _ hb => nomatch hb)
  rw [List.append_nil] at hread
  simp only [Wire.read, hread, bind, Except.bind]
  rfl

end Exact

theorem Wire.read_refine_eq_ok {α β : Type} {w : Wire α} {read : α → Decoded β} {write : β → α}
    {bs : Bytes} {b : β} :
    (w.refine read write).read bs = .ok b ↔ ∃ a, w.read bs = .ok a ∧ read a = .ok b := by
  simp only [Wire.read, Wire.refine, bind, Except.bind]
  cases hdirect : w.direct bs with
  | error e => simp
  | ok first =>
    obtain ⟨a, rest⟩ := first
    cases hread : read a with
    | error e => cases hend : endText rest <;> simp [lift, hread, hend, pure, Except.pure]
    | ok b' => cases hend : endText rest <;> simp [lift, hread, hend, pure, Except.pure]

end SandboxWorker.Json
