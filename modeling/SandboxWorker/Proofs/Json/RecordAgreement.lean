import SandboxWorker.Proofs.Json.Agreement
import SandboxWorker.Proofs.Json.Direct
/-! A record is read from text as it is from the tree, member by member or field by field, if each of
its fields is. -/
namespace SandboxWorker.Json
open Utf8 (encodeChars)
open Datum (Text Reads ReadsContent itemsRest entriesRest closing contentRest)

namespace Fields
variable {α β : Type}

def itemTrees (items : List Item) : List Json := items.map fun i => i.datum.tree unread

/-- What reading fields in order gives of an array: the bytes that are left are those of the items
that are left. -/
structure RowAgrees (read : Outcome (α × Bool × Bytes)) (expected : Decoded (α × List Json))
    (items : List Item) (gap : Gap) (rest : Bytes) : Prop where
  ok : ∀ {a js}, expected = .ok (a, js) → ∃ first left, left <:+ items ∧ js = itemTrees left ∧
    read = .ok (a, first, itemsRest first left gap rest)
  error : ∀ {e}, expected = .error e → read.toOption = none

theorem RowAgrees.refused {read : Outcome (α × Bool × Bytes)} {e : DataError} {items : List Item}
    {gap : Gap} {rest : Bytes} (h : read.toOption = none) :
    RowAgrees read (.error e) items gap rest where
  ok hok := by cases hok
  error _ := h

theorem RowAgrees.taken {left items : List Item} (hleft : left <:+ items) (a : α) (first : Bool)
    (gap : Gap) (rest : Bytes) : RowAgrees (.ok (a, first, itemsRest first left gap rest))
      (.ok (a, itemTrees left)) items gap rest where
  ok hok := by
    cases hok
    exact ⟨first, left, hleft, rfl, rfl⟩
  error herror := by cases herror

/-- Two readers of one member that agree, or none for a name that is unknown. -/
inductive MemberAgrees {σ : Type} : Option (σ → Bytes → Outcome (σ × Bytes)) →
    Option (σ → Json → Decoded σ) → Prop where
  | unknown : MemberAgrees none none
  | known {direct : σ → Bytes → Outcome (σ × Bytes)} {buffered : σ → Json → Decoded σ}
    (h : ∀ s (e : Entry), Text e.datum e.text →
      ReadsContent (direct s) e (buffered s (e.datum.tree unread)).toOption) :
    MemberAgrees (some direct) (some buffered)

structure Agrees (f : Fields α) : Prop where
  member : ∀ name, MemberAgrees (f.directMember name) (f.bufferedMember name)
  row : ∀ {items : List Item}, (∀ i ∈ items, Text i.datum i.text) → ∀ first gap rest,
    RowAgrees (f.directRow first (itemsRest first items gap rest))
      (f.bufferedRow (itemTrees items)) items gap rest

theorem agrees_field {w : Wire α} (h : w.Agrees) (name : String) (default : Default α) :
    (field name w default).Agrees where
  member found := by
    simp only [field]
    split
    · exact .unknown
    · refine .known fun s e htext rest hrest => ?_
      cases s with
      | some a => rfl
      | none =>
        simp only [Option.isSome_none, Bool.false_eq_true, if_false, contentRest,
          Datum.endKey_spaced, toOption_bind, toOption_ok, Option.bind_some,
          h htext e.afterColon rest hrest]
        cases (w.buffered (e.datum.tree unread)).toOption <;> rfl
  row := by
    intro items each first gap rest
    cases items with
    | nil =>
      have hnone : nextElement first (itemsRest first [] gap rest) = .ok none :=
        Datum.nextElement_closing first
      simp only [field, itemTrees, List.map_nil, hnone, bind, Except.bind]
      cases default.short with
      | none => exact .refused rfl
      | some a => exact .taken List.nil_suffix a first gap rest
    | cons i items =>
      have htext := each i List.mem_cons_self
      have hstart := htext.starts.append (itemsRest false items gap rest)
      have hread := (h htext).alone (Datum.stops_itemsRest items gap rest)
      have hdirect : (field name w default).directRow first (itemsRest first (i :: items) gap rest) =
          (w.direct (encodeChars i.text ++ itemsRest false items gap rest)).map fun p =>
            (p.1, false, p.2) := by
        simp only [field, Datum.itemsRest_cons, Datum.nextElement_spaced first _ _ hstart, bind,
          Except.bind]
        cases w.direct (encodeChars i.text ++ itemsRest false items gap rest) <;> rfl
      have hexpected : (field name w default).bufferedRow (itemTrees (i :: items)) =
          (w.buffered (i.datum.tree unread)).map (·, itemTrees items) := by
        simp only [field, itemTrees, List.map_cons, bind, Except.bind]
        cases w.buffered (i.datum.tree unread) <;> rfl
      rw [hdirect, hexpected]
      cases hbuffered : w.buffered (i.datum.tree unread) with
      | error e =>
        rw [hbuffered] at hread
        exact .refused (by rw [toOption_map, hread]; rfl)
      | ok a =>
        rw [hbuffered, toOption_ok, Option.map_some, toOption_eq_some] at hread
        rw [hread]
        exact .taken (List.suffix_cons i items) a false gap rest

theorem Agrees.pair {f : Fields α} {g : Fields β} (hf : f.Agrees) (hg : g.Agrees) :
    (f.pair g).Agrees where
  member name := by
    have hfirst := hf.member name
    have hsecond := hg.member name
    simp only [Fields.pair]
    generalize f.directMember name = fd at hfirst ⊢
    generalize f.bufferedMember name = fb at hfirst ⊢
    generalize g.directMember name = gd at hsecond ⊢
    generalize g.bufferedMember name = gb at hsecond ⊢
    cases hfirst with
    | @known direct buffered hread =>
      refine .known fun s e htext rest hrest => ?_
      simp only [toOption_bind, hread s.1 e htext rest hrest]
      cases (buffered s.1 (e.datum.tree unread)).toOption <;> rfl
    | unknown =>
      cases hsecond with
      | unknown => exact .unknown
      | @known direct buffered hread =>
        refine .known fun s e htext rest hrest => ?_
        simp only [toOption_bind, hread s.2 e htext rest hrest]
        cases (buffered s.2 (e.datum.tree unread)).toOption <;> rfl
  row := by
    intro items each first gap rest
    have hfirst := hf.row each first gap rest
    simp only [Fields.pair]
    cases hf' : f.bufferedRow (itemTrees items) with
    | error e =>
      refine .refused ?_
      rw [toOption_bind, hfirst.error hf']
      rfl
    | ok p =>
      obtain ⟨a, js⟩ := p
      obtain ⟨second, left, hleft, rfl, hread⟩ := hfirst.ok hf'
      have hsecond := hg.row (fun i hi => each i (hleft.subset hi)) second gap rest
      rw [hread]
      simp only [bind, Except.bind]
      cases hg' : g.bufferedRow (itemTrees left) with
      | error e =>
        refine .refused ?_
        have hnone := hsecond.error hg'
        cases hread' : g.directRow second (itemsRest second left gap rest) with
        | error e => rfl
        | ok q =>
          rw [hread'] at hnone
          cases hnone
      | ok q =>
        obtain ⟨b, js⟩ := q
        obtain ⟨third, last, hlast, rfl, hread'⟩ := hsecond.ok hg'
        rw [hread']
        exact .taken (hlast.trans hleft) (a, b) third gap rest

/-! ### Records -/

def memberNext (f : Fields α) (s : f.Slots) (name : String) (d : Datum) : Option f.Slots :=
  (f.bufferedNext s (name, d.tree unread)).toOption

theorem Agrees.readsMember {f : Fields α} (h : f.Agrees) (s : f.Slots) (name : String) {e : Entry}
    (htext : Text e.datum e.text) :
    ReadsContent (wire.member f s name) e (f.memberNext s name e.datum) := by
  intro rest hrest
  have hmember := h.member name
  simp only [wire.member, memberNext, bufferedNext]
  generalize f.directMember name = direct at hmember ⊢
  generalize f.bufferedMember name = buffered at hmember ⊢
  cases hmember with
  | known hread => exact hread s e htext rest hrest
  | unknown =>
    simp only [contentRest, Datum.endKey_spaced, toOption_bind, toOption_ok, Option.bind_some,
      htext.reads_skip e.afterColon rest hrest]
    rfl

theorem foldlM_memberNext (f : Fields α) (members : List (Units × Datum)) (s : f.Slots) :
    members.foldlM (fun s m => (string? m.1).bind fun name => f.memberNext s name m.2) s =
      (Datum.memberTrees unread members).bind fun trees => (f.bufferedMembers s trees).toOption := by
  induction members generalizing s with
  | nil => rfl
  | cons m members ih =>
    obtain ⟨us, d⟩ := m
    rw [List.foldlM_cons, Datum.memberTrees]
    cases string? us with
    | none => rfl
    | some name =>
      have hnext : ∀ trees, (f.bufferedMembers s ((name, d.tree unread) :: trees)).toOption =
          (f.memberNext s name d).bind fun t => (f.bufferedMembers t trees).toOption := by
        intro trees
        rw [bufferedMembers_cons, toOption_bind, memberNext]
      simp only [Option.bind_some]
      cases hs : f.memberNext s name d with
      | none =>
        cases Datum.memberTrees unread members with
        | none => rfl
        | some trees =>
          rw [Option.map_some, Option.bind_some, hnext, hs]
          rfl
      | some t =>
        refine (ih t).trans ?_
        cases Datum.memberTrees unread members with
        | none => rfl
        | some trees =>
          rw [Option.map_some, Option.bind_some, Option.bind_some, hnext, hs]
          rfl

theorem endArray_items {i : Item} (h : Text i.datum i.text) (items : List Item) (first : Bool)
    (gap : Gap) (rest : Bytes) :
    (endArray (itemsRest first (i :: items) gap rest)).toOption = none := by
  have hstart := skipBlanks_starts (h.starts.append (itemsRest false items gap rest))
  rw [Datum.itemsRest_cons, endArray, skipBlanks_gap]
  cases first with
  | true =>
    have hnone : encodeChars (Datum.separatorText true) = [] := rfl
    rw [hnone, List.nil_append, skipBlanks_gap, hstart]
    obtain ⟨b, bs, hbytes, -, hclose⟩ := h.starts
    rw [hbytes, List.cons_append]
    simp only [if_neg hclose]
    rfl
  | false =>
    have hcomma : encodeChars (Datum.separatorText false) = [comma] := rfl
    rw [hcomma, List.singleton_append, skipBlanks_cons (by decide)]
    rfl

theorem wire_refuses {f : Fields α} {j : Json} (hobject : j.kind ≠ .object)
    (harray : j.kind ≠ .array) : (f.wire.buffered j).toOption = none := by
  cases j with
  | obj members => exact absurd rfl hobject
  | arr items => exact absurd rfl harray
  | _ => rfl

section Direct
variable {f : Fields α} (h : f.Agrees)
include h

theorem Agrees.direct_object (hempty : (f.finish f.empty).toOption = none) {entries : List Entry}
    (names : ∀ e ∈ entries, Spells e.name e.nameText) (each : ∀ e ∈ entries, Text e.datum e.text)
    {bs : Bytes} (gap : Gap) (rest : Bytes)
    (hstart : skipBlanks bs = openBrace :: entriesRest true entries gap rest) :
    (f.wire.direct bs).toOption =
      (f.wire.buffered ((Datum.object (entries.map Entry.member)).tree unread)).toOption.map
        (·, rest) := by
  have hlength := Datum.length_entries entries true gap rest
  have hfold := Datum.foldMembers_spaced Datum.namesBy_string f.memberNext names
    (fun s name e he => h.readsMember s name (each e he))
    (show entries.length < (entriesRest true entries gap rest).length + 1 by omega) true f.empty
    gap rest
  have hfinish : ∀ s, (lift (f.finish s)).toOption = (f.finish s).toOption := by
    intro s
    cases f.finish s <;> rfl
  have hend : endObject (closing gap closeBrace rest) = .ok rest := Datum.endObject_closing
  rw [foldlM_memberNext] at hfold
  simp only [Fields.wire, hstart, if_true, toOption_bind, hfold]
  cases entries with
  | nil =>
    simp only [List.map_nil, Datum.memberTrees, Option.bind_some, bufferedMembers, toOption_ok,
      Option.map_some, hfinish, hempty, Datum.tree]
    rfl
  | cons e entries =>
    rw [List.map_cons, Datum.tree]
    cases Datum.memberTrees unread (e.member :: entries.map Entry.member) with
    | none => rfl
    | some trees =>
      simp only [Option.map_some, Option.getD_some, Option.bind_some, toOption_bind]
      cases (f.bufferedMembers f.empty trees).toOption with
      | none => rfl
      | some s =>
        simp only [Option.map_some, Option.bind_some, hfinish, hend]
        cases (f.finish s).toOption <;> rfl

theorem Agrees.direct_array {items : List Item} (each : ∀ i ∈ items, Text i.datum i.text)
    {bs : Bytes} (gap : Gap) (rest : Bytes)
    (hstart : skipBlanks bs = openBracket :: itemsRest true items gap rest) :
    (f.wire.direct bs).toOption =
      (f.wire.buffered ((Datum.array (items.map (·.datum))).tree unread)).toOption.map
        (·, rest) := by
  have hrow := h.row each true gap rest
  have htrees : (Datum.array (items.map (·.datum))).tree unread = .arr (itemTrees items) := by
    rw [Datum.tree, Datum.trees_eq_map, List.map_map]
    rfl
  rw [htrees]
  simp only [Fields.wire, hstart, if_neg (by decide : openBracket ≠ openBrace), if_true]
  cases hexpected : f.bufferedRow (itemTrees items) with
  | error e =>
    rw [toOption_bind, hrow.error hexpected]
    rfl
  | ok p =>
    obtain ⟨a, js⟩ := p
    obtain ⟨first, left, hleft, rfl, hread⟩ := hrow.ok hexpected
    rw [hread]
    cases left with
    | nil =>
      have hend : endArray (itemsRest first [] gap rest) = .ok rest := Datum.endArray_closing
      simp only [bind, Except.bind, hend]
      rfl
    | cons i left =>
      have hend := endArray_items (each i (hleft.subset List.mem_cons_self)) left first gap rest
      simp only [toOption_bind, toOption_ok, Option.bind_some, hend]
      rfl

/-- A record agrees if its fields do; one without members must lack a field. -/
theorem Agrees.wire (hempty : (f.finish f.empty).toOption = none) : f.wire.Agrees := by
  intro d cs htext gap rest hrest
  have hstart := htext.skipBlanks gap rest
  have hother (hobject : d.kind ≠ .object) (harray : d.kind ≠ .array) :
      (f.wire.direct (encodeChars gap.chars ++ (encodeChars cs ++ rest))).toOption =
        (f.wire.buffered (d.tree unread)).toOption.map (·, rest) := by
    obtain ⟨b, bs, hbytes, hb⟩ := htext.lead
    have hbrace := ne_of_kind hb (by decide : kindOf openBrace = some .object) hobject
    have hbracket := ne_of_kind hb (by decide : kindOf openBracket = some .array) harray
    rw [hbytes, List.cons_append] at hstart
    rw [wire_refuses (tree_kind_ne (.inr rfl) hobject (by decide))
      (tree_kind_ne (.inr rfl) harray (by decide))]
    simp only [Fields.wire, hbytes, List.cons_append, hstart, if_neg hbrace, if_neg hbracket,
      toOption_wrongType]
    rfl
  cases htext with
  | object names each gap' =>
    rw [Datum.objectBytes] at hstart ⊢
    exact h.direct_object hempty names each gap' rest hstart
  | array each gap' =>
    rw [Datum.arrayBytes] at hstart ⊢
    exact h.direct_array each gap' rest hstart
  | _ => exact hother (by rintro ⟨⟩) (by rintro ⟨⟩)

end Direct

end Fields
end SandboxWorker.Json
