import SandboxWorker.Proofs.Json.Direct
import SandboxWorker.Proofs.Json.Layouts
/-! Forms that read from a tree what they read from any tree it may be widened to. For a record it
is enough that each field does: readings of two members commute, whichever names they have. -/
namespace SandboxWorker.Json

structure Wire.Tolerates {α : Type} (w : Wire α) (layout : Layout) : Prop where
  unread : ∀ a, w.buffered Json.unread ≠ .ok a
  widens : ∀ {j j' a}, Widens layout j j' → w.buffered j = .ok a → w.buffered j' = .ok a

namespace Wire
variable {α β : Type} {layout : Layout}

theorem tolerates_string : Wire.string.Tolerates .value where
  unread _ := nofun
  widens := by
    intro j j' a hwidens hread
    cases hwidens with
    | refl => exact hread
    | unread | order | member | element => cases hread

theorem Tolerates.refine {w : Wire α} (h : w.Tolerates layout) (read : α → Decoded β)
    (write : β → α) : (w.refine read write).Tolerates layout where
  unread b hread := by
    obtain ⟨a, ha, -⟩ := bind_eq_ok.mp hread
    exact h.unread a ha
  widens := by
    intro j j' b hwidens hread
    obtain ⟨a, ha, hb⟩ := bind_eq_ok.mp hread
    simp only [Wire.refine, h.widens hwidens ha, bind, Except.bind, hb]

theorem tolerates_ofText (read : List Char → Decoded α) (text : α → List Char) :
    (Wire.ofText read text).Tolerates .value :=
  tolerates_string.refine _ _

theorem tolerates_integer (low high : Int) : (Wire.integer low high).Tolerates .value where
  unread _ := nofun
  widens := by
    intro j j' a hwidens hread
    cases hwidens with
    | refl => exact hread
    | unread | order | member | element => cases hread

theorem tolerates_int64 : Wire.int64.Tolerates .value := (tolerates_integer _ _).refine _ _

theorem optional_of_ne {w : Wire α} {j : Json} (h : j ≠ .null) :
    w.optional.buffered j = (w.buffered j).map some := by
  cases j with
  | null => exact absurd rfl h
  | _ => rfl

theorem Tolerates.optional {w : Wire α} (h : w.Tolerates layout) :
    w.optional.Tolerates layout where
  unread a hread := by
    rw [optional_of_ne (j := Json.unread) nofun, map_eq_ok] at hread
    obtain ⟨b, hb, -⟩ := hread
    exact h.unread b hb
  widens := by
    intro j j' a hwidens hread
    by_cases hnull : j = .null
    · subst hnull
      cases hwidens
      exact hread
    · rw [optional_of_ne hnull, map_eq_ok] at hread
      obtain ⟨b, hb, rfl⟩ := hread
      have hnull' : j' ≠ .null := by
        cases hwidens with
        | refl => exact hnull
        | unread => exact absurd hb (h.unread b)
        | order | member | element | unknown => exact nofun
      rw [optional_of_ne hnull', h.widens hwidens hb]
      rfl

/-- Null and an object without members stay what they are. -/
theorem widens_value_content {j j' : Json} (h : Widens .value j j') :
    (j = .null → j' = .null) ∧ (j = .obj [] → j' = .obj []) := by
  cases h with
  | refl => exact ⟨id, id⟩
  | unread | element => exact ⟨nofun, nofun⟩
  | order hperm =>
    refine ⟨nofun, ?_⟩
    rintro ⟨⟩
    rw [hperm.nil_eq]
  | member => exact ⟨nofun, by simp⟩

theorem tolerates_choice (all : List α) (name : α → String) :
    (Wire.choice all name).Tolerates .value where
  unread _ := nofun
  widens := by
    intro j j' a hwidens hread
    cases hwidens with
    | refl => exact hread
    | unread | element => cases hread
    | @order _ members members' hperm =>
      match members, hperm, hread with
      | [m], hperm, hread => rwa [← List.singleton_perm.mp hperm]
    | @member _ front back found content content' hcontent =>
      cases front with
      | cons m front => cases front <;> cases hread
      | nil =>
        cases back with
        | cons m back => cases hread
        | nil =>
          have hkept := widens_value_content hcontent
          simp only [Wire.choice, List.nil_append] at hread ⊢
          obtain ⟨b, hb, hread⟩ := bind_eq_ok.mp hread
          rw [hb]
          split at hread
          · rw [hkept.1 rfl]
            exact hread
          · rw [hkept.2 rfl]
            exact hread
          · cases hread

end Wire

/-! ### Fields -/

theorem lookup_isSome {α : Type} {fields : List (String × α)} {name : String} :
    (fields.lookup name).isSome = true ↔ name ∈ fields.map Prod.fst := by
  induction fields with
  | nil => simp
  | cons field fields ih =>
    rw [List.lookup_cons, List.map_cons, List.mem_cons, ← ih]
    cases hname : name == field.1 with
    | true => simp [eq_of_beq hname]
    | false => simp [ne_of_beq_false hname]

theorem Layout.field_append_left {ns ms : List (String × Layout)} {name : String}
    (h : name ∈ ns.map Prod.fst) :
    (Layout.record (ns ++ ms)).field name = (Layout.record ns).field name := by
  obtain ⟨layout, hlayout⟩ := Option.isSome_iff_exists.mp (lookup_isSome.mpr h)
  simp only [Layout.field, Layout.fields, List.lookup_append, hlayout, Option.some_or]

theorem Layout.field_append_right {ns ms : List (String × Layout)} {name : String}
    (h : name ∉ ns.map Prod.fst) :
    (Layout.record (ns ++ ms)).field name = (Layout.record ms).field name := by
  have hnone : ns.lookup name = none := by
    rw [← Option.not_isSome_iff_eq_none, lookup_isSome]
    exact h
  simp only [Layout.field, Layout.fields, List.lookup_append, hnone, Option.none_or]

/-- Arrays whose items are widened one by one; those behind the fields only count. -/
inductive WidensRow : List Layout → List Json → List Json → Prop where
  | nil {layouts : List Layout} : WidensRow layouts [] []
  | cons {layout : Layout} {layouts : List Layout} {j j' : Json} {items items' : List Json}
    (h : Widens layout j j') (more : WidensRow layouts items items') :
    WidensRow (layout :: layouts) (j :: items) (j' :: items')
  | past {items items' : List Json} (h : items.length = items'.length) : WidensRow [] items items'

theorem WidensRow.refl (layouts : List Layout) (items : List Json) :
    WidensRow layouts items items := by
  induction items generalizing layouts with
  | nil => exact .nil
  | cons j items ih =>
    cases layouts with
    | nil => exact .past rfl
    | cons layout layouts => exact .cons (.refl j) (ih layouts)

theorem WidensRow.element {layouts : List Layout} {front back : List Json} {j j' : Json}
    (h : Widens (layouts[front.length]?.getD .value) j j') :
    WidensRow layouts (front ++ j :: back) (front ++ j' :: back) := by
  induction front generalizing layouts with
  | nil =>
    cases layouts with
    | nil => exact .past (by simp)
    | cons layout layouts => exact .cons h (.refl layouts back)
  | cons k front ih =>
    cases layouts with
    | nil => exact .past (by simp)
    | cons layout layouts => exact .cons (.refl k) (ih h)

namespace Fields

structure Tolerates {α : Type} (f : Fields α) (fields : List (String × Layout)) : Prop where
  known : ∀ name, f.bufferedMember name = none ↔ name ∉ fields.map Prod.fst
  commute : ∀ {s t u m m'}, f.bufferedNext s m = .ok t → f.bufferedNext t m' = .ok u →
    ∃ t', f.bufferedNext s m' = .ok t' ∧ f.bufferedNext t' m = .ok u
  widens : ∀ {s t name j j'}, Widens ((Layout.record fields).field name) j j' →
    f.bufferedNext s (name, j) = .ok t → f.bufferedNext s (name, j') = .ok t
  row : ∀ {layouts items items' a rest}, WidensRow (fields.map Prod.snd ++ layouts) items items' →
    f.bufferedRow items = .ok (a, rest) →
      ∃ rest', f.bufferedRow items' = .ok (a, rest') ∧ WidensRow layouts rest rest'

variable {α β : Type}

theorem field_next {w : Wire α} {name : String} {default : Default α}
    {s t : (field name w default).Slots} {m : String × Json} :
    (field name w default).bufferedNext s m = .ok t ↔
      m.1 ≠ name ∧ s = t ∨
      m.1 = name ∧ s = (none : Option α) ∧ ∃ a, w.buffered m.2 = .ok a ∧ t = (some a : Option α) := by
  by_cases hname : m.1 = name
  · have hread : (field name w default).bufferedMember m.1 = some fun slot j => do
        if (slot : Option α).isSome then throw (.duplicateField name)
        return (some (← w.buffered j) : Option α) := if_neg (not_not.mpr hname)
    rw [bufferedNext, hread]
    cases s with
    | none =>
      constructor
      · intro h
        obtain ⟨a, ha, hreturn⟩ := bind_eq_ok.mp h
        cases hreturn
        exact .inr ⟨hname, rfl, a, ha, rfl⟩
      · rintro (⟨hne, -⟩ | ⟨-, -, a, ha, rfl⟩)
        · exact absurd hname hne
        · exact bind_eq_ok.mpr ⟨a, ha, rfl⟩
    | some a =>
      constructor
      · intro h
        cases h
      · rintro (⟨hne, -⟩ | ⟨-, hnone, -⟩)
        · exact absurd hname hne
        · cases hnone
  · have hread : (field name w default).bufferedMember m.1 = none := if_pos hname
    rw [bufferedNext, hread]
    constructor
    · rintro ⟨⟩
      exact .inl ⟨hname, rfl⟩
    · rintro (⟨-, rfl⟩ | ⟨hfound, -⟩)
      · rfl
      · exact absurd hfound hname

theorem tolerates_field {w : Wire α} {layout : Layout} (h : w.Tolerates layout) (name : String)
    (default : Default α) : (field name w default).Tolerates [(name, layout)] where
  known found := by
    simp only [field, List.map_cons, List.map_nil, List.mem_singleton]
    split <;> simp_all
  commute := by
    intro s t u m m' hfirst hsecond
    rcases field_next.mp hfirst with ⟨hm, rfl⟩ | ⟨hm, hs, a, ha, ht⟩
    · exact ⟨u, hsecond, field_next.mpr (.inl ⟨hm, rfl⟩)⟩
    · rcases field_next.mp hsecond with ⟨hm', rfl⟩ | ⟨-, hnone, -⟩
      · exact ⟨s, field_next.mpr (.inl ⟨hm', rfl⟩), hfirst⟩
      · rw [ht] at hnone
        cases hnone
  widens := by
    intro s t found j j' hwidens hread
    rcases field_next.mp hread with ⟨hm, rfl⟩ | ⟨rfl, hs, a, ha, ht⟩
    · exact field_next.mpr (.inl ⟨hm, rfl⟩)
    · have hlayout : (Layout.record [(found, layout)]).field found = layout := by
        simp [Layout.field, Layout.fields]
      rw [hlayout] at hwidens
      exact field_next.mpr (.inr ⟨rfl, hs, a, h.widens hwidens ha, ht⟩)
  row := by
    intro layouts items items' a rest hrow hread
    cases hrow with
    | nil =>
      have hrest : rest = [] := by
        simp only [field] at hread
        cases hshort : default.short with
        | none =>
          rw [hshort] at hread
          cases hread
        | some b =>
          rw [hshort] at hread
          cases hread
          rfl
      subst hrest
      exact ⟨[], hread, .nil⟩
    | @cons _ _ j j' items items' hj hmore =>
      obtain ⟨b, hb, hread⟩ := bind_eq_ok.mp hread
      cases hread
      exact ⟨items', by simp only [field, h.widens hj hb]; rfl, hmore⟩

/-- A member of a pair of fields goes to the first that knows it, and leaves the other alone. -/
theorem pair_next {f : Fields α} {g : Fields β} {s u : (f.pair g).Slots} {m : String × Json} :
    (f.pair g).bufferedNext s m = .ok u ↔
      f.bufferedMember m.1 ≠ none ∧ f.bufferedNext s.1 m = .ok u.1 ∧ s.2 = u.2 ∨
      f.bufferedMember m.1 = none ∧ s.1 = u.1 ∧ g.bufferedNext s.2 m = .ok u.2 := by
  cases hf : f.bufferedMember m.1 with
  | some read =>
    have hpair : (f.pair g).bufferedNext s m = do return (← read s.1 m.2, s.2) := by
      rw [bufferedNext, bufferedMember_fst g hf]
    have hown : f.bufferedNext s.1 m = read s.1 m.2 := by rw [bufferedNext, hf]
    rw [hpair, hown]
    constructor
    · intro h
      obtain ⟨a, ha, hreturn⟩ := bind_eq_ok.mp h
      cases hreturn
      exact .inl ⟨Option.some_ne_none read, ha, rfl⟩
    · rintro (⟨-, ha, hkept⟩ | ⟨hnone, -⟩)
      · exact bind_eq_ok.mpr ⟨u.1, ha, by rw [hkept]; rfl⟩
      · cases hnone
  | none =>
    cases hg : g.bufferedMember m.1 with
    | none =>
      have hpair : (f.pair g).bufferedNext s m = .ok s := by
        rw [bufferedNext, bufferedMember_snd g hf, hg]
        rfl
      have hown : g.bufferedNext s.2 m = .ok s.2 := by rw [bufferedNext, hg]
      rw [hpair, hown]
      constructor
      · rintro ⟨⟩
        exact .inr ⟨rfl, rfl, rfl⟩
      · rintro (⟨hsome, -⟩ | ⟨-, hfirst, hsecond⟩)
        · exact absurd rfl hsome
        · exact congrArg Except.ok (Prod.ext hfirst (Except.ok.inj hsecond))
    | some read =>
      have hpair : (f.pair g).bufferedNext s m = do return (s.1, ← read s.2 m.2) := by
        rw [bufferedNext, bufferedMember_snd g hf, hg]
        rfl
      have hown : g.bufferedNext s.2 m = read s.2 m.2 := by rw [bufferedNext, hg]
      rw [hpair, hown]
      constructor
      · intro h
        obtain ⟨b, hb, hreturn⟩ := bind_eq_ok.mp h
        cases hreturn
        exact .inr ⟨rfl, rfl, hb⟩
      · rintro (⟨hsome, -⟩ | ⟨-, hkept, hb⟩)
        · exact absurd rfl hsome
        · exact bind_eq_ok.mpr ⟨u.2, hb, by rw [hkept]; rfl⟩

theorem Tolerates.pair {f : Fields α} {g : Fields β} {ns ms : List (String × Layout)}
    (hf : f.Tolerates ns) (hg : g.Tolerates ms) : (f.pair g).Tolerates (ns ++ ms) where
  known name := by
    rw [List.map_append, List.mem_append, not_or, ← hf.known, ← hg.known]
    simp only [Fields.pair]
    cases f.bufferedMember name <;> cases g.bufferedMember name <;> simp
  commute := by
    intro s t u m m' hfirst hsecond
    rcases pair_next.mp hfirst with ⟨hm, hread, hkept⟩ | ⟨hm, hkept, hread⟩
    · rcases pair_next.mp hsecond with ⟨hm', hread', hkept'⟩ | ⟨hm', hkept', hread'⟩
      · obtain ⟨t', ht, hu⟩ := hf.commute hread hread'
        exact ⟨(t', s.2), pair_next.mpr (.inl ⟨hm', ht, rfl⟩),
          pair_next.mpr (.inl ⟨hm, hu, hkept.trans hkept'⟩)⟩
      · rw [← hkept] at hread'
        exact ⟨(s.1, u.2), pair_next.mpr (.inr ⟨hm', rfl, hread'⟩),
          pair_next.mpr (.inl ⟨hm, hkept' ▸ hread, rfl⟩)⟩
    · rcases pair_next.mp hsecond with ⟨hm', hread', hkept'⟩ | ⟨hm', hkept', hread'⟩
      · rw [← hkept] at hread'
        exact ⟨(u.1, s.2), pair_next.mpr (.inl ⟨hm', hread', rfl⟩),
          pair_next.mpr (.inr ⟨hm, rfl, hkept' ▸ hread⟩)⟩
      · obtain ⟨t', ht, hu⟩ := hg.commute hread hread'
        exact ⟨(s.1, t'), pair_next.mpr (.inr ⟨hm', rfl, ht⟩),
          pair_next.mpr (.inr ⟨hm, hkept.trans hkept', hu⟩)⟩
  widens := by
    intro s t name j j' hwidens hread
    rcases pair_next.mp hread with ⟨hm, hread, hkept⟩ | ⟨hm, hkept, hread⟩
    · rw [Layout.field_append_left (not_not.mp ((hf.known name).not.mp hm))] at hwidens
      exact pair_next.mpr (.inl ⟨hm, hf.widens hwidens hread, hkept⟩)
    · rw [Layout.field_append_right ((hf.known name).mp hm)] at hwidens
      exact pair_next.mpr (.inr ⟨hm, hkept, hg.widens hwidens hread⟩)
  row := by
    intro layouts items items' ab rest hrow hread
    obtain ⟨⟨a, left⟩, ha, hread⟩ := bind_eq_ok.mp hread
    obtain ⟨⟨b, last⟩, hb, hread⟩ := bind_eq_ok.mp hread
    cases hread
    rw [List.map_append, List.append_assoc] at hrow
    obtain ⟨left', ha', hleft⟩ := hf.row hrow ha
    obtain ⟨last', hb', hlast⟩ := hg.row hleft hb
    exact ⟨last', bind_eq_ok.mpr ⟨_, ha', bind_eq_ok.mpr ⟨_, hb', rfl⟩⟩, hlast⟩

/-! ### Records -/

section Members
variable {f : Fields α} {fields : List (String × Layout)} (h : f.Tolerates fields)
include h

theorem Tolerates.members_perm {members members' : List (String × Json)}
    (hperm : members.Perm members') {s t : f.Slots}
    (hread : f.bufferedMembers s members = .ok t) : f.bufferedMembers s members' = .ok t := by
  induction hperm generalizing s with
  | nil => exact hread
  | cons m _ ih =>
    rw [bufferedMembers_cons, bind_eq_ok] at hread ⊢
    obtain ⟨u, hu, hrest⟩ := hread
    exact ⟨u, hu, ih hrest⟩
  | swap m m' members =>
    simp only [bufferedMembers_cons, bind_eq_ok] at hread ⊢
    obtain ⟨u, hu, v, hv, hrest⟩ := hread
    obtain ⟨u', hu', hv'⟩ := h.commute hu hv
    exact ⟨u', hu', v, hv', hrest⟩
  | trans _ _ ih ih' => exact ih' (ih hread)

theorem Tolerates.members_widens {front back : List (String × Json)} {name : String} {j j' : Json}
    (hwidens : Widens ((Layout.record fields).field name) j j') {s t : f.Slots}
    (hread : f.bufferedMembers s (front ++ (name, j) :: back) = .ok t) :
    f.bufferedMembers s (front ++ (name, j') :: back) = .ok t := by
  simp only [bufferedMembers_append, bufferedMembers_cons, bind_eq_ok] at hread ⊢
  obtain ⟨u, hu, v, hv, hrest⟩ := hread
  exact ⟨u, hu, v, h.widens hwidens hv, hrest⟩

theorem Tolerates.members_unknown {front back : List (String × Json)} {name : String} {j : Json}
    (hunknown : name ∉ fields.map Prod.fst) {s t : f.Slots}
    (hread : f.bufferedMembers s (front ++ back) = .ok t) :
    f.bufferedMembers s (front ++ (name, j) :: back) = .ok t := by
  simp only [bufferedMembers_append, bufferedMembers_cons, bind_eq_ok] at hread ⊢
  obtain ⟨u, hu, hrest⟩ := hread
  exact ⟨u, hu, u, by rw [bufferedNext, (h.known name).mpr hunknown], hrest⟩

theorem Tolerates.wire : f.wire.Tolerates (.record fields) where
  unread _ := nofun
  widens := by
    intro j j' a hwidens hread
    cases hwidens with
    | refl => exact hread
    | unread => cases hread
    | order hperm =>
      obtain ⟨s, hs, hfinish⟩ := bind_eq_ok.mp hread
      exact bind_eq_ok.mpr ⟨s, h.members_perm hperm hs, hfinish⟩
    | member hmember =>
      obtain ⟨s, hs, hfinish⟩ := bind_eq_ok.mp hread
      exact bind_eq_ok.mpr ⟨s, h.members_widens hmember hs, hfinish⟩
    | unknown _ _ hunknown =>
      obtain ⟨s, hs, hfinish⟩ := bind_eq_ok.mp hread
      exact bind_eq_ok.mpr ⟨s, h.members_unknown hunknown hs, hfinish⟩
    | @element _ front back k k' helement =>
      obtain ⟨⟨b, rest⟩, hrow, hend⟩ := bind_eq_ok.mp hread
      have hitems : WidensRow (fields.map Prod.snd ++ []) (front ++ k :: back)
          (front ++ k' :: back) := by
        refine .element ?_
        rw [List.append_nil, List.getElem?_map]
        exact helement
      obtain ⟨rest', hrow', hrest⟩ := h.row hitems hrow
      refine bind_eq_ok.mpr ⟨_, hrow', ?_⟩
      cases rest with
      | cons => cases hend
      | nil =>
        have hnil : rest' = [] := by
          cases hrest with
          | nil => rfl
          | past hlength => exact List.eq_nil_of_length_eq_zero hlength.symm
        rw [hnil]
        exact hend

end Members
end Fields
end SandboxWorker.Json
