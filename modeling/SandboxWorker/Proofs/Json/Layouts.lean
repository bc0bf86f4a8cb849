import Mathlib.Logic.Relation
import SandboxWorker.Proofs.Json.Trees
/-! Changes that a reader should not notice: the order of members anywhere, and members that a
record does not know. A layout tells where the records are. -/
namespace SandboxWorker.Json

inductive Layout where
  /-- A value without records. -/
  | value
  /-- An object with the named fields, or an array of them in order. -/
  | record (fields : List (String × Layout))

namespace Layout

def fields : Layout → List (String × Layout)
  | .value => []
  | .record fields => fields

def field (layout : Layout) (name : String) : Layout := (layout.fields.lookup name).getD .value

def member (layout : Layout) (name : Units) : Layout := ((string? name).map layout.field).getD .value

def element (layout : Layout) (i : Nat) : Layout := (layout.fields[i]?.map (·.2)).getD .value

end Layout

/-- One change to a datum of a layout, which nests at most so deep; `accepts` tells which values,
nesting at most so deep, an unknown member may have. -/
inductive Datum.Step (accepts : Nat → Datum → Prop) : Nat → Layout → Datum → Datum → Prop where
  | order {depth : Nat} {layout : Layout} {members members' : List (Units × Datum)}
    (h : members.Perm members') : Step accepts depth layout (.object members) (.object members')
  | member {depth : Nat} {layout : Layout} {front back : List (Units × Datum)} {us : Units}
    {d d' : Datum} (h : Step accepts (depth - 1) (layout.member us) d d') :
    Step accepts depth layout (.object (front ++ (us, d) :: back))
      (.object (front ++ (us, d') :: back))
  | element {depth : Nat} {layout : Layout} {front back : List Datum} {d d' : Datum}
    (h : Step accepts (depth - 1) (layout.element front.length) d d') :
    Step accepts depth layout (.array (front ++ d :: back)) (.array (front ++ d' :: back))
  | unknown {depth : Nat} {fields : List (String × Layout)} (front back : List (Units × Datum))
    {us : Units} {name : String} {d : Datum} (hname : string? us = some name)
    (hunknown : name ∉ fields.map Prod.fst) (h : accepts (depth - 1) d) :
    Step accepts depth (.record fields) (.object (front ++ back))
      (.object (front ++ (us, d) :: back))

/-- Data that differ in the order of members only. -/
def Datum.Same : Datum → Datum → Prop :=
  Relation.ReflTransGen (Step (fun _ _ => False) 0 .value)

/-- Data that differ in the order of members and in members that records do not know: the second
has more of them. -/
def Datum.Widens (accepts : Nat → Datum → Prop) (layout : Layout) : Datum → Datum → Prop :=
  Relation.ReflTransGen (Step accepts maxDepth layout)

theorem Layout.member_value (us : Units) : Layout.value.member us = .value := by
  unfold Layout.member
  cases string? us <;> rfl

theorem Datum.Step.symm {accepts : Nat → Datum → Prop} {depth : Nat} {d d' : Datum}
    (h : Step accepts depth .value d d') : Step accepts depth .value d' d := by
  generalize hlayout : Layout.value = layout at h
  induction h with
  | order h => exact .order h.symm
  | @member depth layout front back us d d' h ih =>
    subst hlayout
    exact .member (ih (Layout.member_value us).symm)
  | element h ih =>
    subst hlayout
    exact .element (ih rfl)
  | unknown => cases hlayout

theorem Datum.Same.symm {d d' : Datum} (h : Same d d') : Same d' d := by
  induction h with
  | refl => exact .refl
  | tail _ hstep ih => exact .head hstep.symm ih

/-! ### Depth -/

namespace Datum

theorem allFit_iff {depth : Nat} {items : List Datum} :
    allFit depth items = true ↔ ∀ d ∈ items, d.fits depth = true := by
  induction items with
  | nil => simp [allFit]
  | cons d items ih => rw [allFit, Bool.and_eq_true, ih, List.forall_mem_cons]

theorem membersFit_iff {depth : Nat} {members : List (Units × Datum)} :
    membersFit depth members = true ↔
      ∀ m ∈ members, (string? m.1).isSome = true ∧ m.2.fits depth = true := by
  induction members with
  | nil => simp [membersFit]
  | cons m members ih =>
    obtain ⟨us, d⟩ := m
    rw [membersFit, Bool.and_eq_true, Bool.and_eq_true, ih, List.forall_mem_cons]

theorem Step.fits {accepts : Nat → Datum → Prop}
    (haccepts : ∀ depth d, accepts depth d → d.fits depth = true) {depth : Nat} {layout : Layout}
    {d d' : Datum} (h : Step accepts depth layout d d') (hfits : d.fits depth = true) :
    d'.fits depth = true := by
  induction h with
  | @order depth layout members members' h =>
    cases depth with
    | zero => cases hfits
    | succ depth =>
      simp only [Datum.fits, membersFit_iff] at hfits ⊢
      exact fun m hm => hfits m (h.mem_iff.mpr hm)
  | @member depth layout front back us d d' h ih =>
    cases depth with
    | zero => cases hfits
    | succ depth =>
      simp only [Datum.fits, membersFit_iff, List.forall_mem_append, List.forall_mem_cons]
        at hfits ⊢
      obtain ⟨hfront, hmember, hback⟩ := hfits
      exact ⟨hfront, ⟨hmember.1, ih hmember.2⟩, hback⟩
  | @element depth layout front back d d' h ih =>
    cases depth with
    | zero => cases hfits
    | succ depth =>
      simp only [Datum.fits, allFit_iff, List.forall_mem_append, List.forall_mem_cons] at hfits ⊢
      exact ⟨hfits.1, ih hfits.2.1, hfits.2.2⟩
  | @unknown depth fields front back us name d hname hunknown h =>
    cases depth with
    | zero => cases hfits
    | succ depth =>
      simp only [Datum.fits, membersFit_iff, List.forall_mem_append, List.forall_mem_cons]
        at hfits ⊢
      exact ⟨hfits.1, ⟨by rw [hname]; rfl, haccepts depth d h⟩, hfits.2⟩

end Datum

/-! ### Trees -/

/-- The same changes to a tree. What no form reads may become anything. -/
inductive Widens : Layout → Json → Json → Prop where
  | refl {layout : Layout} (j : Json) : Widens layout j j
  | unread {layout : Layout} (j : Json) : Widens layout unread j
  | order {layout : Layout} {members members' : List (String × Json)}
    (h : members.Perm members') : Widens layout (.obj members) (.obj members')
  | member {layout : Layout} {front back : List (String × Json)} {name : String} {j j' : Json}
    (h : Widens (layout.field name) j j') :
    Widens layout (.obj (front ++ (name, j) :: back)) (.obj (front ++ (name, j') :: back))
  | element {layout : Layout} {front back : List Json} {j j' : Json}
    (h : Widens (layout.element front.length) j j') :
    Widens layout (.arr (front ++ j :: back)) (.arr (front ++ j' :: back))
  | unknown {fields : List (String × Layout)} (front back : List (String × Json)) {name : String}
    {j : Json} (h : name ∉ fields.map Prod.fst) :
    Widens (.record fields) (.obj (front ++ back)) (.obj (front ++ (name, j) :: back))

namespace Datum

variable {empty : Json}

theorem memberTrees_append (front back : List (Units × Datum)) :
    memberTrees empty (front ++ back) = (memberTrees empty front).bind fun trees =>
      (memberTrees empty back).map (trees ++ ·) := by
  induction front with
  | nil => cases h : memberTrees empty back <;> simp [memberTrees, h]
  | cons m front ih =>
    obtain ⟨us, d⟩ := m
    rw [List.cons_append, memberTrees, memberTrees, ih]
    cases string? us <;> cases memberTrees empty front <;> cases memberTrees empty back <;> rfl

theorem memberTrees_perm (empty : Json) {members members' : List (Units × Datum)}
    (h : members.Perm members') :
    (memberTrees empty members = none ∧ memberTrees empty members' = none) ∨
      ∃ trees trees', memberTrees empty members = some trees ∧
        memberTrees empty members' = some trees' ∧ trees.Perm trees' := by
  induction h with
  | nil => exact .inr ⟨[], [], rfl, rfl, .refl _⟩
  | cons m _ ih =>
    obtain ⟨us, d⟩ := m
    rw [memberTrees, memberTrees]
    cases string? us with
    | none => exact .inl ⟨rfl, rfl⟩
    | some name =>
      rcases ih with ⟨hnone, hnone'⟩ | ⟨trees, trees', htrees, htrees', hperm⟩
      · rw [hnone, hnone']
        exact .inl ⟨rfl, rfl⟩
      · rw [htrees, htrees']
        exact .inr ⟨_, _, rfl, rfl, hperm.cons _⟩
  | swap m m' members =>
    obtain ⟨us, d⟩ := m
    obtain ⟨us', d'⟩ := m'
    simp only [memberTrees]
    cases string? us <;> cases string? us' <;> cases memberTrees empty members
    all_goals first
      | exact .inl ⟨rfl, rfl⟩
      | exact .inr ⟨_, _, rfl, rfl, .swap _ _ _⟩
  | trans _ _ ih ih' =>
    rcases ih with ⟨hnone, hnone'⟩ | ⟨trees, trees', htrees, htrees', hperm⟩
    · rcases ih' with ⟨-, hlast⟩ | ⟨_, _, hsome, -⟩
      · exact .inl ⟨hnone, hlast⟩
      · rw [hnone'] at hsome
        cases hsome
    · rcases ih' with ⟨hnone, -⟩ | ⟨_, last, hsome, hlast, hperm'⟩
      · rw [htrees'] at hnone
        cases hnone
      · rw [htrees'] at hsome
        cases hsome
        exact .inr ⟨trees, last, htrees, hlast, hperm.trans hperm'⟩

theorem tree_object {members : List (Units × Datum)} (h : members ≠ []) :
    (object members).tree empty = ((memberTrees empty members).map .obj).getD unread := by
  cases members with
  | nil => exact absurd rfl h
  | cons m members => rw [tree]

theorem Step.tree {accepts : Nat → Datum → Prop} {depth : Nat} {layout : Layout} {d d' : Datum}
    (h : Step accepts depth layout d d') (hempty : empty = .obj [] ∨ empty = unread) :
    Json.Widens layout (d.tree empty) (d'.tree empty) := by
  induction h with
  | @order depth layout members members' h =>
    cases members with
    | nil =>
      rw [h.nil_eq]
      exact .refl _
    | cons m members =>
      have hne : members' ≠ [] := by
        rintro rfl
        cases h.eq_nil
      rw [tree_object (List.cons_ne_nil m members), tree_object hne]
      rcases memberTrees_perm empty h with
        ⟨hnone, hnone'⟩ | ⟨trees, trees', htrees, htrees', hperm⟩
      · rw [hnone, hnone']
        exact .refl _
      · rw [htrees, htrees']
        exact .order hperm
  | @member depth layout front back us d d' h ih =>
    rw [tree_object (by simp), tree_object (by simp), memberTrees_append, memberTrees_append,
      memberTrees, memberTrees]
    cases hname : string? us with
    | none => cases memberTrees empty front <;> exact .refl _
    | some name =>
      rw [Layout.member, hname] at ih
      cases memberTrees empty front with
      | none => exact .refl _
      | some front =>
        cases memberTrees empty back with
        | none => exact .refl _
        | some back => exact .member ih
  | @element depth layout front back d d' h ih =>
    simp only [Datum.tree, trees_eq_map, List.map_append, List.map_cons]
    exact .element (by rwa [List.length_map])
  | @unknown depth fields front back us name d hname hunknown h =>
    rw [tree_object (by simp : front ++ (us, d) :: back ≠ []), memberTrees_append,
      memberTrees, hname]
    by_cases hnil : front ++ back = []
    · obtain ⟨rfl, rfl⟩ := List.append_eq_nil_iff.mp hnil
      simp only [List.append_nil, Datum.tree, memberTrees, Option.bind_some, Option.map_some,
        Option.getD_some, List.nil_append]
      rcases hempty with rfl | rfl
      · exact .unknown [] [] hunknown
      · exact .unread _
    · rw [tree_object hnil, memberTrees_append]
      cases memberTrees empty front with
      | none => exact .refl _
      | some front =>
        cases memberTrees empty back with
        | none => exact .refl _
        | some back => exact .unknown _ _ hunknown

end Datum
end SandboxWorker.Json
