import SandboxWorker.Proofs.Json.TagAgreement
/-! Whole texts: what is read depends on the datum only, and on that no more than up to changes that
a form tolerates. -/
namespace SandboxWorker.Json
open Utf8 (encodeChars)

/-- A form that reads the data that texts stand for, and tolerates changes of a layout. -/
structure Wire.Steady {α : Type} (w : Wire α) (layout : Layout) : Prop where
  agrees : w.Agrees
  tolerates : w.Tolerates layout

structure Fields.Steady {α : Type} (f : Fields α) (fields : List (String × Layout)) : Prop where
  agrees : f.Agrees
  tolerates : f.Tolerates fields

section Steady
variable {α β : Type} {layout : Layout} {ns ms : List (String × Layout)}

theorem Wire.steady_string : Wire.string.Steady .value := ⟨agrees_string, tolerates_string⟩

theorem Wire.steady_int64 : Wire.int64.Steady .value := ⟨agrees_int64, tolerates_int64⟩

theorem Wire.steady_ofText (read : List Char → Decoded α) (text : α → List Char) :
    (Wire.ofText read text).Steady .value :=
  ⟨agrees_ofText read text, tolerates_ofText read text⟩

theorem Wire.steady_choice (all : List α) (name : α → String) :
    (Wire.choice all name).Steady .value :=
  ⟨agrees_choice all name, tolerates_choice all name⟩

theorem Wire.Steady.refine {w : Wire α} (h : w.Steady layout) (read : α → Decoded β)
    (write : β → α) : (w.refine read write).Steady layout :=
  ⟨Wire.Agrees.refine h.agrees read write, h.tolerates.refine read write⟩

theorem Wire.Steady.optional {w : Wire α} (h : w.Steady layout) : w.optional.Steady layout :=
  ⟨Wire.Agrees.optional h.agrees, h.tolerates.optional⟩

theorem Wire.Steady.field {w : Wire α} (h : w.Steady layout) (name : String)
    (default : Fields.Default α) : (Fields.field name w default).Steady [(name, layout)] :=
  ⟨Fields.agrees_field h.agrees name default, Fields.tolerates_field h.tolerates name default⟩

theorem Fields.Steady.pair {f : Fields α} {g : Fields β} (hf : f.Steady ns) (hg : g.Steady ms) :
    (f.pair g).Steady (ns ++ ms) :=
  ⟨hf.agrees.pair hg.agrees, hf.tolerates.pair hg.tolerates⟩

theorem Fields.Steady.wire {f : Fields α} (h : f.Steady ns)
    (hempty : (f.finish f.empty).toOption = none) : f.wire.Steady (.record ns) :=
  ⟨h.agrees.wire hempty, h.tolerates.wire⟩

end Steady

/-! ### Whole texts -/

theorem endText_gap (gap : Gap) : endText (encodeChars gap.chars) = .ok () := by
  have hblank := skipBlanks_gap gap []
  rw [List.append_nil] at hblank
  rw [endText, hblank]
  rfl

theorem Datum.Reads.read_denotes {α : Type} {read : Bytes → Outcome (α × Bytes)} {content : String}
    {d : Datum} {a : Option α} (h : ∀ {cs : List Char}, d.Text cs → Reads read cs a)
    (hcontent : Denotes content d) :
    ∃ back : Gap, (read (Utf8.encode content)).toOption = a.map (·, encodeChars back.chars) := by
  obtain ⟨front, back, cs, htext, hcontent⟩ := hcontent
  have hstops : Stops (encodeChars back.chars) := by
    have hback := stops_gap back stops_nil
    rwa [List.append_nil] at hback
  refine ⟨back, ?_⟩
  rw [Utf8.encode, hcontent, Utf8.encodeChars_append, Utf8.encodeChars_append]
  exact h htext front _ hstops

theorem Wire.Agrees.read_denotes {α : Type} {w : Wire α} (h : w.Agrees) {content : String}
    {d : Datum} (hcontent : Denotes content d) :
    (w.read (Utf8.encode content)).toOption = (w.buffered (d.tree unread)).toOption := by
  obtain ⟨back, hread⟩ := Datum.Reads.read_denotes h hcontent
  rw [Wire.read, toOption_bind, hread]
  cases (w.buffered (d.tree unread)).toOption with
  | none => rfl
  | some a =>
    simp only [Option.map_some, Option.bind_some, endText_gap]
    rfl

namespace Datum

def Accepted (depth : Nat) (d : Datum) : Prop :=
  ∃ cs j, d.Text cs ∧ value depth (encodeChars cs) = .ok (j, [])

theorem Accepted.fits {depth : Nat} {d : Datum} (h : d.Accepted depth) : d.fits depth = true := by
  obtain ⟨cs, j, htext, hread⟩ := h
  have hvalue := htext.value_alone depth stops_nil
  rw [List.append_nil, hread, tree?] at hvalue
  cases hfits : d.fits depth with
  | true => rfl
  | false =>
    rw [hfits] at hvalue
    cases hvalue

section Changes
variable {accepts : Nat → Datum → Prop} {layout : Layout} {d d' : Datum}

/-- An order is changed wherever the layout has its records. -/
theorem Step.of_value {accepts' : Nat → Datum → Prop} {depth : Nat}
    (h : Step accepts' depth .value d d') (depth' : Nat) (layout : Layout) :
    Step accepts depth' layout d d' := by
  generalize hlayout : Layout.value = own at h
  induction h generalizing depth' layout with
  | order h => exact .order h
  | member h ih =>
    subst hlayout
    exact .member (ih _ _ (Layout.member_value _).symm)
  | element h ih =>
    subst hlayout
    exact .element (ih _ _ rfl)
  | unknown => cases hlayout

theorem Same.widens (h : d.Same d') : d.Widens accepts layout d' := by
  induction h with
  | refl => exact .refl
  | tail _ hstep ih => exact ih.tail (hstep.of_value maxDepth layout)

theorem Widens.fits (haccepts : ∀ depth d, accepts depth d → d.fits depth = true)
    (h : d.Widens accepts layout d') (hfits : d.fits maxDepth = true) :
    d'.fits maxDepth = true := by
  induction h with
  | refl => exact hfits
  | tail _ hstep ih => exact hstep.fits haccepts ih

theorem Widens.buffered {α : Type} {w : Wire α} {a : α} (h : d.Widens accepts layout d')
    (hw : w.Tolerates layout) (hread : w.buffered (d.tree unread) = .ok a) :
    w.buffered (d'.tree unread) = .ok a := by
  induction h with
  | refl => exact hread
  | tail _ hstep ih => exact hw.widens (hstep.tree (.inr rfl)) ih

end Changes
end Datum

namespace Wire
variable {α : Type} {w : Wire α} {layout : Layout} {content content' : String} {d d' : Datum}

theorem Steady.read_widens (h : w.Steady layout) {accepts : Nat → Datum → Prop}
    (hd : Denotes content d) (hd' : Denotes content' d') (hwidens : d.Widens accepts layout d')
    {a : α} (hread : w.read (Utf8.encode content) = .ok a) :
    w.read (Utf8.encode content') = .ok a := by
  rw [← toOption_eq_some, Agrees.read_denotes h.agrees hd, toOption_eq_some] at hread
  rw [← toOption_eq_some, Agrees.read_denotes h.agrees hd', toOption_eq_some]
  exact hwidens.buffered h.tolerates hread

theorem Steady.read_same (h : w.Steady layout) (hd : Denotes content d) (hd' : Denotes content' d')
    (hsame : d.Same d') :
    (w.read (Utf8.encode content)).toOption = (w.read (Utf8.encode content')).toOption := by
  have hwidens : d.Widens (fun _ _ => False) layout d' := hsame.widens
  have hwidens' : d'.Widens (fun _ _ => False) layout d := hsame.symm.widens
  refine Option.ext fun a => ?_
  rw [toOption_eq_some, toOption_eq_some]
  exact ⟨h.read_widens hd hd' hwidens, h.read_widens hd' hd hwidens'⟩

end Wire
end SandboxWorker.Json
