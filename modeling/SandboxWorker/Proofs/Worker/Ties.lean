import SandboxWorker.Proofs.Worker.Portions
/-! Output whose timestamps may be equal. The cursor is an instant and not a place in the stream: of
the frames of one instant it cannot tell those that were read from those that were not, and it
counts all of them as read. -/
namespace SandboxWorker.LogBatch

def grown (seen : List Frame) : List (List Frame) → List Portion
  | [] => []
  | part :: parts => ⟨seen, part⟩ :: grown (seen ++ part) parts

def Mounts (frames : List Frame) : Prop :=
  frames.Pairwise fun f g => f.timestamp.notAfter g.timestamp = true

/-- Parts without the frames that have the timestamp of one in a part before. -/
def untied (seen : List Frame) : List (List Frame) → List (List Frame)
  | [] => []
  | part :: parts =>
    (part.filter fun f => ∀ g ∈ seen, g.timestamp ≠ f.timestamp) :: untied (seen ++ part) parts

/-- No part ends between two frames of one instant. -/
def Apart (early late : List Frame) : Prop :=
  ∀ f ∈ early, ∀ g ∈ late, f.timestamp ≠ g.timestamp

theorem apart_append_left {a b late : List Frame} :
    Apart (a ++ b) late ↔ Apart a late ∧ Apart b late := List.forall_mem_append

theorem apart_append_right {early a b : List Frame} :
    Apart early (a ++ b) ↔ Apart early a ∧ Apart early b := by
  simp only [Apart, List.forall_mem_append, forall_and]

theorem apart_flatten {early : List Frame} {parts : List (List Frame)} :
    Apart early parts.flatten ↔ ∀ part ∈ parts, Apart early part := by
  simp only [Apart, List.forall_mem_flatten]
  exact ⟨fun h part hpart f hf g hg => h f hf part hpart g hg,
    fun h f hf part hpart g hg => h part hpart f hf g hg⟩

theorem rereads_grown (seen : List Frame) (parts : List (List Frame)) :
    Rereads seen (grown seen parts) := by
  induction parts generalizing seen with
  | nil => trivial
  | cons part parts ih => exact ⟨List.Subset.refl seen, ih (seen ++ part)⟩

theorem freshOf_grown (seen : List Frame) (parts : List (List Frame)) :
    freshOf (grown seen parts) = parts.flatten := by
  induction parts generalizing seen with
  | nil => rfl
  | cons part parts ih =>
    change part ++ freshOf (grown (seen ++ part) parts) = _
    rw [ih, List.flatten_cons]

section Order
variable {seen : List Frame} {parts : List (List Frame)}

theorem before_iff_ne {f g : Frame} (h : f.timestamp.notAfter g.timestamp = true) :
    f.timestamp.before g.timestamp = true ↔ f.timestamp ≠ g.timestamp := by
  refine ⟨fun hbefore heq => ?_, fun hne => ?_⟩
  · rw [heq, Instant.before_irrefl] at hbefore
    cases hbefore
  · by_contra hbefore
    exact hne (Instant.eq_of_not_before (Bool.eq_false_iff.mpr hbefore) (Instant.notAfter_iff.mp h))

theorem unseen_grown (h : Mounts (seen ++ parts.flatten)) :
    unseen seen (grown seen parts) = untied seen parts := by
  induction parts generalizing seen with
  | nil => rfl
  | cons part parts ih =>
    rw [List.flatten_cons, ← List.append_assoc] at h
    have hmounts := (List.pairwise_append.mp (List.pairwise_append.mp h).1).2.2
    rw [grown, unseen, untied, ih h]
    congr 1
    refine List.filter_congr fun f hf => ?_
    rw [Bool.eq_iff_iff, List.all_eq_true, decide_eq_true_eq]
    exact forall₂_congr fun g hg => before_iff_ne (hmounts g hg f hf)

theorem untied_sublist (seen : List Frame) (parts : List (List Frame)) :
    (untied seen parts).flatten.Sublist parts.flatten := by
  induction parts generalizing seen with
  | nil => exact List.Sublist.refl []
  | cons part parts ih => exact List.filter_sublist.append (ih (seen ++ part))

theorem mounts_untied (h : Mounts parts.flatten) : ∀ part ∈ untied seen parts, Mounts part :=
  fun _ hpart => h.sublist ((List.sublist_flatten_of_mem hpart).trans (untied_sublist seen parts))

theorem flatten_untied_iff : (untied seen parts).flatten = parts.flatten ↔
    Apart seen parts.flatten ∧ parts.Pairwise Apart := by
  induction parts generalizing seen with
  | nil => simp [untied, Apart]
  | cons part parts ih =>
    have hpart : part.filter (fun f => ∀ g ∈ seen, g.timestamp ≠ f.timestamp) = part ↔
        Apart seen part := by
      simp only [List.filter_eq_self, decide_eq_true_eq]
      exact ⟨fun h g hg f hf => h f hf g hg, fun h f hf g hg => h g hg f hf⟩
    have hsplit : (untied seen (part :: parts)).flatten = (part :: parts).flatten ↔
        Apart seen part ∧ (untied (seen ++ part) parts).flatten = parts.flatten := by
      rw [untied, List.flatten_cons, List.flatten_cons, ← hpart]
      refine ⟨fun h => ?_, fun ⟨hkept, hrest⟩ => by rw [hkept, hrest]⟩
      -- Neither side of the append can be the longer one.
      have hlength := congrArg List.length h
      have hkept := List.length_filter_le (fun f => ∀ g ∈ seen, g.timestamp ≠ f.timestamp) part
      have hrest := (untied_sublist (seen ++ part) parts).length_le
      rw [List.length_append, List.length_append] at hlength
      exact List.append_inj h (by omega)
    rw [hsplit, ih, List.pairwise_cons, List.flatten_cons, apart_append_left, apart_append_right,
      ← apart_flatten]
    tauto

end Order

theorem map_of_gives {news : List (List Frame)} {batches : List LogBatch}
    (h : List.Forall₂ Gives news batches) (hmounts : ∀ new ∈ news, Mounts new) :
    batches.map (fun b => (b.frames, b.stdout, b.stderr)) =
      news.map fun new => (new, textOf .stdout new, textOf .stderr new) := by
  induction h with
  | nil => rfl
  | @cons new b news _ hgive _ ih =>
    obtain ⟨hnew, hrest⟩ := List.forall_mem_cons.mp hmounts
    have hframes : b.frames = new := hgive.frames.trans (List.mergeSort_of_pairwise hnew)
    rw [List.map_cons, List.map_cons, ih hrest, hframes, hgive.stdout, hgive.stderr]

theorem follow_grown {parts : List (List Frame)} (hfits : ∀ f ∈ parts.flatten, f.Fits)
    (hmounts : Mounts parts.flatten) :
    ∃ batches, follow none ((grown [] parts).map (·.bytes)) = .ok batches ∧
      batches.map (fun b => (b.frames, b.stdout, b.stderr)) =
        (untied [] parts).map fun kept => (kept, textOf .stdout kept, textOf .stderr kept) := by
  have hbehind : Behind none [] := fun _ => rfl
  have hfresh : ∀ f ∈ [] ++ freshOf (grown [] parts), f.Fits := by
    rwa [List.nil_append, freshOf_grown]
  obtain ⟨batches, hfollow, -, hgives⟩ := follow_unseen hbehind (rereads_grown [] parts) hfresh
  rw [unseen_grown hmounts] at hgives
  exact ⟨batches, hfollow, map_of_gives hgives (mounts_untied hmounts)⟩

/-- Frames come in order of time and are read in parts of any size, all those before once more with
each part. Every reading succeeds, and gives its part as it arrived, but for the frames that have
the timestamp of one in a part before: those no reading gives. So all that was written is read just
if no part ends between two frames of one instant. -/
theorem read_unless_tied {parts : List (List Frame)} (hfits : ∀ f ∈ parts.flatten, f.Fits)
    (hmounts : Mounts parts.flatten) :
    ∃ batches, follow none ((grown [] parts).map (·.bytes)) = .ok batches ∧
      batches.map (fun b => (b.frames, b.stdout, b.stderr)) =
        (untied [] parts).map (fun kept => (kept, textOf .stdout kept, textOf .stderr kept)) ∧
      (batches.flatMap (·.frames) = parts.flatten ↔ parts.Pairwise Apart) := by
  obtain ⟨batches, hfollow, hgives⟩ := follow_grown hfits hmounts
  refine ⟨batches, hfollow, hgives, ?_⟩
  have hframes : batches.map (·.frames) = untied [] parts := by
    have hfirst := congrArg (List.map Prod.fst) hgives
    rwa [List.map_map, List.map_map, List.map_id''] at hfirst
    exact fun _ => rfl
  have hnothing : Apart [] parts.flatten := fun f hf => absurd hf List.not_mem_nil
  rw [List.flatMap_def, hframes, flatten_untied_iff]
  exact and_iff_right hnothing

/-- Two frames of one instant and one of the next; a reading comes between the first two. -/
def tiedParts : List (List Frame) :=
  let first : Instant := ⟨1700000000, 7, by decide, by decide, by decide, by decide⟩
  let second : Instant := ⟨1700000000, 8, by decide, by decide, by decide, by decide⟩
  [[⟨.stdout, first, [0x61]⟩], [⟨.stdout, first, [0x62]⟩, ⟨.stdout, second, [0x63]⟩]]

theorem fits_tiedParts : ∀ f ∈ tiedParts.flatten, f.Fits := by
  simp only [tiedParts, List.flatten_cons, List.flatten_nil, List.append_nil, List.cons_append,
    List.nil_append, List.forall_mem_cons, List.not_mem_nil, false_implies, implies_true, and_true]
  refine ⟨⟨?_, ?_, ?_⟩, ⟨?_, ?_, ?_⟩, ⟨?_, ?_, ?_⟩⟩ <;> decide

theorem mounts_tiedParts : Mounts tiedParts.flatten := by
  unfold Mounts
  decide

/-- The second frame is never read. -/
theorem tied_frame_unread : ¬ ∀ parts : List (List Frame), (∀ f ∈ parts.flatten, f.Fits) →
    Mounts parts.flatten → ∃ batches, follow none ((grown [] parts).map (·.bytes)) = .ok batches ∧
      ∀ f ∈ parts.flatten, ∃ b ∈ batches, f ∈ b.frames := by
  intro h
  obtain ⟨batches, hfollow, hall⟩ := h tiedParts fits_tiedParts mounts_tiedParts
  obtain ⟨batches', hfollow', hgives⟩ := follow_grown fits_tiedParts mounts_tiedParts
  cases hfollow.symm.trans hfollow'
  have hkept : ∀ b ∈ batches, ∃ kept ∈ untied [] tiedParts, b.frames = kept := by
    intro b hb
    have hmem := List.mem_map_of_mem (f := fun b : LogBatch => (b.frames, b.stdout, b.stderr)) hb
    rw [hgives] at hmem
    obtain ⟨kept, hkept, heq⟩ := List.mem_map.mp hmem
    exact ⟨kept, hkept, (congrArg Prod.fst heq).symm⟩
  have hlost : ∃ f ∈ tiedParts.flatten, ∀ kept ∈ untied [] tiedParts, f ∉ kept := by decide
  obtain ⟨f, hf, hlost⟩ := hlost
  obtain ⟨b, hb, hfb⟩ := hall f hf
  obtain ⟨kept, hmem, heq⟩ := hkept b hb
  exact hlost kept hmem (heq ▸ hfb)

theorem read_unless_tied_tiedParts :
    (∀ f ∈ tiedParts.flatten, f.Fits) ∧ Mounts tiedParts.flatten ∧
    ∃ batches, follow none ((grown [] tiedParts).map (·.bytes)) = .ok batches ∧
      batches.map (·.stdout) = ["a", "c"] ∧ batches.flatMap (·.frames) ≠ tiedParts.flatten := by
  obtain ⟨batches, hfollow, hgives, hiff⟩ := read_unless_tied fits_tiedParts mounts_tiedParts
  refine ⟨fits_tiedParts, mounts_tiedParts, batches, hfollow, ?_, fun hall => ?_⟩
  · have hstdout := congrArg (List.map fun b => b.2.1) hgives
    rw [List.map_map] at hstdout
    refine hstdout.trans ?_
    decide
  · have hapart := hiff.mp hall
    unfold Apart at hapart
    revert hapart
    decide

end SandboxWorker.LogBatch
