import SandboxWorker.Logs.Batch
import SandboxWorker.Proofs.Logs.Frames
/-! What a batch holds of the frames it was read from. -/
namespace SandboxWorker

namespace Instant

theorem notAfter_iff {a b : Instant} : a.notAfter b = true ↔ b.before a = false := by
  rw [notAfter, Bool.not_eq_true']

theorem notAfter_refl (a : Instant) : a.notAfter a = true :=
  notAfter_iff.mpr a.before_irrefl

theorem notAfter_of_before {a b : Instant} (h : a.before b = true) : a.notAfter b = true := by
  rw [notAfter_iff, Bool.eq_false_iff]
  intro hback
  have hloop := before_trans h hback
  rw [before_irrefl] at hloop
  cases hloop

theorem notAfter_total (a b : Instant) : (a.notAfter b || b.notAfter a) = true := by
  cases h : b.before a with
  | false => rw [notAfter_iff.mpr h, Bool.true_or]
  | true => rw [notAfter_of_before h, Bool.or_true]

theorem notAfter_trans {a b c : Instant} (h : a.notAfter b = true) (h' : b.notAfter c = true) :
    a.notAfter c = true := by
  rw [notAfter_iff, ← Bool.not_eq_true] at *
  simp only [before, Bool.or_eq_true, Bool.and_eq_true, decide_eq_true_eq, beq_iff_eq] at *
  omega

theorem before_of_notAfter_of_before {a b c : Instant} (h : a.notAfter b = true)
    (h' : b.before c = true) : a.before c = true := by
  rw [notAfter_iff, ← Bool.not_eq_true] at h
  simp only [before, Bool.or_eq_true, Bool.and_eq_true, decide_eq_true_eq, beq_iff_eq] at *
  omega

def IsLatest (all : List Instant) : Option Instant → Prop
  | none => all = []
  | some t => t ∈ all ∧ ∀ u ∈ all, u.notAfter t = true

theorem isLatest_cursor (since : Option Instant) : IsLatest since.toList since := by
  cases since with
  | none => rfl
  | some t => exact ⟨List.mem_singleton_self t, by simp [notAfter_refl]⟩

end Instant

namespace LogBatch
open Instant (IsLatest)

theorem isLatest_advance {all : List Instant} {cursor : Option Instant} (h : IsLatest all cursor)
    (t : Instant) : IsLatest (all ++ [t]) (advance cursor t) := by
  cases cursor with
  | none =>
    cases (h : all = [])
    exact ⟨List.mem_singleton_self t, by simp [Instant.notAfter_refl]⟩
  | some c =>
    obtain ⟨hmem, hle⟩ := h
    rw [advance]
    cases hlater : c.before t with
    | true =>
      refine ⟨List.mem_append_right _ (List.mem_singleton_self t), ?_⟩
      simp only [List.forall_mem_append, List.forall_mem_singleton]
      refine ⟨fun u hu => ?_, Instant.notAfter_refl t⟩
      exact Instant.notAfter_trans (hle u hu) (Instant.notAfter_of_before hlater)
    | false =>
      refine ⟨List.mem_append_left _ hmem, ?_⟩
      simp only [List.forall_mem_append, List.forall_mem_singleton]
      exact ⟨hle, Instant.notAfter_iff.mpr hlater⟩

theorem isLatest_foldl {all : List Instant} {cursor : Option Instant} (h : IsLatest all cursor)
    (frames : List Frame) :
    IsLatest (all ++ frames.map (·.timestamp))
      (frames.foldl (fun c f => advance c f.timestamp) cursor) := by
  induction frames generalizing all cursor with
  | nil => simpa using h
  | cons f frames ih =>
    have hrest := ih (isLatest_advance h f.timestamp)
    rwa [List.append_assoc] at hrest

/-- Some frames in order of time, those of one instant as they arrived. -/
structure ByTime (arrived sorted : List Frame) : Prop where
  same : sorted.Perm arrived
  ordered : sorted.Pairwise fun a b => a.timestamp.notAfter b.timestamp = true
  stable : ∀ t, (sorted.filter fun f => f.timestamp = t) = arrived.filter fun f => f.timestamp = t

theorem byTime_mergeSort (frames : List Frame) :
    ByTime frames (frames.mergeSort fun a b => a.timestamp.notAfter b.timestamp) := by
  have htrans (a b c : Frame) (h : a.timestamp.notAfter b.timestamp = true)
      (h' : b.timestamp.notAfter c.timestamp = true) :
      a.timestamp.notAfter c.timestamp = true := Instant.notAfter_trans h h'
  have htotal (a b : Frame) := Instant.notAfter_total a.timestamp b.timestamp
  have hperm := List.mergeSort_perm frames fun a b => a.timestamp.notAfter b.timestamp
  refine ⟨hperm, List.pairwise_mergeSort htrans htotal frames, fun t => ?_⟩
  -- Frames of one instant are in order already, so sorting keeps them as a sublist.
  have hequal : (frames.filter fun f => f.timestamp = t).Pairwise fun a b =>
      a.timestamp.notAfter b.timestamp = true := by
    rw [List.pairwise_iff_forall_sublist]
    intro a b hab
    have ha := List.mem_filter.mp (hab.subset (by simp : a ∈ [a, b]))
    have hb := List.mem_filter.mp (hab.subset (by simp : b ∈ [a, b]))
    rw [of_decide_eq_true ha.2, of_decide_eq_true hb.2]
    exact Instant.notAfter_refl t
  have hsub := (List.sublist_mergeSort htrans htotal hequal List.filter_sublist).filter
    fun f => f.timestamp = t
  simp only [List.filter_filter, Bool.and_self] at hsub
  exact (hsub.eq_of_length (hperm.filter _).length_eq.symm).symm

def later (since : Option Instant) (frames : List Frame) : List Frame :=
  frames.filter fun f => since.all (·.before f.timestamp)

theorem filter_isNew (since : Option Instant) (frames : List Frame) :
    frames.filter (isNew since) = later since frames := by
  cases since <;> rfl

/-- A text made from some bytes: ill-formed parts are replaced, and nothing else is. -/
def IsTextOf (bytes : Bytes) (text : String) : Prop :=
  text = Utf8.decodeLossy bytes ∧ ∀ s, Utf8.encode s = bytes → text = s

theorem isTextOf_decodeLossy (bytes : Bytes) : IsTextOf bytes (Utf8.decodeLossy bytes) :=
  ⟨rfl, fun s hs => by rw [← hs, Utf8.decodeLossy_encode]⟩

/-- What a batch holds of the frames that came after a cursor. -/
structure Holds (since : Option Instant) (frames : List Frame) (b : LogBatch) : Prop where
  byTime : ByTime (later since frames) b.frames
  stdout : IsTextOf (contents ((later since frames).filter (·.stream = .stdout))) b.stdout
  stderr : IsTextOf (contents ((later since frames).filter (·.stream = .stderr))) b.stderr
  latest : IsLatest (since.toList ++ (later since frames).map (·.timestamp)) b.lastTimestamp

theorem holds_ofFrames (since : Option Instant) (frames : List Frame) :
    (ofFrames since frames).Holds since frames := by
  rw [ofFrames, filter_isNew]
  exact ⟨byTime_mergeSort _, isTextOf_decodeLossy _, isTextOf_decodeLossy _,
    isLatest_foldl (Instant.isLatest_cursor since) _⟩

/-- Frames laid out one behind the other are split again, and those later than the cursor are kept
whole. -/
theorem demultiplex_encode (since : Option Instant) {frames : List Frame}
    (h : ∀ f ∈ frames, f.Fits) :
    ∃ b, demultiplex (frames.flatMap Frame.encode) since = .ok b ∧ b.Holds since frames := by
  refine ⟨ofFrames since frames, ?_, holds_ofFrames since frames⟩
  rw [demultiplex, Frame.decode_flatMap h]
  rfl

/-- The two bytes of one character in frames of their own, the second a nanosecond later. -/
def splitCharacter : List Frame :=
  [⟨.stdout, ⟨1000000000, 1, by decide, by decide, by decide, by decide⟩, [0xC3]⟩,
    ⟨.stdout, ⟨1000000000, 2, by decide, by decide, by decide, by decide⟩, [0xA9]⟩]

theorem demultiplex_splitCharacter :
    ∃ b, demultiplex (splitCharacter.flatMap Frame.encode) none = .ok b ∧ b.stdout = "é" := by
  have hfits : ∀ f ∈ splitCharacter, f.Fits := by
    simp only [splitCharacter, List.forall_mem_cons, List.not_mem_nil, false_implies, implies_true,
      and_true]
    exact ⟨⟨by decide, by decide, by decide⟩, ⟨by decide, by decide, by decide⟩⟩
  obtain ⟨b, hread, hholds⟩ := demultiplex_encode none hfits
  exact ⟨b, hread, hholds.stdout.2 "é" (by decide)⟩

end LogBatch
end SandboxWorker
