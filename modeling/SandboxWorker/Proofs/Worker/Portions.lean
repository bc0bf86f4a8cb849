import SandboxWorker.Proofs.Logs.Polls
import SandboxWorker.Proofs.Text.Pieces
import SandboxWorker.Proofs.Worker.Appending
/-! Output that is read in portions while it is written. Nothing of it is read twice and nothing is
passed over, but each portion is made text on its own: the log holds the text of the container just
if every portion ends between two characters. -/
namespace SandboxWorker.LogBatch

def follow : Option Instant → List Bytes → Except FrameError (List LogBatch)
  | _, [] => .ok []
  | since, bs :: reads => do
    let b ← demultiplex bs since
    let later ← follow b.lastTimestamp reads
    return b :: later

/-- The frames of one reading: some that were read before, and then others. -/
structure Portion where
  again : List Frame
  fresh : List Frame
deriving DecidableEq, Repr

namespace Portion

def frames (p : Portion) : List Frame := p.again ++ p.fresh

def bytes (p : Portion) : Bytes := p.frames.flatMap Frame.encode

def content (stream : LogStream) (p : Portion) : Bytes :=
  contents (p.fresh.filter (·.stream = stream))

end Portion

def freshOf (portions : List Portion) : List Frame := portions.flatMap (·.fresh)

def Rereads : List Frame → List Portion → Prop
  | _, [] => True
  | seen, p :: portions => p.again ⊆ seen ∧ Rereads (seen ++ p.fresh) portions

def Climbs (frames : List Frame) : Prop :=
  frames.Pairwise fun f g => f.timestamp.before g.timestamp = true

/-- Of these frames nothing is later than the cursor, and all that comes after them is. -/
def Behind (cursor : Option Instant) (seen : List Frame) : Prop :=
  ∀ f, isNew cursor f = seen.all fun g => g.timestamp.before f.timestamp

def unseen (seen : List Frame) : List Portion → List (List Frame)
  | [] => []
  | p :: portions =>
    (p.fresh.filter fun f => seen.all fun g => g.timestamp.before f.timestamp) ::
      unseen (seen ++ p.fresh) portions

structure Gives (new : List Frame) (b : LogBatch) : Prop where
  frames : b.frames = new.mergeSort fun f g => f.timestamp.notAfter g.timestamp
  stdout : b.stdout = textOf .stdout new
  stderr : b.stderr = textOf .stderr new

theorem map_stdout {news : List (List Frame)} {batches : List LogBatch}
    (h : List.Forall₂ Gives news batches) :
    batches.map (·.stdout) = news.map (textOf .stdout) := by
  induction h with
  | nil => rfl
  | cons hgives _ ih => rw [List.map_cons, List.map_cons, hgives.stdout, ih]

section Reading
variable {cursor : Option Instant} {seen : List Frame} {p : Portion}

theorem filter_isNew_portion (h : Behind cursor seen) (hagain : p.again ⊆ seen) :
    p.frames.filter (isNew cursor) =
      p.fresh.filter fun f => seen.all fun g => g.timestamp.before f.timestamp := by
  have hold : p.again.filter (isNew cursor) = [] := by
    refine List.filter_eq_nil_iff.mpr fun f hf hnew => ?_
    rw [h f, List.all_eq_true] at hnew
    have hself := hnew f (hagain hf)
    rw [Instant.before_irrefl] at hself
    cases hself
  rw [Portion.frames, List.filter_append, hold, List.nil_append]
  exact List.filter_congr fun f _ => h f

theorem Behind.portion (h : Behind cursor seen) (hagain : p.again ⊆ seen) :
    Behind (ofFrames cursor p.frames).lastTimestamp (seen ++ p.fresh) := by
  intro f
  rw [isNew_lastTimestamp, h f, Portion.frames, List.all_append, List.all_append, Bool.eq_iff_iff]
  simp only [Bool.and_eq_true, List.all_eq_true]
  exact ⟨fun ⟨hseen, _, hfresh⟩ => ⟨hseen, hfresh⟩,
    fun ⟨hseen, hfresh⟩ => ⟨hseen, fun g hg => hseen g (hagain hg), hfresh⟩⟩

/-- Each reading gives, of its portion, what is later than all the frames before it. -/
theorem follow_unseen {portions : List Portion} (h : Behind cursor seen)
    (hrereads : Rereads seen portions) (hfits : ∀ f ∈ seen ++ freshOf portions, f.Fits) :
    ∃ batches, follow cursor (portions.map (·.bytes)) = .ok batches ∧
      (∀ b ∈ batches, ∃ bs since, demultiplex bs since = .ok b) ∧
      List.Forall₂ Gives (unseen seen portions) batches := by
  -- On the portions: the cursor stands for all the frames that were seen before.
  induction portions generalizing cursor seen with
  | nil => exact ⟨[], rfl, fun b hb => absurd hb List.not_mem_nil, .nil⟩
  | cons p portions ih =>
    obtain ⟨hagain, hrest⟩ := hrereads
    rw [freshOf, List.flatMap_cons, ← List.append_assoc] at hfits
    have hread : demultiplex p.bytes cursor = .ok (ofFrames cursor p.frames) := by
      refine demultiplex_of_decode (Frame.decode_flatMap fun f hf => hfits f ?_) cursor
      rw [List.append_assoc, List.mem_append, List.mem_append]
      exact (List.mem_append.mp hf).imp (hagain ·) .inl
    obtain ⟨batches, hfollow, hread', hgives⟩ := ih (h.portion hagain) hrest hfits
    refine ⟨ofFrames cursor p.frames :: batches, ?_,
      List.forall_mem_cons.mpr ⟨⟨_, _, hread⟩, hread'⟩, .cons ?_ hgives⟩
    · rw [List.map_cons, follow, hread]
      change (follow _ _).bind _ = _
      rw [hfollow]
      rfl
    · rw [← filter_isNew_portion h hagain]
      exact ⟨rfl, rfl, rfl⟩

theorem unseen_of_climbs {portions : List Portion} (h : Climbs (seen ++ freshOf portions)) :
    unseen seen portions = portions.map (·.fresh) := by
  induction portions generalizing seen with
  | nil => rfl
  | cons p portions ih =>
    rw [freshOf, List.flatMap_cons, ← List.append_assoc] at h
    have hclimbs := List.pairwise_append.mp (List.pairwise_append.mp h).1
    rw [unseen, ih h, List.map_cons]
    congr 1
    refine List.filter_eq_self.mpr fun f hf => List.all_eq_true.mpr fun g hg => ?_
    exact hclimbs.2.2 g hg f hf

theorem follow_portions {portions : List Portion} (h : Behind cursor seen)
    (hrereads : Rereads seen portions) (hclimbs : Climbs (seen ++ freshOf portions))
    (hfits : ∀ f ∈ seen ++ freshOf portions, f.Fits) :
    ∃ batches, follow cursor (portions.map (·.bytes)) = .ok batches ∧
      (∀ b ∈ batches, ∃ bs since, demultiplex bs since = .ok b) ∧
      batches.map (·.stdout) = portions.map fun p => Utf8.decodeLossy (p.content .stdout) := by
  obtain ⟨batches, hfollow, hread, hgives⟩ := follow_unseen h hrereads hfits
  refine ⟨batches, hfollow, hread, ?_⟩
  rw [map_stdout hgives, unseen_of_climbs hclimbs, List.map_map]
  rfl

end Reading

theorem contents_append (a b : List Frame) : contents (a ++ b) = contents a ++ contents b :=
  List.flatMap_append

theorem flatten_content (stream : LogStream) (portions : List Portion) :
    (portions.map (Portion.content stream)).flatten =
      contents ((freshOf portions).filter (·.stream = stream)) := by
  induction portions with
  | nil => rfl
  | cons p portions ih =>
    rw [List.map_cons, List.flatten_cons, ih, freshOf, freshOf, List.flatMap_cons,
      List.filter_append, contents_append]
    rfl

open Worker in
theorem added_batches {batches : List LogBatch}
    (h : ∀ b ∈ batches, ∃ bs since, demultiplex bs since = .ok b) (id : ExecutionId) :
    ∀ p ∈ parts (.forExecution id),
      (batches.flatMap fun b => added (additions (.forExecution id) b) p.1) =
        Utf8.encode (String.join (batches.map p.2)) := by
  intro p hp
  induction batches with
  | nil => rfl
  | cons b batches ih =>
    obtain ⟨⟨bs, since, hb⟩, hrest⟩ := List.forall_mem_cons.mp h
    rw [List.flatMap_cons, added_additions (plain_of_demultiplex hb) p hp, ih hrest, List.map_cons,
      String.join_cons, Utf8.encode_append]

open Worker in
/-- A text is cut into frames, one later than the other, and they are read in portions of any size,
with any of those read before. Every reading succeeds, and what is read is appended to the log; it
is the text just if the bytes of each portion are well-formed. -/
theorem stdout_text_iff {text : String} {portions : List Portion} (hrereads : Rereads [] portions)
    (hfits : ∀ f ∈ freshOf portions, f.Fits) (hclimbs : Climbs (freshOf portions))
    (htext : contents ((freshOf portions).filter (·.stream = .stdout)) = Utf8.encode text) :
    ∃ batches, follow none (portions.map (·.bytes)) = .ok batches ∧
      (∀ id : ExecutionId, (batches.flatMap fun b =>
        added (additions (.forExecution id) b) (LogsPath.forExecution id).stdout) =
          Utf8.encode (String.join (batches.map (·.stdout)))) ∧
      (String.join (batches.map (·.stdout)) = text ↔
        ∀ p ∈ portions, (Utf8.decode? (p.content .stdout)).isSome) := by
  have hbehind : Behind none [] := fun _ => rfl
  obtain ⟨batches, hfollow, hread, htexts⟩ := follow_portions hbehind hrereads hclimbs hfits
  refine ⟨batches, hfollow, fun id => ?_, ?_⟩
  · have hadded := added_batches hread id
    simp only [parts, List.forall_mem_cons] at hadded
    exact hadded.2.1
  · rw [htexts]
    have hpieces := Utf8.join_decodeLossy_eq_iff ((flatten_content .stdout portions).trans htext)
    rw [List.map_map, List.forall_mem_map] at hpieces
    exact hpieces

/-- The two frames of one character; the second is written after the first was read. -/
def splitPortions : List Portion :=
  [⟨[], splitCharacter.take 1⟩, ⟨splitCharacter.take 1, splitCharacter.drop 1⟩]

/-- The two bytes of one character become two ill-formed parts. -/
theorem stdout_text_iff_splitPortions :
    Rereads [] splitPortions ∧ (∀ f ∈ freshOf splitPortions, f.Fits) ∧
    Climbs (freshOf splitPortions) ∧
    contents ((freshOf splitPortions).filter (·.stream = .stdout)) = Utf8.encode "é" ∧
    ∃ batches, follow none (splitPortions.map (·.bytes)) = .ok batches ∧
      String.join (batches.map (·.stdout)) ≠ "é" := by
  have hrereads : Rereads [] splitPortions :=
    ⟨List.nil_subset _, List.Subset.refl _, trivial⟩
  have hfits : ∀ f ∈ freshOf splitPortions, f.Fits := by
    intro f hf
    rcases List.mem_cons.mp hf with rfl | hf
    · exact ⟨by decide, by decide, by decide⟩
    · rw [List.mem_singleton.mp hf]
      exact ⟨by decide, by decide, by decide⟩
  have hclimbs : Climbs (freshOf splitPortions) := by
    unfold Climbs
    decide
  have htext : contents ((freshOf splitPortions).filter (·.stream = .stdout)) =
      Utf8.encode "é" := by decide
  obtain ⟨batches, hfollow, -, hiff⟩ := stdout_text_iff hrereads hfits hclimbs htext
  refine ⟨hrereads, hfits, hclimbs, htext, batches, hfollow, fun hjoin => ?_⟩
  have hsome := hiff.mp hjoin _ List.mem_cons_self
  revert hsome
  decide

end SandboxWorker.LogBatch
