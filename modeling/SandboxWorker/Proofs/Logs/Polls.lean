import SandboxWorker.Proofs.Logs.Batches
/-! A stream that is read again and again, each time from where the last reading that succeeded
ended. The cursor is as good as the whole past: a frame is later than the cursor just if it is later
than where the readings began and than every frame that was read. -/
namespace SandboxWorker.LogBatch

def framesOf (bs : Bytes) : List Frame := (Frame.decode bs).toOption.getD []

/-- The cursor after a reading. One that fails leaves it as it was. -/
def poll (cursor : Option Instant) (bs : Bytes) : Option Instant :=
  match demultiplex bs cursor with
  | .ok b => b.lastTimestamp
  | .error _ => cursor

def cursorOf (since : Option Instant) (reads : List Bytes) : Option Instant :=
  reads.foldl poll since

def notAhead : Option Instant → Option Instant → Bool
  | none, _ => true
  | some _, none => false
  | some a, some b => a.notAfter b

/-- Whether a frame is later than where some readings began and than all frames they read. -/
def isLater (since : Option Instant) (reads : List Bytes) (f : Frame) : Bool :=
  isNew since f && reads.all fun bs => (framesOf bs).all fun g => g.timestamp.before f.timestamp

/-- How many frames of a stream some readings of its beginnings have seen. -/
def known (reads : List Bytes) : Nat := (reads.map fun bs => (framesOf bs).length).foldr max 0

theorem framesOf_eq {bs : Bytes} {frames : List Frame} (h : Frame.decode bs = .ok frames) :
    framesOf bs = frames := by
  rw [framesOf, h]
  rfl

theorem demultiplex_of_decode {bs : Bytes} {frames : List Frame} (h : Frame.decode bs = .ok frames)
    (since : Option Instant) : demultiplex bs since = .ok (ofFrames since frames) := by
  rw [demultiplex, h]
  rfl

theorem demultiplex_eq_ok {bs : Bytes} {since : Option Instant} {b : LogBatch}
    (h : demultiplex bs since = .ok b) :
    ∃ frames, Frame.decode bs = .ok frames ∧ ofFrames since frames = b := by
  rw [demultiplex] at h
  cases hdecode : Frame.decode bs with
  | error e =>
    rw [hdecode] at h
    cases h
  | ok frames =>
    rw [hdecode] at h
    cases h
    exact ⟨frames, rfl, rfl⟩

theorem poll_eq (cursor : Option Instant) (bs : Bytes) :
    poll cursor bs = (ofFrames cursor (framesOf bs)).lastTimestamp := by
  unfold poll demultiplex framesOf
  cases Frame.decode bs <;> rfl

@[simp] theorem cursorOf_nil (since : Option Instant) : cursorOf since [] = since := rfl

@[simp] theorem cursorOf_cons (since : Option Instant) (bs : Bytes) (reads : List Bytes) :
    cursorOf since (bs :: reads) = cursorOf (poll since bs) reads := rfl

theorem cursorOf_append (since : Option Instant) (early late : List Bytes) :
    cursorOf since (early ++ late) = cursorOf (cursorOf since early) late :=
  List.foldl_append ..

/-! ### What is later than a cursor -/

theorem isNew_advance (cursor : Option Instant) (t : Instant) (f : Frame) :
    isNew (advance cursor t) f = (isNew cursor f && t.before f.timestamp) := by
  cases cursor with
  | none => rfl
  | some c =>
    rw [advance, Bool.eq_iff_iff, Bool.and_eq_true]
    split
    · rename_i hahead
      exact ⟨fun h => ⟨Instant.before_trans hahead h, h⟩, And.right⟩
    · rename_i hbehind
      refine ⟨fun h => ⟨h, ?_⟩, And.left⟩
      exact Instant.before_of_notAfter_of_before
        (Instant.notAfter_iff.mpr (Bool.eq_false_iff.mpr hbehind)) h

theorem isNew_foldl (cursor : Option Instant) (frames : List Frame) (f : Frame) :
    isNew (frames.foldl (fun c g => advance c g.timestamp) cursor) f =
      (isNew cursor f && frames.all fun g => g.timestamp.before f.timestamp) := by
  induction frames generalizing cursor with
  | nil => simp
  | cons g frames ih => rw [List.foldl_cons, ih, isNew_advance, List.all_cons, Bool.and_assoc]

/-- Frames that are not later than a cursor do not matter to what is later than it. -/
theorem isNew_lastTimestamp (cursor : Option Instant) (frames : List Frame) (f : Frame) :
    isNew (ofFrames cursor frames).lastTimestamp f =
      (isNew cursor f && frames.all fun g => g.timestamp.before f.timestamp) := by
  rw [ofFrames, isNew_foldl, Bool.eq_iff_iff, Bool.and_eq_true, Bool.and_eq_true]
  refine and_congr_right fun hnew => ?_
  simp only [List.all_eq_true, List.mem_filter]
  refine ⟨fun h g hg => ?_, fun h g hg => h g hg.1⟩
  cases hg' : isNew cursor g with
  | true => exact h g ⟨hg, hg'⟩
  | false =>
    cases cursor with
    | none => cases hg'
    | some t => exact Instant.before_of_notAfter_of_before (Instant.notAfter_iff.mpr hg') hnew

theorem isNew_poll (cursor : Option Instant) (bs : Bytes) (f : Frame) :
    isNew (poll cursor bs) f =
      (isNew cursor f && (framesOf bs).all fun g => g.timestamp.before f.timestamp) := by
  rw [poll_eq, isNew_lastTimestamp]

theorem isNew_cursorOf (since : Option Instant) (reads : List Bytes) (f : Frame) :
    isNew (cursorOf since reads) f = isLater since reads f := by
  induction reads generalizing since with
  | nil => simp [isLater]
  | cons bs reads ih =>
    rw [cursorOf_cons, ih, isLater, isNew_poll, isLater, List.all_cons, Bool.and_assoc]

/-! ### The cursor -/

theorem notAhead_refl (cursor : Option Instant) : notAhead cursor cursor = true := by
  cases cursor with
  | none => rfl
  | some t => exact t.notAfter_refl

theorem notAhead_trans {a b c : Option Instant} (h : notAhead a b = true)
    (h' : notAhead b c = true) : notAhead a c = true := by
  cases a with
  | none => rfl
  | some a =>
    cases b with
    | none => cases h
    | some b =>
      cases c with
      | none => cases h'
      | some c => exact Instant.notAfter_trans h h'

theorem notAhead_advance (cursor : Option Instant) (t : Instant) :
    notAhead cursor (advance cursor t) = true := by
  cases cursor with
  | none => rfl
  | some c =>
    change c.notAfter (if c.before t then t else c) = true
    split
    · rename_i hahead
      exact Instant.notAfter_of_before hahead
    · exact c.notAfter_refl

theorem notAhead_foldl (cursor : Option Instant) (frames : List Frame) :
    notAhead cursor (frames.foldl (fun c f => advance c f.timestamp) cursor) = true := by
  induction frames generalizing cursor with
  | nil => exact notAhead_refl cursor
  | cons f frames ih => exact notAhead_trans (notAhead_advance cursor f.timestamp) (ih _)

theorem notAhead_cursorOf (since : Option Instant) (reads : List Bytes) :
    notAhead since (cursorOf since reads) = true := by
  induction reads generalizing since with
  | nil => exact notAhead_refl since
  | cons bs reads ih =>
    refine notAhead_trans ?_ (ih (poll since bs))
    rw [poll_eq]
    exact notAhead_foldl since _

/-! ### What a reading gives -/

theorem mem_frames_ofFrames {cursor : Option Instant} {frames : List Frame} {f : Frame} :
    f ∈ (ofFrames cursor frames).frames ↔ f ∈ frames ∧ isNew cursor f = true := by
  rw [ofFrames, List.mem_mergeSort, List.mem_filter]

theorem ofFrames_of_none_new {cursor : Option Instant} {frames : List Frame}
    (h : ∀ f ∈ frames, isNew cursor f = false) : ofFrames cursor frames = ofFrames cursor [] := by
  have hnone : frames.filter (isNew cursor) = [] :=
    List.filter_eq_nil_iff.mpr fun f hf => Bool.eq_false_iff.mp (h f hf)
  rw [ofFrames, hnone]
  rfl

theorem isLater_of_mem {since : Option Instant} {reads : List Bytes} {bs : Bytes} {f g : Frame}
    (hg : isLater since reads g = true) (hbs : bs ∈ reads) (hf : f ∈ framesOf bs) :
    f.timestamp.before g.timestamp = true := by
  rw [isLater, Bool.and_eq_true, List.all_eq_true] at hg
  exact List.all_eq_true.mp (hg.2 bs hbs) f hf

theorem not_isLater_of_mem {since : Option Instant} {reads : List Bytes} {bs : Bytes} {f : Frame}
    (hbs : bs ∈ reads) (hf : f ∈ framesOf bs) : isLater since reads f = false := by
  rw [Bool.eq_false_iff]
  intro hlater
  have hbefore := isLater_of_mem hlater hbs hf
  rw [Instant.before_irrefl] at hbefore
  cases hbefore

theorem known_cases (reads : List Bytes) :
    known reads = 0 ∨ ∃ bs ∈ reads, (framesOf bs).length = known reads := by
  induction reads with
  | nil => exact .inl rfl
  | cons bs reads ih =>
    have hmax : known (bs :: reads) = max (framesOf bs).length (known reads) := rfl
    rcases Nat.le_total (known reads) (framesOf bs).length with hle | hle
    · exact .inr ⟨bs, List.mem_cons_self, by rw [hmax, Nat.max_eq_left hle]⟩
    · rw [hmax, Nat.max_eq_right hle]
      refine ih.imp_right fun ⟨a, ha, hlength⟩ => ⟨a, List.mem_cons_of_mem bs ha, hlength⟩

theorem framesOf_prefix {a bs : Bytes} {frames : List Frame} (h : a <+: bs)
    (hbs : Frame.decode bs = .ok frames) : framesOf a <+: frames := by
  obtain ⟨more, rfl⟩ := h
  cases ha : Frame.decode a with
  | error e =>
    rw [framesOf, ha]
    exact List.nil_prefix
  | ok first =>
    rw [Frame.decode_append ha] at hbs
    rw [framesOf_eq ha]
    cases hmore : Frame.decode more with
    | error e =>
      rw [hmore] at hbs
      cases hbs
    | ok rest =>
      rw [hmore] at hbs
      cases hbs
      exact List.prefix_append first rest

/-- Of a stream that was read up to some frame, nothing up to there is later than what was read. -/
theorem filter_isLater {since : Option Instant} {reads : List Bytes} {frames : List Frame}
    (h : ∀ bs ∈ reads, framesOf bs <+: frames) :
    frames.filter (isLater since reads) =
      (frames.drop (known reads)).filter (isLater since reads) := by
  have hold : (frames.take (known reads)).filter (isLater since reads) = [] := by
    refine List.filter_eq_nil_iff.mpr fun f hf => Bool.eq_false_iff.mp ?_
    -- The reading that saw most of the stream saw these frames, too.
    rcases known_cases reads with hzero | ⟨bs, hbs, hlength⟩
    · rw [hzero] at hf
      cases hf
    · apply not_isLater_of_mem hbs
      rw [← hlength, ← List.prefix_iff_eq_take.mp (h bs hbs)] at hf
      exact hf
  rw [← List.take_append_drop (known reads) frames, List.filter_append, hold, List.nil_append,
    List.take_append_drop]

section Readings
variable {since : Option Instant} {early late : List Bytes} {bs : Bytes} {b : LogBatch}

theorem before_of_reads {middle : List Bytes} {bs' : Bytes} {b' : LogBatch}
    (hb : demultiplex bs (cursorOf since early) = .ok b)
    (hb' : demultiplex bs' (cursorOf since (early ++ bs :: middle)) = .ok b') :
    ∀ f ∈ b.frames, ∀ g ∈ b'.frames, f.timestamp.before g.timestamp = true := by
  intro f hf g hg
  obtain ⟨frames, hframes, rfl⟩ := demultiplex_eq_ok hb
  obtain ⟨frames', -, rfl⟩ := demultiplex_eq_ok hb'
  have hnew := (mem_frames_ofFrames.mp hg).2
  rw [isNew_cursorOf] at hnew
  refine isLater_of_mem hnew (List.mem_append_right early List.mem_cons_self) ?_
  rw [framesOf_eq hframes]
  exact (mem_frames_ofFrames.mp hf).1

theorem nothing_again (hb : demultiplex bs (cursorOf since early) = .ok b) :
    ∃ again, demultiplex bs (cursorOf since (early ++ bs :: late)) = .ok again ∧
      again.frames = [] ∧ again.lastTimestamp = cursorOf since (early ++ bs :: late) := by
  obtain ⟨frames, hframes, rfl⟩ := demultiplex_eq_ok hb
  refine ⟨_, demultiplex_of_decode hframes _, ?_⟩
  rw [ofFrames_of_none_new]
  · exact ⟨List.mergeSort_nil, rfl⟩
  · intro f hf
    rw [isNew_cursorOf]
    apply not_isLater_of_mem (List.mem_append_right early List.mem_cons_self)
    rw [framesOf_eq hframes]
    exact hf

/-- If no reading that succeeds is shorter than one before it, each gives what is later among the
frames that none before it has seen. -/
theorem byTime_of_grown
    (hgrow : ((early ++ bs :: late).filter fun bs => (Frame.decode bs).isOk).Pairwise (· <+: ·))
    (hb : demultiplex bs (cursorOf since early) = .ok b) :
    ByTime (((framesOf bs).drop (known early)).filter (isLater since early)) b.frames := by
  obtain ⟨frames, hframes, rfl⟩ := demultiplex_eq_ok hb
  have hbegin : ∀ a ∈ early, framesOf a <+: frames := by
    intro a ha
    cases hdecode : Frame.decode a with
    | error e =>
      rw [framesOf, hdecode]
      exact List.nil_prefix
    | ok first =>
      refine framesOf_prefix ?_ hframes
      rw [List.filter_append, List.filter_cons_of_pos (by rw [hframes]; rfl)] at hgrow
      refine (List.pairwise_append.mp hgrow).2.2 a ?_ bs List.mem_cons_self
      exact List.mem_filter.mpr ⟨ha, by rw [hdecode]; rfl⟩
  have hnew : frames.filter (isNew (cursorOf since early)) =
      (frames.drop (known early)).filter (isLater since early) := by
    rw [← filter_isLater hbegin]
    exact List.filter_congr fun f _ => isNew_cursorOf since early f
  rw [framesOf_eq hframes, ← hnew]
  exact byTime_mergeSort _

end Readings

/-- However a stream is read, the cursor does not go back, every reading gives only what is later
than all that was read before it, and bytes that were read give nothing when they are read again. If
the readings that succeed are ever longer beginnings of one stream, each of them gives, of the
frames that none before it has seen, those that are later than the first cursor and than every frame
seen before. -/
theorem polls_in_order (since : Option Instant) (reads : List Bytes) :
    (∀ early late, reads = early ++ late →
      notAhead (cursorOf since early) (cursorOf since reads) = true) ∧
    (∀ early bs middle bs' late b b', reads = early ++ bs :: (middle ++ bs' :: late) →
      demultiplex bs (cursorOf since early) = .ok b →
      demultiplex bs' (cursorOf since (early ++ bs :: middle)) = .ok b' →
      ∀ f ∈ b.frames, ∀ g ∈ b'.frames, f.timestamp.before g.timestamp = true) ∧
    (∀ early bs late b, reads = early ++ bs :: late →
      demultiplex bs (cursorOf since early) = .ok b →
      ∃ again, demultiplex bs (cursorOf since reads) = .ok again ∧ again.frames = [] ∧
        again.lastTimestamp = cursorOf since reads) ∧
    ((reads.filter fun bs => (Frame.decode bs).isOk).Pairwise (· <+: ·) →
      ∀ early bs late b, reads = early ++ bs :: late →
        demultiplex bs (cursorOf since early) = .ok b →
        ByTime (((framesOf bs).drop (known early)).filter (isLater since early)) b.frames) := by
  refine ⟨?_, ?_, ?_, ?_⟩
  · rintro early late rfl
    rw [cursorOf_append]
    exact notAhead_cursorOf _ late
  · intro early bs middle bs' late b b' _ hb hb'
    exact before_of_reads hb hb'
  · rintro early bs late b rfl hb
    exact nothing_again hb
  · rintro hgrow early bs late b rfl hb
    exact byTime_of_grown hgrow hb

def frameAt (second : Fin 60) : Frame :=
  ⟨.stdout, (Instant.ofSecond? second 0).get (by revert second; decide), [0x61]⟩

/-- Frames out of order: read up to the second one, then up to the middle of the last, then all. -/
def interruptedReads : List Bytes :=
  let bytes := [frameAt 10, frameAt 5, frameAt 7, frameAt 20].map Frame.encode
  [(bytes.take 2).flatten, bytes.flatten.dropLast, bytes.flatten]

theorem polls_in_order_interrupted :
    ((interruptedReads.filter fun bs => (Frame.decode bs).isOk).Pairwise (· <+: ·)) ∧
    ∃ bs b, interruptedReads = interruptedReads.take 2 ++ [bs] ∧
      demultiplex bs (cursorOf none (interruptedReads.take 2)) = .ok b ∧
      b.frames = [frameAt 20] := by
  have hgrow : (interruptedReads.filter fun bs => (Frame.decode bs).isOk).Pairwise (· <+: ·) := by
    decide +kernel
  obtain ⟨bs, hbs⟩ : ∃ bs, bs = interruptedReads[2] := ⟨_, rfl⟩
  have hreads : interruptedReads = interruptedReads.take 2 ++ [bs] := by
    rw [hbs]
    rfl
  have hframes : ((framesOf bs).drop (known (interruptedReads.take 2))).filter
      (isLater none (interruptedReads.take 2)) = [frameAt 20] := by
    rw [hbs]
    decide +kernel
  have hwhole : (Frame.decode bs).isOk = true := by
    rw [hbs]
    decide +kernel
  cases hdecode : Frame.decode bs with
  | error e =>
    rw [hdecode] at hwhole
    cases hwhole
  | ok frames =>
    refine ⟨hgrow, bs, _, hreads, demultiplex_of_decode hdecode _, ?_⟩
    have hbyTime := (polls_in_order none interruptedReads).2.2.2 hgrow _ bs [] _ hreads
      (demultiplex_of_decode hdecode _)
    rw [hframes] at hbyTime
    exact List.perm_singleton.mp hbyTime.same

end SandboxWorker.LogBatch
