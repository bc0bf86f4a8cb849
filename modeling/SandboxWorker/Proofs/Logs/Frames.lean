import SandboxWorker.Logs.Frame
import SandboxWorker.Proofs.Instant.Reading
import SandboxWorker.Proofs.Text.Utf8
/-! Frames come back from their bytes, one behind the other. -/
namespace SandboxWorker

namespace Frame

/-- A frame that can be laid out: the year of its timestamp has four digits, and four bytes hold the
length of its payload. -/
structure Fits (f : Frame) : Prop where
  year_nonneg : 0 ≤ f.timestamp.civil.date.year
  year_le : f.timestamp.civil.date.year ≤ 9999
  length_lt : f.content.length < 0x100000000 - overhead

variable {f : Frame}

theorem Fits.length_stamp (h : f.Fits) : f.timestamp.stamp.length = timestampLength := by
  rw [Instant.stamp, Instant.Civil.text, Instant.yearText, if_pos ⟨h.year_nonneg, h.year_le⟩]
  simp only [List.length_append, List.length_cons, Decimal.length_fixed, List.length_nil]
  rfl

theorem Fits.ascii_stamp (h : f.Fits) : ∀ c ∈ f.timestamp.stamp, c.toNat < 0x80 := by
  have hdigits (width n : Nat) : (∀ c ∈ Decimal.fixed width n, c.toNat < 0x80) ↔ True :=
    iff_true_intro fun _ hc => Decimal.ascii_of_isDigit (Decimal.isDigit_of_mem_fixed hc)
  rw [Instant.stamp, Instant.Civil.text, Instant.yearText, if_pos ⟨h.year_nonneg, h.year_le⟩]
  simp only [List.forall_mem_append, List.forall_mem_cons, List.not_mem_nil, false_implies,
    implies_true, hdigits]
  decide

theorem Fits.length_encodeChars (h : f.Fits) :
    (Utf8.encodeChars f.timestamp.stamp).length = timestampLength := by
  rw [Utf8.encodeChars_ascii h.ascii_stamp, List.length_map, h.length_stamp]

theorem Fits.ofPayload_encode (h : f.Fits) :
    ofPayload f.stream (Utf8.encodeChars f.timestamp.stamp ++ 0x20 :: f.content) = .ok f := by
  have hlength := h.length_encodeChars
  have htake : (Utf8.encodeChars f.timestamp.stamp ++ 0x20 :: f.content).take timestampLength =
      Utf8.encodeChars f.timestamp.stamp := by
    rw [← hlength, List.take_left]
  have hdrop : (Utf8.encodeChars f.timestamp.stamp ++ 0x20 :: f.content).drop overhead =
      f.content := by
    rw [overhead, ← hlength, List.drop_length_add_append]
    rfl
  rw [ofPayload, htake, hdrop, Utf8.decodeLossy_encodeChars, String.toList_ofList,
    Instant.strict_stamp h.year_nonneg h.year_le]

theorem Fits.take_encode (h : f.Fits) (rest : Bytes) : take (f.encode ++ rest) = .ok (f, rest) := by
  obtain ⟨payload, hpayload⟩ :
    ∃ p, Utf8.encodeChars f.timestamp.stamp ++ 0x20 :: f.content = p := ⟨_, rfl⟩
  have hlength : payload.length = overhead + f.content.length := by
    rw [← hpayload, List.length_append, h.length_encodeChars, List.length_cons, overhead]
    omega
  have hbytes : f.encode ++ rest = f.stream.tag :: 0 :: 0 :: 0 ::
      (lengthBytes payload.length ++ (payload ++ rest)) := by
    rw [← hpayload] at *
    rw [encode, hlength]
    simp only [List.append_assoc, List.cons_append]
  have hread := ofLengthBytes_lengthBytes (show payload.length < 0x100000000 by
    have := h.length_lt
    omega)
  rw [hbytes, lengthBytes]
  simp only [List.cons_append, List.nil_append, take, LogStream.ofTag?_tag, hread]
  rw [if_neg (by omega), if_neg (by simp), List.take_left, List.drop_left, ← hpayload,
    h.ofPayload_encode]
  rfl

theorem decode_nil : decode [] = .ok [] := by rw [decode]; rfl

theorem decode_of_take {bs rest : Bytes} (h : take bs = .ok (f, rest)) :
    decode bs = (decode rest).map (f :: ·) := by
  have hne : bs.isEmpty = false := by
    cases bs with
    | nil => cases h
    | cons b bs => rfl
  rw [decode, hne, if_neg Bool.false_ne_true]
  split
  · rename_i e he
    rw [h] at he
    cases he
  · rename_i g rest' he
    rw [h] at he
    cases he
    rfl

theorem decode_of_take_error {bs : Bytes} {e : FrameError} (hne : bs ≠ [])
    (h : take bs = .error e) : decode bs = .error e := by
  rw [decode, if_neg (by simpa using hne)]
  split
  · rename_i he
    rw [h] at he
    cases he
    rfl
  · rename_i he
    rw [h] at he
    cases he

theorem decode_cons (h : f.Fits) (rest : Bytes) :
    decode (f.encode ++ rest) = (decode rest).map (f :: ·) :=
  decode_of_take (h.take_encode rest)

theorem decode_flatMap {frames : List Frame} (h : ∀ f ∈ frames, f.Fits) :
    decode (frames.flatMap encode) = .ok frames := by
  induction frames with
  | nil => exact decode_nil
  | cons f frames ih =>
    rw [List.flatMap_cons, decode_cons (h f List.mem_cons_self),
      ih fun g hg => h g (List.mem_cons_of_mem _ hg)]
    rfl

theorem take_append {bs rest : Bytes} (h : take bs = .ok (f, rest)) (more : Bytes) :
    take (bs ++ more) = .ok (f, rest ++ more) := by
  unfold take at h
  split at h
  · rename_i tag _ _ _ a b c d tail
    simp only [List.cons_append, take]
    split at h
    · cases h
    · dsimp only at h ⊢
      split at h
      · cases h
      · rename_i hlong
        split at h
        · cases h
        · rename_i hwhole
          have hle := Nat.le_of_not_lt hwhole
          rw [if_neg hlong, if_neg (by rw [List.length_append]; omega),
            List.take_append_of_le_length hle, List.drop_append_of_le_length hle]
          cases hp : ofPayload _ (tail.take (ofLengthBytes a b c d)) with
          | error e => rw [hp] at h; cases h
          | ok g => rw [hp] at h; cases h; rfl
  · cases h

theorem decode_eq_ok {bs : Bytes} {frames : List Frame} (h : decode bs = .ok frames) :
    (bs = [] ∧ frames = []) ∨ ∃ f rest tail, take bs = .ok (f, rest) ∧ decode rest = .ok tail ∧
      frames = f :: tail := by
  cases bs with
  | nil =>
    rw [decode_nil] at h
    cases h
    exact .inl ⟨rfl, rfl⟩
  | cons b bs =>
    cases htake : take (b :: bs) with
    | error e =>
      rw [decode_of_take_error (by simp) htake] at h
      cases h
    | ok first =>
      obtain ⟨f, rest⟩ := first
      rw [decode_of_take htake] at h
      cases hrest : decode rest with
      | error e =>
        rw [hrest] at h
        cases h
      | ok tail =>
        rw [hrest] at h
        cases h
        exact .inr ⟨f, rest, tail, rfl, hrest, rfl⟩

theorem decode_append {bs : Bytes} {frames : List Frame} (h : decode bs = .ok frames)
    (more : Bytes) : decode (bs ++ more) = (decode more).map (frames ++ ·) := by
  induction frames generalizing bs with
  | nil =>
    rcases decode_eq_ok h with ⟨rfl, -⟩ | ⟨f, rest, tail, -, -, hcons⟩
    · cases hmore : decode more <;> exact hmore
    · cases hcons
  | cons f frames ih =>
    rcases decode_eq_ok h with ⟨-, hnil⟩ | ⟨g, rest, tail, htake, hrest, hcons⟩
    · cases hnil
    · cases hcons
      rw [decode_of_take (take_append htake more), ih hrest]
      cases decode more <;> rfl

end Frame
end SandboxWorker
