import SandboxWorker.Proofs.Logs.Polls
/-! A stream is read in one pass, by reads that would stop where they asked for more bytes than are
left. None ever does, and the pass gives the batch that the frames of the whole stream give. -/
namespace SandboxWorker

inductive ReadStop where
  | overrun
  | malformed (reason : FrameError)
deriving DecidableEq, Repr

abbrev Reading (α : Type) := Except ReadStop α

namespace Reading

def byte : Bytes → Reading (UInt8 × Bytes)
  | b :: rest => .ok (b, rest)
  | [] => .error .overrun

def bytes (n : Nat) (bs : Bytes) : Reading (Bytes × Bytes) :=
  if n ≤ bs.length then .ok (bs.take n, bs.drop n) else .error .overrun

def word : Bytes → Reading (Nat × Bytes)
  | a :: b :: c :: d :: rest => .ok (Frame.ofLengthBytes a b c d, rest)
  | _ => .error .overrun

def fail {α : Type} (reason : FrameError) : Reading α := .error (.malformed reason)

def payload (bs : Bytes) : Reading (LogStream × Bytes × Bytes) := do
  if bs.length < Frame.headerLength then fail (.truncated Frame.headerLength bs.length)
  else
    let (tag, bs) ← byte bs
    match LogStream.ofTag? tag with
    | none => fail (.unknownStream tag)
    | some stream =>
      let (_, bs) ← bytes 3 bs
      let (length, bs) ← word bs
      if length < Frame.overhead then fail (.tooShort length)
      else if bs.length < length then fail (.truncated length bs.length)
      else
        let (payload, rest) ← bytes length bs
        return (stream, payload, rest)

def timestamp (payload : Bytes) : Reading Instant := do
  let (stamp, _) ← bytes Frame.timestampLength payload
  let raw := Utf8.decodeLossy stamp
  match Instant.strict raw.toList with
  | .ok t => return t
  | .error reason => fail (.timestamp raw reason)

end Reading

structure LogPass where
  /-- The frames of both streams, as they arrived. -/
  frames : List Frame
  stdout : Bytes
  stderr : Bytes
  lastTimestamp : Option Instant

namespace LogPass
open Reading LogBatch

def start (since : Option Instant) : LogPass := ⟨[], [], [], since⟩

def add (p : LogPass) (f : Frame) : LogPass where
  frames := p.frames ++ [f]
  stdout := if f.stream = .stdout then p.stdout ++ f.content else p.stdout
  stderr := if f.stream = .stderr then p.stderr ++ f.content else p.stderr
  lastTimestamp := advance p.lastTimestamp f.timestamp

def batch (p : LogPass) : LogBatch where
  frames := p.frames.mergeSort fun a b => a.timestamp.notAfter b.timestamp
  stdout := Utf8.decodeLossy p.stdout
  stderr := Utf8.decodeLossy p.stderr
  lastTimestamp := p.lastTimestamp

/-- The pass after a payload. A frame that is not later than the cursor is dropped once its
timestamp is read. -/
def entry (since : Option Instant) (p : LogPass) (stream : LogStream) (payload : Bytes) :
    Reading LogPass := do
  let timestamp ← timestamp payload
  if since.any timestamp.notAfter then return p
  let (_, content) ← bytes Frame.overhead payload
  return p.add { stream, timestamp, content }

def turn (since : Option Instant) (p : LogPass) (bs : Bytes) : Reading (LogPass × Bytes) := do
  let (stream, payload, rest) ← payload bs
  let p ← p.entry since stream payload
  return (p, rest)

def keep (since : Option Instant) (p : LogPass) (f : Frame) : LogPass :=
  if isNew since f then p.add f else p

end LogPass

theorem Frame.short_or_header (bs : Bytes) : bs.length < headerLength ∨
    ∃ tag x y z a b c d rest, bs = tag :: x :: y :: z :: a :: b :: c :: d :: rest := by
  match bs with
  | tag :: x :: y :: z :: a :: b :: c :: d :: rest => exact .inr ⟨_, _, _, _, _, _, _, _, _, rfl⟩
  | [] | [_] | [_, _] | [_, _, _] | [_, _, _, _] | [_, _, _, _, _] | [_, _, _, _, _, _]
  | [_, _, _, _, _, _, _] => simp [headerLength]

theorem Frame.take_of_short {bs : Bytes} (h : bs.length < headerLength) :
    take bs = .error (.truncated headerLength bs.length) := by
  unfold take
  split
  · simp only [headerLength, List.length_cons] at h
    omega
  · rfl

namespace Reading

theorem bytes_of_le {n : Nat} {bs : Bytes} (h : n ≤ bs.length) :
    bytes n bs = .ok (bs.take n, bs.drop n) :=
  if_pos h

theorem bytes_three (x y z : UInt8) (rest : Bytes) :
    bytes 3 (x :: y :: z :: rest) = .ok ([x, y, z], rest) :=
  bytes_of_le (by simp)

end Reading

namespace LogPass
open Reading LogBatch
variable {since : Option Instant}

theorem any_notAfter (since : Option Instant) (f : Frame) :
    since.any f.timestamp.notAfter = !isNew since f := by
  cases since <;> rfl

theorem entry_eq (p : LogPass) (stream : LogStream) {payload : Bytes}
    (h : Frame.overhead ≤ payload.length) :
    p.entry since stream payload =
      ((Frame.ofPayload stream payload).map (p.keep since)).mapError .malformed := by
  have hstamp : Frame.timestampLength ≤ payload.length := Nat.le_of_succ_le h
  rw [entry, timestamp, bytes_of_le hstamp, bytes_of_le h, Frame.ofPayload]
  simp only [bind, Except.bind]
  cases Instant.strict (Utf8.decodeLossy (payload.take Frame.timestampLength)).toList with
  | error reason => rfl
  | ok t =>
    have hany := any_notAfter since ⟨stream, t, payload.drop Frame.overhead⟩
    change _ = Except.ok (p.keep since ⟨stream, t, payload.drop Frame.overhead⟩)
    simp only [pure, Except.pure, hany, keep]
    cases isNew since ⟨stream, t, payload.drop Frame.overhead⟩ <;> rfl

/-- A turn reads the first frame, and only bytes that there are. -/
theorem turn_eq (p : LogPass) (bs : Bytes) :
    p.turn since bs =
      ((Frame.take bs).map fun (f, rest) => (p.keep since f, rest)).mapError .malformed := by
  rcases Frame.short_or_header bs with hshort | ⟨tag, x, y, z, a, b, c, d, rest, rfl⟩
  · rw [Frame.take_of_short hshort, turn, payload, if_pos hshort]
    rfl
  · rw [turn, payload, if_neg (by simp [Frame.headerLength])]
    simp only [byte, bytes_three, word, bind, Except.bind, Frame.take]
    cases LogStream.ofTag? tag with
    | none => rfl
    | some stream =>
      generalize Frame.ofLengthBytes a b c d = length
      by_cases hlong : length < Frame.overhead
      · simp only [if_pos hlong]
        rfl
      by_cases hwhole : rest.length < length
      · simp only [if_neg hlong, if_pos hwhole]
        rfl
      have hpayload : Frame.overhead ≤ (rest.take length).length := by
        rw [List.length_take]
        omega
      simp only [if_neg hlong, if_neg hwhole, bytes_of_le (Nat.le_of_not_lt hwhole), pure,
        Except.pure, entry_eq p stream hpayload]
      cases Frame.ofPayload stream (rest.take length) <;> rfl

theorem length_of_turn {p p' : LogPass} {bs rest : Bytes} (h : p.turn since bs = .ok (p', rest)) :
    rest.length < bs.length := by
  rw [turn_eq] at h
  cases htake : Frame.take bs with
  | error e =>
    rw [htake] at h
    cases h
  | ok first =>
    rw [htake] at h
    cases h
    exact Frame.take_length htake

def turns (since : Option Instant) (p : LogPass) (bs : Bytes) : Reading LogPass :=
  if bs.isEmpty then .ok p
  else
    match h : p.turn since bs with
    | .error stop => .error stop
    | .ok (p, rest) =>
      have := length_of_turn h
      p.turns since rest
termination_by bs.length

def read (bs : Bytes) (since : Option Instant) : Reading LogBatch :=
  ((start since).turns since bs).map batch

theorem turns_of_error {p : LogPass} {bs : Bytes} {stop : ReadStop} (hne : bs ≠ [])
    (h : p.turn since bs = .error stop) : p.turns since bs = .error stop := by
  rw [turns, if_neg (by simpa using hne)]
  split
  · rename_i he
    rw [h] at he
    cases he
    rfl
  · rename_i he
    rw [h] at he
    cases he

theorem turns_of_ok {p p' : LogPass} {bs rest : Bytes} (hne : bs ≠ [])
    (h : p.turn since bs = .ok (p', rest)) : p.turns since bs = p'.turns since rest := by
  rw [turns, if_neg (by simpa using hne)]
  split
  · rename_i he
    rw [h] at he
    cases he
  · rename_i he
    rw [h] at he
    cases he
    rfl

theorem turns_eq (p : LogPass) (bs : Bytes) :
    p.turns since bs = ((Frame.decode bs).map (·.foldl (keep since) p)).mapError .malformed := by
  induction hn : bs.length using Nat.strongRecOn generalizing bs p with
  | ind n ih =>
    by_cases hne : bs = []
    · rw [hne, turns, Frame.decode_nil]
      rfl
    have hturn : p.turn since bs = _ := turn_eq p bs
    cases htake : Frame.take bs with
    | error e =>
      rw [htake] at hturn
      rw [turns_of_error hne hturn, Frame.decode_of_take_error hne htake]
      rfl
    | ok first =>
      obtain ⟨f, rest⟩ := first
      rw [htake] at hturn
      rw [turns_of_ok hne hturn, Frame.decode_of_take htake,
        ih rest.length (hn ▸ Frame.take_length htake) (p.keep since f) rest rfl]
      cases Frame.decode rest <;> rfl

/-! ### What a pass gathers -/

theorem foldl_add (p : LogPass) (frames : List Frame) :
    frames.foldl add p =
      { frames := p.frames ++ frames
        stdout := p.stdout ++ contents (frames.filter (·.stream = .stdout))
        stderr := p.stderr ++ contents (frames.filter (·.stream = .stderr))
        lastTimestamp := frames.foldl (fun c f => advance c f.timestamp) p.lastTimestamp } := by
  induction frames generalizing p with
  | nil => simp [contents]
  | cons f frames ih =>
    rw [List.foldl_cons, ih]
    cases hf : f.stream <;> simp [add, contents, hf]

theorem batch_foldl_keep (since : Option Instant) (frames : List Frame) :
    (frames.foldl (keep since) (start since)).batch = ofFrames since frames := by
  have hkeep : frames.foldl (keep since) (start since) =
      (frames.filter (isNew since)).foldl add (start since) := List.foldl_filter.symm
  rw [hkeep, foldl_add]
  simp only [start, List.nil_append, batch, ofFrames, textOf]

/-- One pass over the stream gives the batch of its frames, or the fault of the first bytes that are
no frame. It never asks for more bytes than are left. -/
theorem read_eq (bs : Bytes) (since : Option Instant) :
    read bs since = (demultiplex bs since).mapError .malformed := by
  rw [read, turns_eq, demultiplex]
  cases Frame.decode bs with
  | error e => rfl
  | ok frames => exact congrArg Except.ok (batch_foldl_keep since frames)

end LogPass
end SandboxWorker
