import SandboxWorker.Instant.Reading
import SandboxWorker.Instant.Writing
import SandboxWorker.Text.Utf8
/-! Frames of a multiplexed log stream. A frame is a tag, three bytes without meaning, the length of
the payload as four bytes from high to low, and the payload: a timestamp of fixed width, one byte
without meaning, and the content. -/
namespace SandboxWorker

inductive LogStream where
  | stdout
  | stderr
deriving DecidableEq, Repr

namespace LogStream

def tag : LogStream → UInt8
  | .stdout => 1
  | .stderr => 2

def ofTag? (b : UInt8) : Option LogStream :=
  if b = 1 then some .stdout else if b = 2 then some .stderr else none

def name : LogStream → String
  | .stdout => "stdout"
  | .stderr => "stderr"

@[simp] theorem ofTag?_tag (s : LogStream) : ofTag? s.tag = some s := by
  cases s <;> rfl

end LogStream

structure Frame where
  stream : LogStream
  timestamp : Instant
  content : Bytes
deriving DecidableEq, Repr

inductive FrameError where
  | unknownStream (tag : UInt8)
  | truncated (expected remaining : Nat)
  | tooShort (length : Nat)
  | timestamp (raw : String) (reason : Instant.ReadError)
deriving DecidableEq, Repr

def FrameError.message : FrameError → String
  | .unknownStream tag => s!"unknown stream tag {tag.toNat}"
  | .truncated expected remaining =>
    s!"truncated frame: expected {expected} bytes, {remaining} left"
  | .tooShort length => s!"frame payload of {length} bytes cannot hold a timestamp"
  | .timestamp raw reason => s!"invalid timestamp '{raw}': {reason.message}"

namespace Frame

def headerLength : Nat := 8

def timestampLength : Nat := 30

def overhead : Nat := timestampLength + 1

def lengthBytes (n : Nat) : Bytes :=
  [UInt8.ofNat (n / 0x1000000), UInt8.ofNat (n / 0x10000), UInt8.ofNat (n / 0x100), UInt8.ofNat n]

def ofLengthBytes (a b c d : UInt8) : Nat :=
  ((a.toNat * 256 + b.toNat) * 256 + c.toNat) * 256 + d.toNat

theorem ofLengthBytes_lengthBytes {n : Nat} (h : n < 0x100000000) :
    ofLengthBytes (UInt8.ofNat (n / 0x1000000)) (UInt8.ofNat (n / 0x10000))
      (UInt8.ofNat (n / 0x100)) (UInt8.ofNat n) = n := by
  simp only [ofLengthBytes, UInt8.toNat_ofNat']
  omega

def encode (f : Frame) : Bytes :=
  f.stream.tag :: 0 :: 0 :: 0 :: lengthBytes (overhead + f.content.length) ++
    Utf8.encodeChars f.timestamp.stamp ++ 0x20 :: f.content

def ofPayload (stream : LogStream) (payload : Bytes) : Except FrameError Frame :=
  let raw := Utf8.decodeLossy (payload.take timestampLength)
  match Instant.strict raw.toList with
  | .ok timestamp => .ok { stream, timestamp, content := payload.drop overhead }
  | .error reason => .error (.timestamp raw reason)

/-- The first frame and the bytes after it. Tag and length are judged before what they announce. -/
def take : Bytes → Except FrameError (Frame × Bytes)
  | tag :: _ :: _ :: _ :: a :: b :: c :: d :: rest =>
    match LogStream.ofTag? tag with
    | none => .error (.unknownStream tag)
    | some stream =>
      let length := ofLengthBytes a b c d
      if length < overhead then .error (.tooShort length)
      else if rest.length < length then .error (.truncated length rest.length)
      else (ofPayload stream (rest.take length)).map (·, rest.drop length)
  | bs => .error (.truncated headerLength bs.length)

theorem take_length {bs rest : Bytes} {f : Frame} (h : take bs = .ok (f, rest)) :
    rest.length < bs.length := by
  unfold take at h
  split at h
  · rename_i tag _ _ _ a b c d tail
    split at h
    · cases h
    · rename_i stream _
      dsimp only at h
      split at h
      · cases h
      · split at h
        · cases h
        · generalize hn : ofLengthBytes a b c d = n at h
          cases hp : ofPayload stream (tail.take n) with
          | error e => rw [hp] at h; cases h
          | ok g =>
            rw [hp] at h
            simp only [Except.map, Except.ok.injEq, Prod.mk.injEq] at h
            rw [← h.2]
            simp only [List.length_drop, List.length_cons]
            omega
  · cases h

def decode (bs : Bytes) : Except FrameError (List Frame) :=
  if bs.isEmpty then .ok []
  else
    match h : take bs with
    | .error e => .error e
    | .ok (f, rest) =>
      have := take_length h
      (decode rest).map (f :: ·)
termination_by bs.length

end Frame
end SandboxWorker
