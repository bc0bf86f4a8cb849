import SandboxWorker.Logs.Frame
/-! What one reading of a log stream gives: the frames later than a cursor, in order of time, the
text of each stream, and the cursor for the next reading. -/
namespace SandboxWorker

structure LogBatch where
  /-- The frames of both streams, by timestamp. -/
  frames : List Frame
  stdout : String
  stderr : String
  /-- The latest instant read so far. -/
  lastTimestamp : Option Instant
deriving DecidableEq, Repr

namespace LogBatch

def contents (frames : List Frame) : Bytes := frames.flatMap (·.content)

/-- The content of one stream, in order of arrival. A character may be split between frames, so
bytes are joined before they are read as text. -/
def textOf (stream : LogStream) (frames : List Frame) : String :=
  Utf8.decodeLossy (contents (frames.filter (·.stream = stream)))

def isNew (since : Option Instant) (f : Frame) : Bool :=
  match since with
  | none => true
  | some t => t.before f.timestamp

def advance (cursor : Option Instant) (t : Instant) : Option Instant :=
  match cursor with
  | none => some t
  | some c => some (if c.before t then t else c)

def ofFrames (since : Option Instant) (frames : List Frame) : LogBatch :=
  let new := frames.filter (isNew since)
  { frames := new.mergeSort fun a b => a.timestamp.notAfter b.timestamp
    stdout := textOf .stdout new
    stderr := textOf .stderr new
    lastTimestamp := new.foldl (fun c f => advance c f.timestamp) since }

def demultiplex (bs : Bytes) (since : Option Instant) : Except FrameError LogBatch :=
  (Frame.decode bs).map (ofFrames since)

def isEmpty (b : LogBatch) : Bool := b.frames.isEmpty

def merged (b : LogBatch) : String := Utf8.decodeLossy (contents b.frames)

end LogBatch
end SandboxWorker
