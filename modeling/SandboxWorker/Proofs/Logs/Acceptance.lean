import SandboxWorker.Proofs.Instant.Strict
import SandboxWorker.Proofs.Logs.Reads
/-! Which bytes are a log stream: whole frames, one behind the other. Where other bytes follow, the
first fault in them is the error, whatever stands before them and wherever the cursor is. -/
namespace SandboxWorker

theorem LogStream.ofTag?_eq_none {tag : UInt8} : ofTag? tag = none ↔ tag ≠ 1 ∧ tag ≠ 2 := by
  unfold ofTag?
  by_cases h₁ : tag = 1 <;> by_cases h₂ : tag = 2 <;> simp [h₁, h₂]

theorem LogStream.exists_ofTag? {tag : UInt8} (known : tag = 1 ∨ tag = 2) :
    ∃ stream, ofTag? tag = some stream := by
  rcases known with rfl | rfl
  · exact ⟨.stdout, rfl⟩
  · exact ⟨.stderr, rfl⟩

namespace Frame
open Instant (IsTimestamp)

def Tells (n : Nat) (a b c d : UInt8) : Prop :=
  n = a.toNat * 0x1000000 + b.toNat * 0x10000 + c.toNat * 0x100 + d.toNat

inductive IsFrame : Bytes → Prop where
  | intro {tag x y z a b c d gap : UInt8} {stamp content : Bytes} (known : tag = 1 ∨ tag = 2)
    (length : Tells (31 + content.length) a b c d) (stamp_length : stamp.length = 30)
    (timestamp : IsTimestamp (Utf8.decodeLossy stamp).toList) :
    IsFrame (tag :: x :: y :: z :: a :: b :: c :: d :: (stamp ++ gap :: content))

/-- Why no well-formed frame stands first in some bytes. Each reason supposes that those above it
do not apply. -/
inductive Fault : Bytes → FrameError → Prop where
  | header {bs : Bytes} (some : bs ≠ []) (short : bs.length < 8) :
    Fault bs (.truncated 8 bs.length)
  | stream {tag x y z a b c d : UInt8} {rest : Bytes} (unknown : tag ≠ 1 ∧ tag ≠ 2) :
    Fault (tag :: x :: y :: z :: a :: b :: c :: d :: rest) (.unknownStream tag)
  | length {tag x y z a b c d : UInt8} {rest : Bytes} {n : Nat} (known : tag = 1 ∨ tag = 2)
    (tells : Tells n a b c d) (short : n < 31) :
    Fault (tag :: x :: y :: z :: a :: b :: c :: d :: rest) (.tooShort n)
  | payload {tag x y z a b c d : UInt8} {rest : Bytes} {n : Nat} (known : tag = 1 ∨ tag = 2)
    (tells : Tells n a b c d) (long : 31 ≤ n) (short : rest.length < n) :
    Fault (tag :: x :: y :: z :: a :: b :: c :: d :: rest) (.truncated n rest.length)
  | timestamp {tag x y z a b c d : UInt8} {rest : Bytes} {n : Nat} {raw : String}
    {reason : Instant.ReadError} (known : tag = 1 ∨ tag = 2) (tells : Tells n a b c d)
    (long : 31 ≤ n) (whole : n ≤ rest.length) (text : raw = Utf8.decodeLossy (rest.take 30))
    (bad : Instant.strict raw.toList = .error reason) :
    Fault (tag :: x :: y :: z :: a :: b :: c :: d :: rest) (.timestamp raw reason)

theorem tells_iff {n : Nat} {a b c d : UInt8} : Tells n a b c d ↔ ofLengthBytes a b c d = n := by
  simp only [Tells, ofLengthBytes]
  omega

theorem take_header {tag x y z a b c d : UInt8} {rest : Bytes} {n : Nat} {stream : LogStream}
    (hstream : LogStream.ofTag? tag = some stream) (tells : Tells n a b c d) :
    take (tag :: x :: y :: z :: a :: b :: c :: d :: rest) =
      if n < 31 then .error (.tooShort n)
      else if rest.length < n then .error (.truncated n rest.length)
      else (ofPayload stream (rest.take n)).map (·, rest.drop n) := by
  simp only [take, hstream, tells_iff.mp tells]
  rfl

theorem payload_pieces {payload : Bytes} (h : 31 ≤ payload.length) :
    ∃ gap content, payload = payload.take 30 ++ gap :: content := by
  obtain ⟨gap, content, hdrop⟩ := List.exists_cons_of_length_pos
    (show 0 < (payload.drop 30).length by rw [List.length_drop]; omega)
  exact ⟨gap, content, by rw [← hdrop, List.take_append_drop]⟩

theorem ofPayload_of_timestamp (stream : LogStream) {payload : Bytes}
    (h : IsTimestamp (Utf8.decodeLossy (payload.take 30)).toList) :
    ∃ f, ofPayload stream payload = .ok f := by
  obtain ⟨t, ht⟩ := Instant.strict_eq_ok.mpr h
  exact ⟨_, by rw [ofPayload, timestampLength, ht]⟩

theorem take_of_isFrame {front : Bytes} (h : IsFrame front) (more : Bytes) :
    ∃ f, take (front ++ more) = .ok (f, more) := by
  suffices ∃ f, take front = .ok (f, []) by
    obtain ⟨f, hf⟩ := this
    exact ⟨f, take_append hf more⟩
  obtain @⟨tag, x, y, z, a, b, c, d, gap, stamp, content, known, length, stamp_length,
    timestamp⟩ := h
  obtain ⟨stream, hstream⟩ := LogStream.exists_ofTag? known
  have hlength : (stamp ++ gap :: content).length = 31 + content.length := by
    simp [stamp_length]
    omega
  have hstamp : (stamp ++ gap :: content).take 30 = stamp := by rw [← stamp_length, List.take_left]
  rw [← hstamp] at timestamp
  obtain ⟨f, hf⟩ := ofPayload_of_timestamp stream timestamp
  refine ⟨f, ?_⟩
  rw [take_header hstream length, if_neg (by omega), if_neg (by omega), ← hlength, List.take_length,
    List.drop_length, hf]
  rfl

theorem take_of_fault {bs : Bytes} {e : FrameError} (h : Fault bs e) : take bs = .error e := by
  cases h with
  | header _ short => exact take_of_short short
  | stream unknown => simp only [take, LogStream.ofTag?_eq_none.mpr unknown]
  | length known tells short =>
    obtain ⟨stream, hstream⟩ := LogStream.exists_ofTag? known
    rw [take_header hstream tells, if_pos short]
  | payload known tells long short =>
    obtain ⟨stream, hstream⟩ := LogStream.exists_ofTag? known
    rw [take_header hstream tells, if_neg (Nat.not_lt.mpr long), if_pos short]
  | timestamp known tells long whole text bad =>
    obtain ⟨stream, hstream⟩ := LogStream.exists_ofTag? known
    rw [take_header hstream tells, if_neg (Nat.not_lt.mpr long), if_neg (Nat.not_lt.mpr whole),
      ofPayload, List.take_take, timestampLength, Nat.min_eq_left (by omega), ← text]
    simp only [bad]
    rfl

theorem isFrame_or_fault {bs : Bytes} (hne : bs ≠ []) :
    (∃ front rest, IsFrame front ∧ bs = front ++ rest) ∨ ∃ e, Fault bs e := by
  rcases short_or_header bs with hshort | ⟨tag, x, y, z, a, b, c, d, rest, rfl⟩
  · exact .inr ⟨_, .header hne hshort⟩
  obtain ⟨n, tells⟩ : ∃ n, Tells n a b c d := ⟨_, rfl⟩
  by_cases known : tag = 1 ∨ tag = 2
  · by_cases long : 31 ≤ n
    · by_cases whole : n ≤ rest.length
      · cases hread : Instant.strict (Utf8.decodeLossy (rest.take 30)).toList with
        | error reason => exact .inr ⟨_, .timestamp known tells long whole rfl hread⟩
        | ok t =>
          have hlength : (rest.take n).length = n := List.length_take_of_le whole
          obtain ⟨gap, content, hpayload⟩ := payload_pieces (hlength.symm ▸ long)
          rw [List.take_take, Nat.min_eq_left (by omega)] at hpayload
          have hstamp : (rest.take 30).length = 30 := List.length_take_of_le (by omega)
          have hcontent : n = 31 + content.length := by
            rw [← hlength, hpayload, List.length_append, hstamp, List.length_cons]
            omega
          have hframe : IsFrame (tag :: x :: y :: z :: a :: b :: c :: d :: rest.take n) :=
            hpayload ▸ .intro known (hcontent ▸ tells) hstamp (Instant.strict_eq_ok.mp ⟨t, hread⟩)
          exact .inl ⟨_, rest.drop n, hframe, by simp⟩
      · exact .inr ⟨_, .payload known tells long (Nat.lt_of_not_le whole)⟩
    · exact .inr ⟨_, .length known tells (Nat.lt_of_not_le long)⟩
  · exact .inr ⟨_, .stream (not_or.mp known)⟩

theorem take_eq_error {bs : Bytes} (hne : bs ≠ []) {e : FrameError} :
    take bs = .error e ↔ Fault bs e := by
  refine ⟨fun h => ?_, take_of_fault⟩
  rcases isFrame_or_fault hne with ⟨front, rest, hframe, rfl⟩ | ⟨e', hfault⟩
  · obtain ⟨f, hf⟩ := take_of_isFrame hframe rest
    rw [hf] at h
    cases h
  · rw [take_of_fault hfault] at h
    cases h
    exact hfault

theorem take_eq_ok {bs rest : Bytes} {f : Frame} (h : take bs = .ok (f, rest)) :
    ∃ front, IsFrame front ∧ bs = front ++ rest := by
  have hne : bs ≠ [] := by
    rintro rfl
    cases h
  rcases isFrame_or_fault hne with ⟨front, rest', hframe, rfl⟩ | ⟨e, hfault⟩
  · obtain ⟨g, hg⟩ := take_of_isFrame hframe rest'
    rw [hg] at h
    cases h
    exact ⟨front, hframe, rfl⟩
  · rw [take_of_fault hfault] at h
    cases h

theorem Fits.isFrame_encode {f : Frame} (h : f.Fits) : IsFrame f.encode := by
  obtain ⟨front, hframe, hfront⟩ := take_eq_ok (h.take_encode [])
  rw [List.append_nil, List.append_nil] at hfront
  exact hfront ▸ hframe

/-! ### Whole streams -/

theorem decode_flatten {fronts : List Bytes} (h : ∀ f ∈ fronts, IsFrame f) :
    ∃ frames, decode fronts.flatten = .ok frames := by
  induction fronts with
  | nil => exact ⟨[], decode_nil⟩
  | cons front fronts ih =>
    obtain ⟨f, htake⟩ := take_of_isFrame (h front List.mem_cons_self) fronts.flatten
    obtain ⟨frames, hframes⟩ := ih fun g hg => h g (List.mem_cons_of_mem _ hg)
    exact ⟨f :: frames, by rw [List.flatten_cons, decode_of_take htake, hframes]; rfl⟩

theorem isFrame_of_decode {bs : Bytes} {frames : List Frame} (h : decode bs = .ok frames) :
    ∃ fronts : List Bytes, (∀ f ∈ fronts, IsFrame f) ∧ bs = fronts.flatten := by
  induction frames generalizing bs with
  | nil =>
    rcases decode_eq_ok h with ⟨rfl, -⟩ | ⟨_, _, _, -, -, hcons⟩
    · exact ⟨[], by simp, rfl⟩
    · cases hcons
  | cons f frames ih =>
    rcases decode_eq_ok h with ⟨-, hnil⟩ | ⟨_, rest, _, htake, hrest, hcons⟩
    · cases hnil
    · cases hcons
      obtain ⟨front, hframe, rfl⟩ := take_eq_ok htake
      obtain ⟨fronts, hfronts, rfl⟩ := ih hrest
      exact ⟨front :: fronts, by simpa [hframe] using hfronts, rfl⟩

/-- Behind well-formed frames, other bytes fail as they fail alone. -/
theorem decode_flatten_append {fronts : List Bytes} (h : ∀ f ∈ fronts, IsFrame f) (more : Bytes)
    (e : FrameError) : decode (fronts.flatten ++ more) = .error e ↔ decode more = .error e := by
  obtain ⟨frames, hframes⟩ := decode_flatten h
  rw [decode_append hframes]
  cases decode more <;> simp [Except.map]

theorem decode_eq_error {bs : Bytes} {e : FrameError} :
    decode bs = .error e ↔ ∃ (fronts : List Bytes) (rest : Bytes), (∀ f ∈ fronts, IsFrame f) ∧
      bs = fronts.flatten ++ rest ∧ Fault rest e := by
  constructor
  · intro h
    induction hn : bs.length using Nat.strongRecOn generalizing bs with
    | ind n ih =>
      have hne : bs ≠ [] := by
        rintro rfl
        rw [decode_nil] at h
        cases h
      cases htake : take bs with
      | error e' =>
        rw [decode_of_take_error hne htake] at h
        cases h
        exact ⟨[], bs, by simp, rfl, (take_eq_error hne).mp htake⟩
      | ok first =>
        obtain ⟨f, rest⟩ := first
        obtain ⟨front, hframe, hbs⟩ := take_eq_ok htake
        have hrest : decode rest = .error e := by
          rw [decode_of_take htake] at h
          cases hdecode : decode rest with
          | error e' => rw [hdecode] at h; cases h; rfl
          | ok frames => rw [hdecode] at h; cases h
        have hshorter : rest.length < n := hn ▸ take_length htake
        obtain ⟨fronts, tail, hfronts, rfl, hfault⟩ := ih rest.length hshorter hrest rfl
        refine ⟨front :: fronts, tail, by simpa [hframe] using hfronts, ?_, hfault⟩
        rw [hbs, List.flatten_cons, List.append_assoc]
  · rintro ⟨fronts, rest, hfronts, rfl, hfault⟩
    have hne : rest ≠ [] := by
      rintro rfl
      cases hfault
      contradiction
    rw [decode_flatten_append hfronts, decode_of_take_error hne (take_of_fault hfault)]

end Frame

namespace LogBatch
open SandboxWorker.Frame (IsFrame Fault)

theorem demultiplex_eq_error {bs : Bytes} {since : Option Instant} {e : FrameError} :
    demultiplex bs since = .error e ↔ Frame.decode bs = .error e := by
  rw [demultiplex]
  cases Frame.decode bs <;> simp [Except.map]

theorem demultiplex_isOk {bs : Bytes} {since : Option Instant} :
    (∃ b, demultiplex bs since = .ok b) ↔ ∃ frames, Frame.decode bs = .ok frames := by
  rw [demultiplex]
  cases Frame.decode bs <;> simp [Except.map]

/-- Bytes are split just if they are well-formed frames, one behind the other. Otherwise the fault
of the first frame that is malformed is the error, wherever the cursor is; what stands before that
frame does not matter. The pass over the bytes gives the same, and never asks for more bytes than
are left. -/
theorem demultiplex_accepts (bs : Bytes) (since : Option Instant) :
    ((∃ b, demultiplex bs since = .ok b) ↔
      ∃ frames : List Bytes, (∀ f ∈ frames, IsFrame f) ∧ bs = frames.flatten) ∧
    (∀ e, demultiplex bs since = .error e ↔
      ∃ (frames : List Bytes) (rest : Bytes), (∀ f ∈ frames, IsFrame f) ∧
        bs = frames.flatten ++ rest ∧ Fault rest e) ∧
    (∀ since' e, demultiplex bs since' = .error e ↔ demultiplex bs since = .error e) ∧
    (∀ frames : List Bytes, (∀ f ∈ frames, IsFrame f) → ∀ e,
      demultiplex (frames.flatten ++ bs) since = .error e ↔ demultiplex bs since = .error e) ∧
    LogPass.read bs since = (demultiplex bs since).mapError .malformed ∧
    LogPass.read bs since ≠ .error .overrun := by
  refine ⟨?_, fun e => demultiplex_eq_error.trans Frame.decode_eq_error,
    fun _ e => demultiplex_eq_error.trans demultiplex_eq_error.symm, fun frames hframes e => ?_,
    LogPass.read_eq bs since, ?_⟩
  · rw [demultiplex_isOk]
    constructor
    · rintro ⟨frames, hframes⟩
      exact Frame.isFrame_of_decode hframes
    · rintro ⟨fronts, hfronts, rfl⟩
      exact Frame.decode_flatten hfronts
  · rw [demultiplex_eq_error, demultiplex_eq_error, Frame.decode_flatten_append hframes]
  · rw [LogPass.read_eq]
    cases demultiplex bs since with
    | error e => exact fun h => nomatch h
    | ok b => exact fun h => nomatch h

/-- A third stream behind two frames. -/
theorem demultiplex_accepts_unknownStream :
    demultiplex ((splitCharacter.map Frame.encode).flatten ++ [3, 0, 0, 0, 0, 0, 0, 0]) none =
      .error (.unknownStream 3) := by
  have hframes : ∀ f ∈ splitCharacter.map Frame.encode, IsFrame f := by
    simp only [splitCharacter, List.map_cons, List.map_nil, List.forall_mem_cons, List.not_mem_nil,
      false_implies, implies_true, and_true]
    exact ⟨Frame.Fits.isFrame_encode ⟨by decide, by decide, by decide⟩,
      Frame.Fits.isFrame_encode ⟨by decide, by decide, by decide⟩⟩
  have hunknown : demultiplex [3, 0, 0, 0, 0, 0, 0, 0] none = .error (.unknownStream 3) := by
    rw [demultiplex_eq_error]
    exact Frame.decode_of_take_error (by simp) rfl
  exact ((demultiplex_accepts _ none).2.2.2.1 _ hframes _).mpr hunknown

end LogBatch
end SandboxWorker
