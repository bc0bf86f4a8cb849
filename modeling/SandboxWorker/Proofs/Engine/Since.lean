import Mathlib.Algebra.Order.Field.Basic
import Mathlib.Data.List.TakeWhile
import Mathlib.Data.Rat.Cast.Order
import Mathlib.Tactic.Linarith
import SandboxWorker.Engine.Reply
import SandboxWorker.Proofs.Logs.Polls
/-! The cursor as the engine is told it. The text is a decimal number of seconds that is never later
than the cursor, so what the engine leaves out is nothing that a reading would keep. -/
namespace SandboxWorker

namespace Decimal

def fraction? (cs : List Char) : Option ℚ :=
  match cs.dropWhile isDigit with
  | '.' :: behind =>
    (nat? (cs.takeWhile isDigit)).bind fun (whole : Nat) =>
      (nat? behind).map fun (part : Nat) => (whole : ℚ) + (part : ℚ) / 10 ^ behind.length
  | _ => none

def rational? : List Char → Option ℚ
  | '-' :: cs => (fraction? cs).map (- ·)
  | cs => fraction? cs

theorem fraction?_digits {front behind : List Char} (hfront : front ≠ []) (hbehind : behind ≠ [])
    (hfronts : ∀ c ∈ front, isDigit c = true) (hbehinds : ∀ c ∈ behind, isDigit c = true) :
    fraction? (front ++ '.' :: behind) =
      some ((value front : ℚ) + (value behind : ℚ) / 10 ^ behind.length) := by
  have hpoint : ∀ c ∈ ('.' :: behind).head?, isDigit c = false := by
    rintro c ⟨⟩
    decide
  rw [fraction?, dropWhile_append_of_head hfronts hpoint, takeWhile_append_of_head hfronts hpoint]
  simp only [nat?_digits hfront hfronts, nat?_digits hbehind hbehinds, Option.bind_some,
    Option.map_some]

theorem rational?_of_isDigit {c : Char} (h : isDigit c = true) (cs : List Char) :
    rational? (c :: cs) = fraction? (c :: cs) := by
  unfold rational?
  split
  · rename_i heq
    cases heq
    cases h
  · rfl

end Decimal

namespace Instant
variable {t u : Instant}

/-- Seconds since 1970; those of a leap second count on from its minute. -/
def seconds (t : Instant) : ℚ := t.second + t.nano / 1000000000

def sinceFraction (t : Instant) : ℚ := t.nano / 10 ^ (Decimal.padded 9 t.nano).length

/-- What the text of a cursor denotes. Before 1970 the nanoseconds count backward. -/
def sinceSeconds (t : Instant) : ℚ :=
  if t.second < 0 then t.second - t.sinceFraction else t.second + t.sinceFraction

theorem rational?_sinceText (t : Instant) :
    Decimal.rational? (sinceText t).toList = some t.sinceSeconds := by
  have hread : Decimal.fraction? (Decimal.digits t.second.natAbs ++ '.' ::
      Decimal.padded 9 t.nano) = some ((t.second.natAbs : ℚ) + t.sinceFraction) := by
    rw [Decimal.fraction?_digits (Decimal.digits_ne_nil _) (Decimal.padded_ne_nil (by decide) _)
      (fun _ => Decimal.isDigit_of_mem_digits) (fun _ => Decimal.isDigit_of_mem_padded),
      Decimal.value_digits, Decimal.value_padded]
    rfl
  rw [sinceText, String.toList_ofList, sinceSeconds, Decimal.ofInt]
  by_cases hneg : t.second < 0
  · have habs : (t.second.natAbs : ℚ) = -t.second := by
      rw [← Int.cast_natCast, Int.ofNat_natAbs_of_nonpos hneg.le, Int.cast_neg]
    rw [if_pos hneg, if_pos hneg, List.cons_append, Decimal.rational?, hread, Option.map_some, habs]
    congr 1
    linarith
  · obtain ⟨d, ds, hds⟩ := List.exists_cons_of_ne_nil (Decimal.digits_ne_nil t.second.natAbs)
    have hdigit : Decimal.isDigit d = true :=
      Decimal.isDigit_of_mem_digits (hds ▸ List.mem_cons_self)
    have habs : (t.second.natAbs : ℚ) = t.second := by
      rw [← Int.cast_natCast, Int.natAbs_of_nonneg (Int.not_lt.mp hneg)]
    rw [hds, List.cons_append] at hread
    rw [if_neg hneg, if_neg hneg, hds, List.cons_append, Decimal.rational?_of_isDigit hdigit, hread,
      habs]

theorem sinceFraction_nonneg (t : Instant) : 0 ≤ t.sinceFraction := by
  unfold sinceFraction
  positivity

theorem sinceFraction_lt_one (t : Instant) : t.sinceFraction < 1 := by
  have hlt : Decimal.value (Decimal.padded 9 t.nano) <
      Nat.pow 10 (Decimal.padded 9 t.nano).length :=
    Decimal.value_lt fun _ => Decimal.isDigit_of_mem_padded
  rw [Decimal.value_padded] at hlt
  rw [sinceFraction, div_lt_one (by positivity)]
  exact_mod_cast hlt

theorem sinceFraction_le (t : Instant) : t.sinceFraction ≤ t.nano / 1000000000 := by
  have hwidth : (10 : ℚ) ^ 9 ≤ 10 ^ (Decimal.padded 9 t.nano).length :=
    pow_le_pow_right₀ (by norm_num) (Decimal.le_length_padded 9 t.nano)
  rw [sinceFraction]
  exact div_le_div_of_nonneg_left (by positivity) (by positivity) (by linarith)

theorem sinceFraction_eq (h : t.nano < 1000000000) : t.sinceFraction = t.nano / 1000000000 := by
  have hwidth : (Decimal.padded 9 t.nano).length = 9 := by
    rw [Decimal.padded, if_pos (by simpa using h), Decimal.length_fixed]
  rw [sinceFraction, hwidth]
  norm_num

theorem sinceSeconds_le (t : Instant) : t.sinceSeconds ≤ t.seconds := by
  have hnonneg := t.sinceFraction_nonneg
  have hle := t.sinceFraction_le
  unfold sinceSeconds seconds
  split <;> linarith

theorem sinceSeconds_eq (h : 0 ≤ t.second) (hnano : t.nano < 1000000000) :
    t.sinceSeconds = t.seconds := by
  rw [sinceSeconds, if_neg (Int.not_lt.mpr h), sinceFraction_eq hnano, seconds]

theorem sinceSeconds_lt_next (t : Instant) : t.sinceSeconds < t.second + 1 := by
  have hnonneg := t.sinceFraction_nonneg
  have hlt := t.sinceFraction_lt_one
  unfold sinceSeconds
  split <;> linarith

theorem second_le_seconds (t : Instant) : t.second ≤ t.seconds := by
  have hnonneg : (0 : ℚ) ≤ t.nano / 1000000000 := by positivity
  unfold seconds
  linarith

/-- What is later than a cursor is later than its text. A leap second counts past the second after
it, but is before it; what its text denotes is before both. -/
theorem sinceSeconds_lt_of_before (h : t.before u = true) : t.sinceSeconds < u.seconds := by
  simp only [before, Bool.or_eq_true, Bool.and_eq_true, decide_eq_true_eq, beq_iff_eq] at h
  rcases h with hsecond | ⟨hsecond, hnano⟩
  · have hnext : (t.second : ℚ) + 1 ≤ u.second := by exact_mod_cast hsecond
    exact (t.sinceSeconds_lt_next.trans_le hnext).trans_le u.second_le_seconds
  · have hlater : t.seconds < u.seconds := by
      have hcast : (t.nano : ℚ) < u.nano := by exact_mod_cast hnano
      unfold seconds
      rw [hsecond]
      linarith
    exact t.sinceSeconds_le.trans_lt hlater

end Instant

/-! ### What is asked and what is answered -/

theorem EngineRequest.target_of_ofPath {method : Method} {path : String}
    {content : Option (String × Bytes)} {request : EngineRequest}
    (h : ofPath method path content = .ok request) (hpath : '#' ∉ path.toList) :
    request.target = version ++ path := by
  have hwhole : (version ++ path).toList.takeWhile (· ≠ '#') = (version ++ path).toList := by
    refine List.takeWhile_eq_self_iff.mpr fun c hc => decide_eq_true fun hmark => ?_
    rw [hmark, String.toList_append, List.mem_append] at hc
    exact hc.elim (by decide) hpath
  unfold ofPath at h
  split at h
  · rename_i target htarget
    cases h
    simp only [Http.target?] at htarget
    split at htarget
    · cases htarget
      rw [hwhole, String.ofList_toList]
    · cases htarget
  · cases h

theorem mark_not_mem_sinceText (t : Instant) : '#' ∉ (sinceText t).toList := by
  have hdigits {ds : List Char} (h : ∀ c ∈ ds, Decimal.isDigit c = true) : '#' ∉ ds :=
    fun hmem => absurd (h _ hmem) (by decide)
  have hsecond : '#' ∉ Decimal.digits t.second.natAbs :=
    hdigits fun _ => Decimal.isDigit_of_mem_digits
  have hnano : '#' ∉ Decimal.padded 9 t.nano := hdigits fun _ => Decimal.isDigit_of_mem_padded
  rw [sinceText, String.toList_ofList, Decimal.ofInt]
  split <;> simp [hsecond, hnano]

theorem target_of_logs {id : String} {t : Instant} {request : EngineRequest}
    (h : (EngineCall.logs id (some t)).request = .ok request) (hid : '#' ∉ id.toList) :
    request.target = EngineRequest.version ++
      (EngineCall.container id ++ "/logs?" ++ EngineCall.logsQuery ++
        ("&since=" ++ sinceText t)) := by
  refine EngineRequest.target_of_ofPath h ?_
  simp only [EngineCall.container, String.toList_append, List.mem_append, not_or]
  exact ⟨⟨⟨⟨by decide, hid⟩, by decide⟩, by decide⟩, by decide, mark_not_mem_sinceText t⟩

namespace LogBatch

theorem ofFrames_filter {since : Option Instant} {frames : List Frame} {cut : Frame → Bool}
    (h : ∀ f ∈ frames, isNew since f = true → cut f = true) :
    ofFrames since (frames.filter cut) = ofFrames since frames := by
  have hnew : (frames.filter cut).filter (isNew since) = frames.filter (isNew since) := by
    rw [List.filter_filter]
    refine List.filter_congr fun f hf => ?_
    cases hnew : isNew since f with
    | false => rfl
    | true => exact h f hf hnew
  rw [ofFrames, hnew, ofFrames]

theorem demultiplex_filter {since : Option Instant} {frames : List Frame} {cut : Frame → Bool}
    (hfits : ∀ f ∈ frames, f.Fits) (h : ∀ f ∈ frames, isNew since f = true → cut f = true) :
    demultiplex ((frames.filter cut).flatMap Frame.encode) since =
      demultiplex (frames.flatMap Frame.encode) since := by
  rw [demultiplex_of_decode (Frame.decode_flatMap hfits),
    demultiplex_of_decode (Frame.decode_flatMap fun f hf => hfits f (List.mem_filter.mp hf).1),
    ofFrames_filter h]

end LogBatch

theorem before_of_mem_logs {since : Option Instant} {status : Nat} {bs : Bytes} {reply : LogsReply}
    (h : EngineReply.ofLogs since status bs = .ok reply) {f : Frame} (hf : f ∈ reply.logs.frames) :
    LogBatch.isNew since f = true := by
  unfold EngineReply.ofLogs at h
  split at h
  · cases hread : LogBatch.demultiplex bs since with
    | error e =>
      rw [hread] at h
      cases h
    | ok logs =>
      rw [hread] at h
      cases h
      obtain ⟨frames, -, rfl⟩ := LogBatch.demultiplex_eq_ok hread
      exact (LogBatch.mem_frames_ofFrames.mp hf).2
  · cases h
    exact absurd (LogBatch.mem_frames_ofFrames.mp hf).1 List.not_mem_nil

/-- The text that a cursor is asked with denotes no later time, and just this time from 1970 on
outside of leap seconds. Every frame that is kept of an answer is later than what the text denotes,
so if the engine leaves out none that is, the answer is the one it would be without a cut. -/
theorem since_withholds_nothing (id : String) (t : Instant) :
    ∃ q : ℚ, Decimal.rational? (sinceText t).toList = some q ∧
      q ≤ t.seconds ∧ q < t.second + 1 ∧
      (0 ≤ t.second → t.nano < 1000000000 → q = t.seconds) ∧
      (∀ request : EngineRequest,
        (EngineCall.logs id (some t)).request = .ok request → '#' ∉ id.toList →
        request.target = EngineRequest.version ++
          (EngineCall.container id ++ "/logs?" ++ EngineCall.logsQuery ++
            ("&since=" ++ sinceText t))) ∧
      (∀ (status : Nat) (bs : Bytes) (reply : LogsReply),
        (EngineCall.logs id (some t)).ofReply status bs = .ok reply →
        ∀ f ∈ reply.logs.frames, q < f.timestamp.seconds) ∧
      ∀ (status : Nat) (frames : List Frame) (cut : Frame → Bool),
        (∀ f ∈ frames, f.Fits) → (∀ f ∈ frames, q < f.timestamp.seconds → cut f = true) →
        (EngineCall.logs id (some t)).ofReply status ((frames.filter cut).flatMap Frame.encode) =
          (EngineCall.logs id (some t)).ofReply status (frames.flatMap Frame.encode) := by
  refine ⟨t.sinceSeconds, t.rational?_sinceText, t.sinceSeconds_le, t.sinceSeconds_lt_next,
    Instant.sinceSeconds_eq, fun request h hid => target_of_logs h hid, ?_, ?_⟩
  · intro status bs reply h f hf
    exact Instant.sinceSeconds_lt_of_before (before_of_mem_logs h hf)
  · intro status frames cut hfits hcut
    have hnew : ∀ f ∈ frames, LogBatch.isNew (some t) f = true → cut f = true :=
      fun f hf h => hcut f hf (Instant.sinceSeconds_lt_of_before h)
    simp only [EngineCall.ofReply, EngineReply.ofLogs, LogBatch.demultiplex_filter hfits hnew]

def leapCursor : Instant := ⟨-1, 1500000000, by decide, by decide, by decide, by decide⟩

def aroundLeap : List Frame :=
  [⟨.stdout, ⟨-2, 3, by decide, by decide, by decide, by decide⟩, [0x61]⟩,
    ⟨.stdout, leapCursor, [0x62]⟩,
    ⟨.stdout, ⟨3, 3, by decide, by decide, by decide, by decide⟩, [0x63]⟩]

theorem fits_aroundLeap : ∀ f ∈ aroundLeap, f.Fits := by
  simp only [aroundLeap, List.forall_mem_cons, List.not_mem_nil, false_implies, implies_true,
    and_true]
  exact ⟨⟨by decide, by decide, by decide⟩, ⟨by decide, by decide, by decide⟩,
    ⟨by decide, by decide, by decide⟩⟩

theorem since_withholds_nothing_leap :
    let call := EngineCall.logs "c" (some leapCursor)
    (∃ request, call.request = .ok request ∧ request.target =
      "/v1.41/containers/c/logs?tail=all&stdout=1&stderr=1&timestamps=true&since=-1.1500000000") ∧
    (∃ reply, call.ofReply 200 (aroundLeap.flatMap Frame.encode) = .ok reply ∧
      ∀ f ∈ reply.logs.frames, -23 / 20 < f.timestamp.seconds) ∧
    call.ofReply 200 ((aroundLeap.drop 1).flatMap Frame.encode) =
      call.ofReply 200 (aroundLeap.flatMap Frame.encode) := by
  intro call
  obtain ⟨q, hq, -, -, -, htarget, hlater, hcut⟩ := since_withholds_nothing "c" leapCursor
  have hread : Decimal.rational? (sinceText leapCursor).toList = some (-23 / 20) := by
    decide +kernel
  rw [hread] at hq
  cases hq
  have hsent : (Http.target? (EngineRequest.version ++ (EngineCall.container "c" ++ "/logs?" ++
      EngineCall.logsQuery ++ ("&since=" ++ sinceText leapCursor)))).isSome := by decide +kernel
  obtain ⟨target, hsent⟩ := Option.isSome_iff_exists.mp hsent
  have hrequest : call.request = .ok ⟨.get, target, none, []⟩ := by
    simp only [call, EngineCall.request, EngineRequest.ofPath, hsent]
    rfl
  have hreply : call.ofReply 200 (aroundLeap.flatMap Frame.encode) =
      .ok ⟨200, .ofFrames (some leapCursor) aroundLeap⟩ := by
    simp only [call, EngineCall.ofReply, EngineReply.ofLogs,
      LogBatch.demultiplex_of_decode (Frame.decode_flatMap fits_aroundLeap)]
    rfl
  refine ⟨⟨_, hrequest, (htarget _ hrequest (by decide)).trans (by decide +kernel)⟩,
    ⟨_, hreply, hlater 200 _ _ hreply⟩,
    hcut 200 aroundLeap (fun f => decide (-1 ≤ f.timestamp.second)) fits_aroundLeap ?_⟩
  simp only [aroundLeap, List.forall_mem_cons, List.not_mem_nil, false_implies, implies_true,
    and_true]
  refine ⟨fun h => ?_, fun _ => by decide, fun _ => by decide⟩
  norm_num [Instant.seconds] at h

end SandboxWorker
