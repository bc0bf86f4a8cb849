import SandboxWorker.Proofs.Queue.Conservation
import SandboxWorker.Proofs.Queue.Turns
/-! A consumer never works on more messages than its window is wide. Each message has one permit
from before it is claimed until the broker was told what became of it, so permits are neither made
nor lost; and what lies on the processing list is what they are held for. -/
namespace SandboxWorker.Queue

/-- Places of the buffer that are kept for a message to come. -/
def Pump.places : Pump → Nat
  | .claiming | .holding _ => 1
  | .acquiring | .reserving | .stopped => 0

theorem Pump.length_held_le (p : Pump) : p.held.length ≤ p.permits := by
  cases p <;> simp [held, permits]

namespace Consumer

structure Windowed (c : Consumer) : Prop where
  permits : c.free + c.pump.permits + c.inFlight.length + c.settling.length = c.window
  places : c.buffer.length + c.pump.places ≤ c.window

/-- Whether a step leaves nothing half done. A pump that claimed a message registers it before it
stops, and whoever takes a delivery tells the broker of it. -/
def completes (c : Consumer) : Action → Bool
  | .halt => c.pump.held.isEmpty
  | .abandon .. => false
  | _ => true

variable {c c' : Consumer} {b b' : Broker} {action : Action}

theorem start_windowed (queue processing deadLetter : String) (prefetch : Nat) :
    (start queue processing deadLetter prefetch).Windowed where
  permits := rfl
  places := Nat.zero_le _

theorem Turn.window_eq (h : c.Turn b action c' b') : c'.window = c.window := by
  cases h <;> rfl

theorem Turn.processing_eq (h : c.Turn b action c' b') : c'.processing = c.processing := by
  cases h <;> rfl

theorem settled_windowed {d : Delivery} {how : Settlement} (h : (d, how) ∈ c.settling)
    (windowed : c.Windowed) : (c.settled d how).Windowed := by
  obtain ⟨permits, places⟩ := windowed
  have hlength := List.length_erase_of_mem h
  have hpos := List.length_pos_of_mem h
  refine ⟨?_, places⟩
  simp only [settled]
  omega

theorem Turn.windowed (h : c.Turn b action c' b') (windowed : c.Windowed) : c'.Windowed := by
  obtain ⟨permits, places⟩ := windowed
  cases h with
  | acquire waits free =>
    rw [waits] at permits places
    refine ⟨?_, places⟩
    simp only [Pump.permits] at permits ⊢
    omega
  | reserve waits room =>
    rw [waits] at permits
    exact ⟨permits, room⟩
  | claim waits last =>
    rw [waits] at permits places
    exact ⟨permits, places⟩
  | register holds =>
    rw [holds] at permits places
    simp only [Pump.permits, Pump.places] at permits places
    refine ⟨?_, ?_⟩
    · simp only [Pump.permits, List.length_append, List.length_singleton]
      omega
    · simp only [Pump.places, List.length_append, List.length_singleton]
      omega
  | receive first =>
    rw [first, List.length_cons] at places
    exact ⟨permits, Nat.le_trans (Nat.add_le_add_right (Nat.le_succ _) _) places⟩
  | take how outstanding =>
    have hlength := List.length_erase_of_mem outstanding
    have hpos := List.length_pos_of_mem outstanding
    refine ⟨?_, places⟩
    simp only [List.length_append, List.length_singleton]
    omega
  | tell taken => exact settled_windowed taken ⟨permits, places⟩
  | abandon taken => exact settled_windowed taken ⟨permits, places⟩
  | halt =>
    refine ⟨?_, Nat.le_trans (Nat.le_add_right _ _) places⟩
    change c.free + c.pump.permits + 0 + c.inFlight.length + c.settling.length = c.window
    omega

theorem Windowed.length_outstanding_le (h : c.Windowed) : c.outstanding.length ≤ c.window := by
  have hheld := c.pump.length_held_le
  have hpermits := h.permits
  simp only [outstanding, List.length_append, List.length_map]
  omega

/-- A step that leaves nothing half done moves a message onto the processing list as the consumer
begins to work on it, and off the list as it ends to. -/
theorem Turn.processing_perm (h : c.Turn b action c' b') (separate : c.Separate)
    (completes : c.completes action = true) (same : (b.list c.processing).Perm c.outstanding) :
    (b'.list c'.processing).Perm c'.outstanding := by
  -- On how often each message lies there.
  rw [List.perm_iff_count] at same ⊢
  intro x
  have hx := same x
  rw [count_outstanding] at hx ⊢
  cases h with
  | acquire waits free =>
    rw [waits] at hx
    exact hx
  | reserve waits room =>
    rw [waits] at hx
    exact hx
  | claim waits last =>
    rw [waits] at hx
    rw [Broker.list_modify_self, Broker.list_modify_of_ne _ _ separate.queue_processing.symm]
    simp only [Pump.held, List.count_cons, List.count_nil] at hx ⊢
    omega
  | register holds =>
    rw [holds] at hx
    simp only [Pump.held, List.map_append, List.map_cons, List.map_nil, List.count_append,
      List.count_nil] at hx ⊢
    omega
  | receive first => exact hx
  | take how outstanding =>
    have hcount := ((List.perm_cons_erase outstanding).map (·.content)).count_eq x
    rw [List.map_cons, List.count_cons] at hcount
    simp only [List.map_append, List.map_cons, List.map_nil, List.count_append, List.count_cons,
      List.count_nil] at hx ⊢
    omega
  | tell taken =>
    have hcount := count_outstanding_settled taken x
    rw [count_outstanding, count_outstanding] at hcount
    change ((c.effect _ _ b).list c.processing).count x = _
    rw [effect_processing separate, List.count_erase]
    omega
  | abandon taken => cases completes
  | halt =>
    have hnone : c.pump.held = [] := List.isEmpty_iff.mp completes
    rw [hnone] at hx
    exact hx

end Consumer

namespace Network
variable {name : String} {n : Network}

def completes (n : Network) : Event → Bool
  | .act index action => (n.consumers[index]?).all (·.completes action)
  | _ => true

def isUninterrupted (name : String) : Network → List Event → Bool
  | _, [] => true
  | n, event :: events => n.completes event && isUninterrupted name (n.step name event) events

theorem isUninterrupted_append (n : Network) (events more : List Event) :
    isUninterrupted name n (events ++ more) =
      (isUninterrupted name n events && isUninterrupted name (events.foldl (step name) n) more) := by
  induction events generalizing n with
  | nil => simp [isUninterrupted]
  | cons first events ih =>
    rw [List.cons_append, isUninterrupted, isUninterrupted, ih, Bool.and_assoc, List.foldl_cons]

/-- What lies on each processing list is what its consumer works on. -/
def Matched (n : Network) : Prop :=
  ∀ c ∈ n.consumers, (n.broker.list c.processing).Perm c.outstanding

theorem publish_matched (conserved : Conserved name n) (h : n.Matched) (payload : String) :
    (n.step name (.publish payload)).Matched := by
  intro c hc
  have hserves := conserved.serves c hc
  have hne := hserves.separate.queue_processing.symm
  rw [hserves.queue] at hne
  change ((n.broker.publish (waitingKey name) payload).list c.processing).Perm _
  rw [Broker.publish, Broker.list_modify_of_ne _ _ hne]
  exact h c hc

theorem join_matched (conserved : Conserved name n) (h : n.Matched) (id : Uuid) (prefetch : Nat) :
    (n.step name (.join id prefetch)).Matched := by
  rw [step]
  split
  · exact h
  · rename_i hnew
    intro c hc
    rcases List.mem_append.mp hc with hc | hc
    · exact h c hc
    · rw [List.mem_singleton.mp hc]
      exact (conserved.unused id hnew) ▸ List.Perm.nil

theorem act_matched (conserved : Conserved name n) (h : n.Matched) {index : Nat} {action : Action}
    (completes : n.completes (.act index action) = true) :
    (n.step name (.act index action)).Matched := by
  rw [step]
  split
  · exact h
  · rename_i c hc
    split
    · exact h
    · rename_i c' b' hact
      obtain ⟨front, back, hsplit, hset⟩ := exists_split_of_getElem? hc
      have hmem := List.mem_of_getElem? hc
      have hseparate := (conserved.serves c hmem).separate
      have hmoved := Consumer.act?_moved hseparate (conserved.holds c hmem) hact
      have hcompletes : c.completes action = true := by
        simpa only [Network.completes, hc, Option.all_some] using completes
      have hown := (Consumer.act?_turn hact).processing_perm hseparate hcompletes (h c hmem)
      obtain ⟨b, consumers, published, acknowledged⟩ := n
      cases hsplit
      rw [hset]
      intro d hd
      rcases List.mem_cons.mp (List.perm_middle.subset hd) with rfl | hd
      · exact hown
      · change (b'.list d.processing).Perm _
        rw [conserved.list_of_other hmoved hd]
        exact h d (List.perm_middle.symm.subset (List.mem_cons_of_mem c hd))

theorem run_matched (name : String) (events : List Event)
    (h : isUninterrupted name empty events = true) : (run name events).Matched := by
  induction events using List.reverseRecOn with
  | nil => exact fun _ h => nomatch h
  | append_singleton events event ih =>
    simp only [isUninterrupted_append, isUninterrupted, Bool.and_true, Bool.and_eq_true] at h
    have hconserved := run_conserved name events
    have hmatched := ih h.1
    rw [run, List.foldl_append]
    cases event with
    | publish payload => exact publish_matched hconserved hmatched payload
    | join id prefetch => exact join_matched hconserved hmatched id prefetch
    | act index action => exact act_matched hconserved hmatched h.2

/-- A consumer's permits add up to the width of the window with which it began. -/
theorem run_windowed {name : String} {events : List Event} {index : Nat} {c : Consumer}
    (h : (run name events).consumers[index]? = some c) :
    c.Windowed ∧ ∃ id prefetch, .join id prefetch ∈ events ∧ c.processing = processingKey name id ∧
      c.window = max prefetch 1 := by
  refine run_consumer (P := fun events _ c => c.Windowed ∧ ∃ id prefetch,
    .join id prefetch ∈ events ∧ c.processing = processingKey name id ∧ c.window = max prefetch 1)
    ?_ ?_ ?_ events index c h
  · rintro events event - c ⟨hwindowed, id, prefetch, hjoined, hc⟩
    exact ⟨hwindowed, id, prefetch, List.mem_append_left _ hjoined, hc⟩
  · intro events index id prefetch
    exact ⟨Consumer.start_windowed .., id, prefetch, by simp, rfl, rfl⟩
  · rintro events index action c c' b - turn ⟨hwindowed, id, prefetch, hjoined, hid, hc⟩
    rw [← turn.processing_eq] at hid
    rw [← turn.window_eq] at hc
    exact ⟨turn.windowed hwindowed, id, prefetch, List.mem_append_left _ hjoined, hid, hc⟩

/-- A delivery was taken by its tag while it still lay in the buffer, so before this consumer gave
it to anybody. -/
def TakenUnreceived (name : String) (events : List Event) (index : Nat) (d : Delivery) : Prop :=
  ∃ before how after c, events = before ++ .act index (.take d.tag how) :: after ∧
    (run name before).consumers[index]? = some c ∧ d ∈ c.buffer

theorem TakenUnreceived.append {events : List Event} {index : Nat} {d : Delivery}
    (h : TakenUnreceived name events index d) (more : List Event) :
    TakenUnreceived name (events ++ more) index d := by
  obtain ⟨before, how, after, c, rfl, hc⟩ := h
  exact ⟨before, how, after ++ more, c, by simp, hc⟩

theorem run_buffered {name : String} {events : List Event} {index : Nat} {c : Consumer}
    (h : (run name events).consumers[index]? = some c) :
    ∀ d ∈ c.buffer, d ∈ c.inFlight ∨ TakenUnreceived name events index d := by
  refine run_consumer (P := fun events index c => ∀ d ∈ c.buffer, d ∈ c.inFlight ∨
    TakenUnreceived name events index d) ?_ ?_ ?_ events index c h
  · exact fun events event index c h d hd => (h d hd).imp_right (·.append _)
  · exact fun events index id prefetch d hd => nomatch hd
  · intro events index action c c' b hc turn h d hd
    have hkept (d : Delivery) (hd : d ∈ c.buffer) : d ∈ c.inFlight ∨
        TakenUnreceived name (events ++ [.act index action]) index d :=
      (h d hd).imp_right (·.append _)
    cases turn with
    | register holds =>
      rcases List.mem_append.mp hd with hd | hd
      · exact (hkept d hd).imp_left (List.mem_append_left _)
      · exact .inl (List.mem_append_right _ hd)
    | receive first =>
      apply hkept
      rw [first]
      exact List.mem_cons_of_mem _ hd
    | @take taken how outstanding =>
      rcases eq_or_ne d taken with rfl | hne
      · exact .inr ⟨events, how, [], c, rfl, hc, hd⟩
      · exact (hkept d hd).imp_left (List.mem_erase_of_ne hne).mpr
    | acquire waits free => exact hkept d hd
    | reserve waits room => exact hkept d hd
    | claim waits last => exact hkept d hd
    | tell taken => exact hkept d hd
    | abandon taken => exact hkept d hd
    | halt => exact hkept d hd

end Network

/-- Along every run, the permits that are free, that the pump has, that deliveries in flight have
and that those being settled have add up to the window, so nothing the consumer keeps grows beyond
it. Unless a step is left half done, what lies on the processing list is what is in flight, what is
being settled, and what the pump has claimed. What waits in the buffer is in flight, unless it was
settled there. -/
theorem window_bounds (name : String) (events : List Event) :
    let n := Network.run name events
    ∀ index c, n.consumers[index]? = some c →
      (∃ id prefetch, .join id prefetch ∈ events ∧ c.processing = processingKey name id ∧
        c.window = max prefetch 1) ∧
      c.free + c.pump.permits + c.inFlight.length + c.settling.length = c.window ∧
      c.inFlight.length ≤ c.window ∧ c.buffer.length ≤ c.window ∧
      (Network.isUninterrupted name .empty events = true →
        (n.broker.list c.processing).Perm (c.inFlight.map (·.content) ++
          c.settling.map (·.1.content) ++ c.pump.held) ∧
        (n.broker.list c.processing).length ≤ c.window) ∧
      ∀ d ∈ c.buffer, d ∈ c.inFlight ∨ Network.TakenUnreceived name events index d := by
  intro n index c hc
  obtain ⟨windowed, hjoined⟩ := Network.run_windowed hc
  have hpermits := windowed.permits
  have hplaces := windowed.places
  refine ⟨hjoined, hpermits, by omega, by omega, fun huninterrupted => ?_,
    Network.run_buffered hc⟩
  have hmatched := Network.run_matched name events huninterrupted c (List.mem_of_getElem? hc)
  refine ⟨hmatched.trans ?_, hmatched.length_eq ▸ windowed.length_outstanding_le⟩
  rw [Consumer.outstanding, List.append_assoc]
  exact List.perm_append_comm

/-- Two consumers of one queue each claim a message. The second one's lies in its buffer when the
tag that the first one gave out is presented to the second, whose own tags begin alike. -/
def tagOfAnother : List Event :=
  [.publish "1", .publish "2",
    .join ⟨1⟩ 1, .act 0 .acquire, .act 0 .reserve, .act 0 .claim, .act 0 .register,
    .join ⟨2⟩ 1, .act 1 .acquire, .act 1 .reserve, .act 1 .claim, .act 1 .register,
    .act 0 .receive, .act 1 (.take 1 .acknowledge)]

theorem window_bounds_tagOfAnother :
    let n := Network.run "r" tagOfAnother
    ∃ c, n.consumers[1]? = some c ∧ Network.isUninterrupted "r" .empty tagOfAnother = true ∧
      c.buffer = [⟨1, "2"⟩] ∧ c.inFlight = [] ∧ c.settling.length = 1 ∧
      (n.broker.list c.processing).Perm ["2"] ∧
      Network.TakenUnreceived "r" tagOfAnother 1 ⟨1, "2"⟩ := by
  intro n
  obtain ⟨c, hc, hbuffer, hinFlight, hsettling, hheld⟩ : ∃ c, n.consumers[1]? = some c ∧
      c.buffer = [⟨1, "2"⟩] ∧ c.inFlight = [] ∧ c.settling = [(⟨1, "2"⟩, .acknowledge)] ∧
      c.pump.held = [] := by
    refine ⟨(n.consumers[1]?).get (by decide +kernel), ?_, ?_, ?_, ?_, ?_⟩ <;> decide +kernel
  have huninterrupted : Network.isUninterrupted "r" .empty tagOfAnother = true := by
    decide +kernel
  obtain ⟨-, -, -, -, hlists, hbuffered⟩ := window_bounds "r" tagOfAnother 1 c hc
  have hlist := (hlists huninterrupted).1
  rw [hinFlight, hsettling, hheld] at hlist
  refine ⟨c, hc, huninterrupted, hbuffer, hinFlight, by rw [hsettling]; rfl, hlist, ?_⟩
  have hwaits := hbuffered ⟨1, "2"⟩ (by rw [hbuffer]; exact List.mem_singleton_self _)
  rw [hinFlight] at hwaits
  exact hwaits.resolve_left List.not_mem_nil

/-- A message may wait in a buffer that is not in flight any more. -/
theorem buffered_not_inFlight :
    Network.isUninterrupted "r" .empty tagOfAnother = true ∧
    ¬ ∀ c ∈ (Network.run "r" tagOfAnother).consumers, ∀ d ∈ c.buffer, d ∈ c.inFlight := by
  decide +kernel

end SandboxWorker.Queue
