import SandboxWorker.Proofs.Queue.Conservation
import SandboxWorker.Proofs.Queue.Turns
/-! A queue with one consumer keeps its messages in line. What was handed out, what the consumer has
claimed ahead, and what waits are together what was published, in this order. -/
namespace SandboxWorker.Queue

def Event.published : Event → List String
  | .publish payload => [payload]
  | _ => []

def publications (events : List Event) : List String := events.flatMap Event.published

namespace Consumer

def ahead (c : Consumer) : List String := c.buffer.map (·.content) ++ c.pump.held

def handed (c : Consumer) : Action → List String
  | .receive => (c.buffer.head?.map (·.content)).toList
  | _ => []

/-- Whether a step keeps the line as it is. A delivery is settled after it was handed out, and not
put back; the consumer goes on. -/
def keepsLine (c : Consumer) : Action → Bool
  | .take tag how => how ≠ .requeue && c.buffer.all (·.tag ≠ tag)
  | .halt => false
  | _ => true

/-- A consumer whose buffer holds deliveries in flight, each with a tag of its own, and which puts
nothing back. -/
structure Tidy (c : Consumer) : Prop where
  buffered : c.buffer.Sublist c.inFlight
  distinct : (c.inFlight.map (·.tag)).Nodup
  tag_le : ∀ d ∈ c.inFlight, d.tag ≤ c.lastTag
  keeps : ∀ p ∈ c.settling, p.2 ≠ .requeue

variable {c c' : Consumer} {b b' : Broker} {action : Action} {name : String}

theorem start_tidy (queue processing deadLetter : String) (prefetch : Nat) :
    (start queue processing deadLetter prefetch).Tidy :=
  ⟨.slnil, .nil, by simp [start], by simp [start]⟩

theorem Turn.serves (h : c.Turn b action c' b') (serves : c.Serves name) : c'.Serves name := by
  obtain ⟨queue, deadLetter, processing⟩ := serves
  cases h <;> exact ⟨queue, deadLetter, processing⟩

theorem settled_tidy {d : Delivery} {how : Settlement} (tidy : c.Tidy) : (c.settled d how).Tidy :=
  ⟨tidy.buffered, tidy.distinct, tidy.tag_le, fun p hp => tidy.keeps p (List.mem_of_mem_erase hp)⟩

theorem Turn.tidy (h : c.Turn b action c' b') (keeps : c.keepsLine action = true) (tidy : c.Tidy) :
    c'.Tidy := by
  obtain ⟨buffered, distinct, tag_le, settling⟩ := tidy
  cases h with
  | acquire => exact ⟨buffered, distinct, tag_le, settling⟩
  | reserve => exact ⟨buffered, distinct, tag_le, settling⟩
  | claim => exact ⟨buffered, distinct, tag_le, settling⟩
  | @register payload holds =>
    refine ⟨buffered.append (.refl _), ?_, ?_, settling⟩
    · rw [List.map_append]
      refine List.nodup_append.mpr ⟨distinct, by simp, ?_⟩
      simp only [List.map_cons, List.map_nil, List.mem_singleton, List.mem_map]
      rintro _ ⟨d, hd, rfl⟩ _ rfl
      have hle := tag_le d hd
      omega
    · simp only [List.forall_mem_append, List.forall_mem_singleton]
      exact ⟨fun d hd => Nat.le_succ_of_le (tag_le d hd), Nat.le_refl _⟩
  | receive first =>
    rw [first] at buffered
    exact ⟨(List.sublist_cons_self _ _).trans buffered, distinct, tag_le, settling⟩
  | @take d how outstanding =>
    simp only [keepsLine, Bool.and_eq_true, decide_eq_true_eq, List.all_eq_true] at keeps
    have hnot : d ∉ c.buffer := fun hd => keeps.2 d hd rfl
    refine ⟨?_, ?_, fun e he => tag_le e (List.mem_of_mem_erase he), ?_⟩
    · have herase := buffered.erase d
      rwa [List.erase_of_not_mem hnot] at herase
    · exact distinct.sublist (List.erase_sublist.map _)
    · simp only [List.forall_mem_append, List.forall_mem_singleton]
      exact ⟨settling, keeps.1⟩
  | tell => exact settled_tidy ⟨buffered, distinct, tag_le, settling⟩
  | abandon => exact settled_tidy ⟨buffered, distinct, tag_le, settling⟩
  | halt => cases keeps

theorem handed_of_act?_none (h : c.act? b action = none) : c.handed action = [] := by
  cases action with
  | receive =>
    simp only [act?, Option.map_eq_none_iff, receive?] at h
    split at h
    · cases h
    · simp [handed, *]
  | _ => rfl

theorem effect_queue (separate : c.Separate) {d : Delivery} {how : Settlement}
    (h : how ≠ .requeue) : (c.effect d how b).list c.queue = b.list c.queue := by
  cases how with
  | acknowledge =>
    rw [effect, Broker.settle, Broker.list_modify_of_ne _ _ separate.queue_processing]
  | requeue => exact absurd rfl h
  | bury =>
    rw [effect, Broker.bury, Broker.publish, Broker.list_modify_of_ne _ _ separate.queue_deadLetter,
      Broker.settle, Broker.list_modify_of_ne _ _ separate.queue_processing]

/-- A step that puts nothing back hands out the front of the line, or nothing. -/
theorem Turn.line_eq (h : c.Turn b action c' b') (separate : c.Separate)
    (forward : ∀ p ∈ c.settling, p.2 ≠ .requeue) (goes : action ≠ .halt) :
    c.ahead ++ (b.list c.queue).reverse =
      c.handed action ++ (c'.ahead ++ (b'.list c'.queue).reverse) := by
  cases h with
  | acquire waits => simp [ahead, handed, waits, Pump.held]
  | reserve waits => simp [ahead, handed, waits, Pump.held]
  | claim waits last =>
    rw [Broker.list_modify_of_ne _ _ separate.queue_processing, Broker.list_modify_self, last]
    simp [ahead, handed, waits, Pump.held]
  | register holds => simp [ahead, handed, holds, Pump.held]
  | receive first => simp [ahead, handed, first]
  | take => rfl
  | tell taken =>
    change _ = [] ++ (c.ahead ++ ((c.effect _ _ b).list c.queue).reverse)
    rw [effect_queue separate (forward _ taken), List.nil_append]
  | abandon => rfl
  | halt => exact absurd rfl goes

theorem goes_of_keepsLine (keeps : c.keepsLine action = true) : action ≠ .halt := by
  rintro rfl
  cases keeps

end Consumer

namespace Network
variable {name : String} {n : Network}

/-- All that was published and not handed out, in the order in which it is to be handed out. -/
def line (name : String) (n : Network) : List String :=
  n.consumers.flatMap Consumer.ahead ++ (n.broker.list (waitingKey name)).reverse

def handed (n : Network) : Event → List String
  | .act index action => (n.consumers[index]?.map (·.handed action)).getD []
  | _ => []

def received (name : String) : Network → List Event → List String
  | _, [] => []
  | n, event :: events => n.handed event ++ received name (n.step name event) events

def keepsLine (n : Network) : Event → Bool
  | .publish _ => true
  | .join _ _ => n.consumers.isEmpty
  | .act index action => (n.consumers[index]?).all (·.keepsLine action)

/-- Whether a run has one consumer at most, which settles what it was handed, puts nothing back and
is not closed. -/
def isSolo (name : String) : Network → List Event → Bool
  | _, [] => true
  | n, event :: events => n.keepsLine event && isSolo name (n.step name event) events

structure Solo (name : String) (n : Network) : Prop where
  one : n.consumers.length ≤ 1
  serves : ∀ c ∈ n.consumers, c.Serves name
  tidy : ∀ c ∈ n.consumers, c.Tidy

def quiet (b : Broker) : Network := ⟨b, [], [], []⟩

theorem quiet_solo (b : Broker) : (quiet b).Solo name where
  one := Nat.zero_le _
  serves _ h := nomatch h
  tidy _ h := nomatch h

theorem line_quiet (b : Broker) : (quiet b).line name = (b.list (waitingKey name)).reverse := rfl

theorem eq_of_solo {index : Nat} {c : Consumer} (solo : n.Solo name)
    (h : n.consumers[index]? = some c) : index = 0 ∧ n.consumers = [c] := by
  obtain ⟨hlt, hget⟩ := List.getElem?_eq_some_iff.mp h
  have hone := solo.one
  obtain rfl : index = 0 := by omega
  obtain ⟨d, hd⟩ := List.length_eq_one_iff.mp (show n.consumers.length = 1 by omega)
  simp_all

theorem publish_line (payload : String) :
    (n.step name (.publish payload)).line name = n.line name ++ [payload] := by
  change n.consumers.flatMap Consumer.ahead ++
    ((n.broker.publish (waitingKey name) payload).list (waitingKey name)).reverse = _
  simp [line, Broker.publish]

theorem idle_line (name : String) {index : Nat} {action : Action}
    (h : ∀ c, n.consumers[index]? = some c → c.act? n.broker action = none) :
    n.step name (.act index action) = n ∧ n.handed (.act index action) = [] := by
  cases hc : n.consumers[index]? with
  | none => simp [step, handed, hc]
  | some c =>
    have hact := h c hc
    simp [step, handed, hc, hact, Consumer.handed_of_act?_none hact]

theorem act_line {c c' : Consumer} {b' : Broker} {action : Action} (one : n.consumers = [c])
    (serves : c.Serves name) (forward : ∀ p ∈ c.settling, p.2 ≠ .requeue)
    (goes : action ≠ .halt) (hact : c.act? n.broker action = some (c', b')) :
    n.step name (.act 0 action) =
        ⟨b', [c'], n.published, action.acknowledged ++ n.acknowledged⟩ ∧
      c'.Serves name ∧
      n.line name = n.handed (.act 0 action) ++ (n.step name (.act 0 action)).line name := by
  have hc : n.consumers[0]? = some c := by rw [one, List.getElem?_cons_zero]
  have hturn := Consumer.act?_turn hact
  have hserves := hturn.serves serves
  have hline := hturn.line_eq serves.separate forward goes
  have hstep : n.step name (.act 0 action) =
      ⟨b', [c'], n.published, action.acknowledged ++ n.acknowledged⟩ := by
    simp only [step, hc, hact]
    rw [one, List.set_cons_zero]
  refine ⟨hstep, hserves, ?_⟩
  rw [serves.queue, hserves.queue] at hline
  rw [hstep]
  simpa [line, handed, one] using hline

/-- An event that keeps the line adds what it publishes at the end, and takes what it hands out from
the front. -/
theorem step_line (event : Event) (solo : n.Solo name) (keeps : n.keepsLine event = true) :
    (n.step name event).Solo name ∧
      n.line name ++ event.published = n.handed event ++ (n.step name event).line name := by
  cases event with
  | publish payload =>
    refine ⟨⟨solo.one, solo.serves, solo.tidy⟩, ?_⟩
    rw [publish_line]
    rfl
  | join id prefetch =>
    have hnone : n.consumers = [] := List.isEmpty_iff.mp keeps
    rw [step, if_neg (by simp [hnone])]
    refine ⟨⟨by simp [hnone], ?_, ?_⟩, ?_⟩
    · simp only [hnone, List.nil_append, List.forall_mem_singleton]
      exact ⟨rfl, rfl, id, rfl⟩
    · simp only [hnone, List.nil_append, List.forall_mem_singleton]
      exact Consumer.start_tidy ..
    · simp [line, handed, hnone, Event.published, Consumer.ahead, Consumer.start, Pump.held]
  | act index action =>
    by_cases hidle : ∀ c, n.consumers[index]? = some c → c.act? n.broker action = none
    · obtain ⟨hsame, hnothing⟩ := idle_line name hidle
      rw [hsame, hnothing]
      exact ⟨solo, by simp [Event.published]⟩
    · obtain ⟨c, hc, hable⟩ := not_forall₂.mp hidle
      obtain ⟨⟨c', b'⟩, hact⟩ := Option.ne_none_iff_exists'.mp hable
      obtain ⟨rfl, one⟩ := eq_of_solo solo hc
      have hmem : c ∈ n.consumers := List.mem_of_getElem? hc
      have tidy := solo.tidy c hmem
      have hkeeps : c.keepsLine action = true := by simpa [keepsLine, hc] using keeps
      have htidy := (Consumer.act?_turn hact).tidy hkeeps tidy
      obtain ⟨hstep, hserves, hline⟩ := act_line one (solo.serves c hmem) tidy.keeps
        (Consumer.goes_of_keepsLine hkeeps) hact
      refine ⟨?_, by rw [hline]; exact List.append_nil _⟩
      rw [hstep]
      exact ⟨Nat.le_refl _, by simpa using hserves, by simpa using htidy⟩

theorem run_line (events : List Event) (solo : n.Solo name) (h : isSolo name n events = true) :
    (events.foldl (step name) n).Solo name ∧
      n.line name ++ publications events =
        received name n events ++ (events.foldl (step name) n).line name := by
  induction events generalizing n with
  | nil => exact ⟨solo, by simp [publications, received]⟩
  | cons event events ih =>
    rw [isSolo, Bool.and_eq_true] at h
    obtain ⟨hsolo, hstep⟩ := step_line event solo h.1
    obtain ⟨hafter, hrun⟩ := ih hsolo h.2
    refine ⟨hafter, ?_⟩
    rw [publications, List.flatMap_cons, ← List.append_assoc, hstep, List.append_assoc,
      ← publications, hrun, received, List.append_assoc, List.foldl_cons]

/-! ### Serving a queue to its end -/

theorem isSolo_append (n : Network) (events more : List Event) :
    isSolo name n (events ++ more) =
      (isSolo name n events && isSolo name (events.foldl (step name) n) more) := by
  induction events generalizing n with
  | nil => simp [isSolo]
  | cons event events ih => simp [isSolo, ih, Bool.and_assoc]

theorem received_append (n : Network) (events more : List Event) :
    received name n (events ++ more) =
      received name n events ++ received name (events.foldl (step name) n) more := by
  induction events generalizing n with
  | nil => simp [received]
  | cons event events ih => simp [received, ih, List.append_assoc]

def idle (name : String) (id : Uuid) (prefetch served : Nat) : Consumer :=
  { Consumer.start (waitingKey name) (processingKey name id) (deadLetterKey name) prefetch with
    lastTag := served }

def serving (served : Nat) (payload : String) : List Event :=
  [.acquire, .reserve, .claim, .register, .receive, .take (served + 1) .acknowledge,
    .tell ⟨served + 1, payload⟩ .acknowledge].map (.act 0)

theorem serving_line (id : Uuid) (prefetch served : Nat) {b : Broker} {front : List String}
    {payload : String} (h : b.list (waitingKey name) = front ++ [payload])
    (published acknowledged : List String) :
    let n : Network := ⟨b, [idle name id prefetch served], published, acknowledged⟩
    isSolo name n (serving served payload) = true ∧
    received name n (serving served payload) = [payload] ∧
    ∃ b' acknowledged', (serving served payload).foldl (step name) n =
        ⟨b', [idle name id prefetch (served + 1)], published, acknowledged'⟩ ∧
      b'.list (waitingKey name) = front := by
  have hne := (processingKey_ne_waitingKey name id).symm
  have hfree : 0 < max prefetch 1 := by omega
  have hwindow : max prefetch 1 - 1 + 1 = max prefetch 1 := by omega
  -- Seven steps, one after the other.
  simp [serving, isSolo, received, step, keepsLine, handed, idle, Consumer.start,
    Consumer.keepsLine, Consumer.handed, Consumer.act?, Consumer.acquire?, Consumer.reserve?,
    Consumer.claim?, Broker.claim?, Consumer.register?, Consumer.receive?, Consumer.take?,
    Consumer.settled, Consumer.effect, Broker.settle, Broker.list_modify_of_ne,
    Action.acknowledged, h, hne, hfree, hwindow]

theorem exists_serving {b : Broker} (id : Uuid) (prefetch served : Nat)
    (published acknowledged : List String) :
    let n : Network := ⟨b, [idle name id prefetch served], published, acknowledged⟩
    ∃ events, isSolo name n events = true ∧
      received name n events = (b.list (waitingKey name)).reverse := by
  induction hlist : b.list (waitingKey name) using List.reverseRecOn
    generalizing b served acknowledged with
  | nil => exact ⟨[], rfl, rfl⟩
  | append_singleton front payload ih =>
    obtain ⟨hsolo, hreceived, b', acknowledged', hafter, hfront⟩ :=
      serving_line id prefetch served hlist published acknowledged
    obtain ⟨events, hsolo', hreceived'⟩ := ih (served + 1) acknowledged' hfront
    refine ⟨serving served payload ++ events, ?_, ?_⟩
    · rw [isSolo_append, hsolo, hafter, hsolo', Bool.and_true]
    · rw [received_append, hreceived, hafter, hreceived', List.reverse_append]
      rfl

/-- Whoever begins to consume a queue can receive all that waits there. -/
theorem exists_received (b : Broker) (id : Uuid) (prefetch : Nat) :
    ∃ events, isSolo name (quiet b) (.join id prefetch :: events) = true ∧
      received name (quiet b) (.join id prefetch :: events) =
        (b.list (waitingKey name)).reverse := by
  have hjoin : (quiet b).step name (.join id prefetch) =
      ⟨b, [idle name id prefetch 0], [], []⟩ := by
    rw [step, if_neg (by simp [quiet])]
    rfl
  obtain ⟨events, hsolo, hreceived⟩ := exists_serving id prefetch 0 [] []
  refine ⟨events, ?_, ?_⟩
  · rw [isSolo, hjoin, hsolo]
    rfl
  · rw [received, hjoin, hreceived]
    rfl

end Network
end SandboxWorker.Queue
