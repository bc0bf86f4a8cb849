import SandboxWorker.Proofs.Queue.Order
/-! The way of messages through a queue with one consumer that settles deliveries for good. Wherever
a message is on its way, it is behind those that were published before it. -/
namespace SandboxWorker.Queue

/-- Whether an event is none of a consumer that puts deliveries back, closes, or begins anew. It may
settle any delivery, handed out or not. -/
def Event.isForward : Event → Bool
  | .publish _ => true
  | .join _ _ => false
  | .act _ (.take _ how) => how ≠ .requeue
  | .act _ .halt => false
  | .act _ _ => true

namespace Consumer
variable {c c' : Consumer} {b b' : Broker} {action : Action}

theorem Turn.forward {index : Nat} (h : c.Turn b action c' b')
    (isForward : (Event.act index action).isForward = true)
    (forward : ∀ p ∈ c.settling, p.2 ≠ .requeue) : ∀ p ∈ c'.settling, p.2 ≠ .requeue := by
  cases h with
  | @take d how outstanding =>
    have hhow : how ≠ .requeue := of_decide_eq_true isForward
    simp only [List.forall_mem_append, List.forall_mem_singleton]
    exact ⟨forward, hhow⟩
  | tell => exact fun p hp => forward p (List.mem_of_mem_erase hp)
  | abandon => exact fun p hp => forward p (List.mem_of_mem_erase hp)
  | _ => exact forward

end Consumer

namespace Network
variable {name : String} {n : Network} {c : Consumer}

structure Alone (name : String) (n : Network) (c : Consumer) : Prop where
  one : n.consumers = [c]
  serves : c.Serves name
  forward : ∀ p ∈ c.settling, p.2 ≠ .requeue

theorem step_alone (alone : n.Alone name c) (event : Event) (h : event.isForward = true) :
    ∃ c', (n.step name event).Alone name c' ∧
      n.line name ++ event.published = n.handed event ++ (n.step name event).line name := by
  obtain ⟨one, serves, forward⟩ := alone
  cases event with
  | publish payload =>
    refine ⟨c, ⟨one, serves, forward⟩, ?_⟩
    rw [publish_line]
    rfl
  | join id prefetch => cases h
  | act index action =>
    by_cases hidle : ∀ c, n.consumers[index]? = some c → c.act? n.broker action = none
    · obtain ⟨hsame, hnothing⟩ := idle_line name hidle
      rw [hsame, hnothing]
      exact ⟨c, ⟨one, serves, forward⟩, by simp [Event.published]⟩
    · obtain ⟨d, hd, hable⟩ := not_forall₂.mp hidle
      obtain ⟨⟨c', b'⟩, hact⟩ := Option.ne_none_iff_exists'.mp hable
      obtain ⟨rfl, rfl⟩ : index = 0 ∧ c = d := by
        rw [one] at hd
        cases index with
        | zero => exact ⟨rfl, Option.some.inj hd⟩
        | succ index => cases hd
      have goes : action ≠ .halt := by
        rintro rfl
        cases h
      obtain ⟨hstep, hserves, hline⟩ := act_line one serves forward goes hact
      refine ⟨c', ⟨by rw [hstep], hserves, (Consumer.act?_turn hact).forward h forward⟩, ?_⟩
      rw [hline]
      exact List.append_nil _

theorem foldl_alone (alone : n.Alone name c) (events : List Event)
    (h : ∀ event ∈ events, event.isForward = true) :
    ∃ c', (events.foldl (step name) n).Alone name c' ∧
      n.line name ++ publications events =
        received name n events ++ (events.foldl (step name) n).line name := by
  induction events generalizing n c with
  | nil => exact ⟨c, alone, by simp [publications, received]⟩
  | cons event events ih =>
    obtain ⟨hfirst, hrest⟩ := List.forall_mem_cons.mp h
    obtain ⟨c₁, halone, hstep⟩ := step_alone alone event hfirst
    obtain ⟨c', hafter, hrun⟩ := ih halone hrest
    refine ⟨c', hafter, ?_⟩
    calc n.line name ++ publications (event :: events)
        = n.handed event ++ ((n.step name event).line name ++ publications events) := by
          rw [publications, List.flatMap_cons, ← List.append_assoc, hstep, List.append_assoc,
            ← publications]
      _ = received name n (event :: events) ++
            ((event :: events).foldl (step name) n).line name := by
          rw [hrun, received, List.append_assoc, List.foldl_cons]

theorem join_alone (name : String) (hnobody : n.consumers = []) (id : Uuid) (prefetch : Nat) :
    ∃ c, (n.step name (.join id prefetch)).Alone name c ∧
      (n.step name (.join id prefetch)).line name = n.line name := by
  rw [step, if_neg (by simp [hnobody])]
  refine ⟨.start (waitingKey name) (processingKey name id) (deadLetterKey name) prefetch,
    ⟨by rw [hnobody, List.nil_append], ⟨rfl, rfl, id, rfl⟩, List.forall_mem_nil _⟩, ?_⟩
  simp [line, hnobody, Consumer.ahead, Consumer.start, Pump.held]

theorem run_early (name : String) (early : List String) :
    let n := run name (early.map .publish)
    n.consumers = [] ∧ n.line name = early ∧ received name .empty (early.map .publish) = [] ∧
      publications (early.map .publish) = early := by
  intro n
  induction early using List.reverseRecOn with
  | nil => exact ⟨rfl, rfl, rfl, rfl⟩
  | append_singleton early payload ih =>
    obtain ⟨hnobody, hline, hreceived, hpublished⟩ := ih
    have hn : n = (run name (early.map .publish)).step name (.publish payload) := by
      simp only [n, run, List.map_append, List.foldl_append]
      rfl
    refine ⟨by rw [hn]; exact hnobody, by rw [hn, publish_line, hline], ?_, ?_⟩
    · rw [List.map_append, received_append, hreceived]
      rfl
    · rw [List.map_append, publications, List.flatMap_append, ← publications, hpublished]
      rfl

end Network

open Network

/-- At every moment, what was published is what was received, behind it what waits in the buffer,
the message that the pump holds, and what waits in the queue from right to left. -/
theorem received_in_order (name : String) (early : List String) (id : Uuid) (prefetch : Nat)
    (later : List Event) (h : ∀ event ∈ later, event.isForward = true) :
    let events := early.map .publish ++ .join id prefetch :: later
    let n := run name events
    received name .empty events <+: publications events ∧
    ∃ c, n.consumers = [c] ∧ publications events =
      received name .empty events ++ c.buffer.map (·.content) ++ c.pump.held ++
        (n.broker.list (waitingKey name)).reverse := by
  intro events n
  obtain ⟨hnobody, hline, hnothing, hearly⟩ := run_early name early
  obtain ⟨_, halone, hjoined⟩ := join_alone name hnobody id prefetch
  obtain ⟨c, ⟨one, -, -⟩, hrun⟩ := foldl_alone halone later h
  have hn : n = later.foldl (step name)
      ((run name (early.map .publish)).step name (.join id prefetch)) := by
    simp only [n, events, run, List.foldl_append, List.foldl_cons]
  have hreceived : received name .empty events =
      received name ((run name (early.map .publish)).step name (.join id prefetch)) later := by
    rw [received_append, hnothing]
    rfl
  have hpublished : publications events = early ++ publications later := by
    rw [publications, List.flatMap_append, List.flatMap_cons, ← publications, hearly]
    rfl
  have hall : publications events = received name .empty events ++ n.line name := by
    rw [hpublished, hreceived, hn, ← hrun, hjoined, hline]
  rw [← hn] at one
  refine ⟨⟨n.line name, hall.symm⟩, c, one, ?_⟩
  rw [hall, line, one, List.flatMap_singleton, Consumer.ahead]
  simp only [List.append_assoc]

def underWay : List Event :=
  [.act 0 .acquire, .act 0 .reserve, .act 0 .claim, .publish "3", .act 0 .register, .act 0 .receive,
    .act 0 .acquire, .act 0 .reserve, .act 0 .claim, .act 0 .register, .publish "4",
    .act 0 (.take 1 .acknowledge), .act 0 (.tell ⟨1, "1"⟩ .acknowledge), .act 0 (.take 2 .bury),
    .act 0 .acquire, .act 0 .reserve, .act 0 .claim]

theorem received_in_order_underWay :
    let events := ["1", "2"].map Event.publish ++ .join ⟨1⟩ 2 :: underWay
    (∀ event ∈ underWay, event.isForward = true) ∧
    received "r" .empty events = ["1"] ∧ ["1"] <+: publications events ∧
    publications events = ["1"] ++ ["2"] ++ ["3"] ++ ["4"] := by
  intro events
  have hforward : ∀ event ∈ underWay, event.isForward = true := by decide
  have hreceived : received "r" .empty events = ["1"] := by decide +kernel
  have hahead : (run "r" events).consumers.map (fun c => (c.buffer.map (·.content), c.pump.held)) =
      [(["2"], ["3"])] := by
    decide +kernel
  have hwaiting : (run "r" events).broker.list (waitingKey "r") = ["4"] := by decide +kernel
  obtain ⟨hfirst, c, one, hpublished⟩ := received_in_order "r" ["1", "2"] ⟨1⟩ 2 underWay hforward
  rw [one, List.map_singleton, List.singleton_inj, Prod.mk.injEq] at hahead
  rw [hreceived] at hfirst
  rw [hreceived, hahead.1, hahead.2, hwaiting] at hpublished
  exact ⟨hforward, hreceived, hfirst, hpublished⟩

end SandboxWorker.Queue
