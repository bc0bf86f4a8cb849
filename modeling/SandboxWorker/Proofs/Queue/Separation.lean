import Mathlib.Data.List.Nodup
import SandboxWorker.Proofs.Queue.Order
import SandboxWorker.Proofs.Queue.Window
/-! Queues that share a broker. Each has publishers and consumers of its own, and all of them take
their steps in any order. No two consumers share a processing list. Queues whose names have no colon
share no list at all, and so each of them is what it would be with a broker to itself. -/
namespace SandboxWorker.Queue

def Broker.AgreeOn (P : String → Prop) (b b' : Broker) : Prop :=
  ∀ key, P key → b.list key = b'.list key

theorem Broker.AgreeOn.modify {P : String → Prop} {b b' : Broker} (h : b.AgreeOn P b')
    (key : String) (f : List String → List String) :
    (b.modify key f).AgreeOn P (b'.modify key f) := by
  intro k hk
  by_cases hkey : k = key
  · subst hkey
    rw [list_modify_self, list_modify_self, h k hk]
  · rw [list_modify_of_ne _ _ hkey, list_modify_of_ne _ _ hkey, h k hk]

namespace Consumer
variable {P : String → Prop} {c c' : Consumer} {b b' : Broker}

theorem effect_agreeOn (h : b.AgreeOn P b') (d : Delivery) (how : Settlement) :
    (c.effect d how b).AgreeOn P (c.effect d how b') := by
  have hsettled : (b.settle c.processing d.content).AgreeOn P (b'.settle c.processing d.content) :=
    h.modify _ _
  cases how with
  | acknowledge => exact hsettled
  | requeue => exact hsettled.modify c.queue (· ++ [d.content])
  | bury => exact hsettled.modify c.deadLetter (d.content :: ·)

def AgreeOn (P : String → Prop) (x y : Consumer × Broker) : Prop :=
  x.1 = y.1 ∧ x.2.AgreeOn P y.2

theorem rel_map {α : Type} (h : b.AgreeOn P b') (step : Option α) (f : α → Consumer) :
    Option.Rel (AgreeOn P) (step.map fun a => (f a, b)) (step.map fun a => (f a, b')) := by
  cases step with
  | none => exact .none
  | some a => exact .some ⟨rfl, h⟩

theorem claim?_rel (h : b.AgreeOn P b') (hqueue : P c.queue) :
    Option.Rel (AgreeOn P) (c.claim? b) (c.claim? b') := by
  unfold claim? Broker.claim?
  rw [h _ hqueue]
  split
  · cases (b'.list c.queue).getLast? with
    | none => exact .none
    | some payload => exact .some ⟨rfl, (h.modify _ _).modify _ _⟩
  · exact .none

/-- Of the broker, a consumer sees nothing but its queue. -/
theorem act?_rel (h : b.AgreeOn P b') (hqueue : P c.queue) (action : Action) :
    Option.Rel (AgreeOn P) (c.act? b action) (c.act? b' action) := by
  cases action with
  | acquire => exact rel_map h _ _
  | reserve => exact rel_map h _ _
  | claim => exact claim?_rel h hqueue
  | register => exact rel_map h _ _
  | receive => exact rel_map h _ _
  | take tag how => exact rel_map h _ _
  | tell d how =>
    simp only [act?]
    split
    · exact .some ⟨rfl, effect_agreeOn h d how⟩
    · exact .none
  | abandon d how =>
    simp only [act?]
    split
    · exact .some ⟨rfl, h⟩
    · exact .none
  | halt => exact .some ⟨rfl, h⟩

theorem Turn.elsewhere {action : Action} (h : c.Turn b action c' b') {key : String}
    (hqueue : key ≠ c.queue) (hprocessing : key ≠ c.processing) (hdead : key ≠ c.deadLetter) :
    b'.list key = b.list key := by
  cases h with
  | claim waits last =>
    rw [Broker.list_modify_of_ne _ _ hprocessing, Broker.list_modify_of_ne _ _ hqueue]
  | @tell d how taken => exact effect_elsewhere d how b hqueue hprocessing hdead
  | _ => rfl

theorem Serves.ne_of_not_isListOf {name key : String} (h : c.Serves name)
    (hkey : ¬IsListOf name key) : key ≠ c.queue ∧ key ≠ c.processing ∧ key ≠ c.deadLetter := by
  obtain ⟨id, hid⟩ := h.processing
  rw [h.queue, hid, h.deadLetter]
  refine ⟨?_, ?_, ?_⟩ <;> rintro rfl
  · exact hkey .waiting
  · exact hkey (.processing id)
  · exact hkey .deadLetter

end Consumer

namespace Network
variable {name : String} {n n' : Network}

/-- The consumers of a queue serve it, each with a processing list of its own. -/
structure Staffed (name : String) (n : Network) : Prop where
  serves : ∀ c ∈ n.consumers, c.Serves name
  distinct : (n.consumers.map (·.processing)).Nodup

theorem Staffed.step (h : n.Staffed name) (event : Event) : (n.step name event).Staffed name := by
  refine ⟨fun c hc => ?_, ?_⟩
  · obtain ⟨index, hindex⟩ := List.mem_iff_getElem?.mp hc
    cases step_came hindex with
    | stayed _ was => exact h.serves c (List.mem_of_getElem? was)
    | joined id prefetch began => exact began ▸ ⟨rfl, rfl, id, rfl⟩
    | acted was turn => exact turn.serves (h.serves _ (List.mem_of_getElem? was))
  · cases event with
    | publish payload => exact h.distinct
    | join id prefetch =>
      rw [Network.step]
      split
      · exact h.distinct
      · rename_i hnew
        rw [List.map_append]
        exact h.distinct.append (List.nodup_singleton _) (List.disjoint_singleton.mpr hnew)
    | act index action =>
      rw [Network.step]
      split
      · exact h.distinct
      · rename_i c hc
        split
        · exact h.distinct
        · rename_i c' b' hact
          obtain ⟨front, back, hsplit, hset⟩ := exists_split_of_getElem? hc
          have hdistinct := h.distinct
          rw [hsplit, List.map_append, List.map_cons] at hdistinct
          rw [hset, List.map_append, List.map_cons, (Consumer.act?_turn hact).processing_eq]
          exact hdistinct

theorem Staffed.elsewhere (h : n.Staffed name) (event : Event) {key : String}
    (hkey : ¬IsListOf name key) : (n.step name event).broker.list key = n.broker.list key := by
  cases event with
  | publish payload =>
    refine Broker.list_modify_of_ne _ _ ?_
    rintro rfl
    exact hkey .waiting
  | join id prefetch =>
    rw [Network.step]
    split <;> rfl
  | act index action =>
    rw [Network.step]
    split
    · rfl
    · rename_i c hc
      split
      · rfl
      · rename_i c' b' hact
        have hne := (h.serves c (List.mem_of_getElem? hc)).ne_of_not_isListOf hkey
        exact (Consumer.act?_turn hact).elsewhere hne.1 hne.2.1 hne.2.2

/-- The same queue, perhaps beside other ones. -/
structure Alike (name : String) (n n' : Network) : Prop where
  consumers : n.consumers = n'.consumers
  published : n.published = n'.published
  acknowledged : n.acknowledged = n'.acknowledged
  lists : n.broker.AgreeOn (IsListOf name) n'.broker

theorem Alike.step (h : Alike name n n') (staffed : n.Staffed name) (event : Event) :
    Alike name (n.step name event) (n'.step name event) := by
  obtain ⟨b, consumers, published, acknowledged⟩ := n
  obtain ⟨b', _, _, _⟩ := n'
  obtain ⟨rfl, rfl, rfl, lists⟩ := h
  cases event with
  | publish payload => exact ⟨rfl, rfl, rfl, lists.modify _ _⟩
  | join id prefetch =>
    simp only [Network.step]
    split
    · exact ⟨rfl, rfl, rfl, lists⟩
    · exact ⟨rfl, rfl, rfl, lists⟩
  | act index action =>
    cases hc : consumers[index]? with
    | none =>
      simp only [Network.step, hc]
      exact ⟨rfl, rfl, rfl, lists⟩
    | some c =>
      have hqueue : IsListOf name c.queue := by
        rw [(staffed.serves c (List.mem_of_getElem? hc)).queue]
        exact .waiting
      have hrel := Consumer.act?_rel lists hqueue action
      simp only [Network.step, hc]
      revert hrel
      generalize c.act? b action = after, c.act? b' action = after'
      rintro (⟨hsame, hlists⟩ | _)
      · exact ⟨congrArg (consumers.set index) hsame, rfl, rfl, hlists⟩
      · exact ⟨rfl, rfl, rfl, lists⟩

end Network

/-! ### One broker -/

structure Party where
  consumers : List Consumer
  published : List String
  acknowledged : List String

structure Queues where
  broker : Broker
  party : String → Party

namespace Queues
variable {n m name other : String}

def empty : Queues := ⟨.empty, fun _ => ⟨[], [], []⟩⟩

def network (q : Queues) (name : String) : Network :=
  ⟨q.broker, (q.party name).consumers, (q.party name).published, (q.party name).acknowledged⟩

/-- An event is one of the queue that it names. -/
def step (q : Queues) (event : String × Event) : Queues :=
  let n := (q.network event.1).step event.1 event.2
  ⟨n.broker, Function.update q.party event.1 ⟨n.consumers, n.published, n.acknowledged⟩⟩

def run (events : List (String × Event)) : Queues := events.foldl step empty

def eventsOf (name : String) (events : List (String × Event)) : List Event :=
  (events.filter (·.1 = name)).map (·.2)

theorem network_step_self (q : Queues) (name : String) (event : Event) :
    (q.step (name, event)).network name = (q.network name).step name event := by
  simp only [network, step, Function.update_self]

theorem network_step_of_ne (q : Queues) (h : name ≠ other) (event : Event) :
    (q.step (other, event)).network name =
      { q.network name with broker := ((q.network other).step other event).broker } := by
  simp only [network, step, Function.update_of_ne h]

theorem run_concat (events : List (String × Event)) (event : String × Event) :
    run (events ++ [event]) = (run events).step event := List.foldl_append

theorem eventsOf_concat_self (name : String) (events : List (String × Event)) (event : Event) :
    eventsOf name (events ++ [(name, event)]) = eventsOf name events ++ [event] := by
  simp [eventsOf]

theorem eventsOf_concat_of_ne (events : List (String × Event)) (h : name ≠ other) (event : Event) :
    eventsOf name (events ++ [(other, event)]) = eventsOf name events := by
  simp [eventsOf, h.symm]

theorem run_staffed (events : List (String × Event)) (name : String) :
    ((run events).network name).Staffed name := by
  induction events using List.reverseRecOn with
  | nil => exact ⟨nofun, .nil⟩
  | append_singleton events event ih =>
    obtain ⟨other, event⟩ := event
    rw [run_concat]
    by_cases h : name = other
    · subst h
      rw [network_step_self]
      exact ih.step event
    · rw [network_step_of_ne _ h]
      exact ⟨ih.serves, ih.distinct⟩

theorem processing_unshared (events : List (String × Event)) {i j : Nat} {c c' : Consumer}
    (h : ((run events).network n).consumers[i]? = some c)
    (h' : ((run events).network m).consumers[j]? = some c')
    (hsame : c.processing = c'.processing) : n = m ∧ i = j := by
  obtain ⟨u, hu⟩ := ((run_staffed events n).serves c (List.mem_of_getElem? h)).processing
  obtain ⟨v, hv⟩ := ((run_staffed events m).serves c' (List.mem_of_getElem? h')).processing
  obtain ⟨rfl, -⟩ := processingKey_inj.mp (hu.symm.trans (hsame.trans hv))
  refine ⟨rfl, (List.getElem?_inj ?_ (run_staffed events n).distinct).mp ?_⟩
  · rw [List.length_map]
    exact (List.getElem?_eq_some_iff.mp h).1
  · rw [List.getElem?_map, List.getElem?_map, h, h', Option.map_some, Option.map_some, hsame]

/-- Step by step, a queue does the same with other ones beside it and alone. -/
theorem run_alike (events : List (String × Event)) (hname : colon ∉ name.toList)
    (hothers : ∀ e ∈ events, colon ∉ e.1.toList) :
    Network.Alike name ((run events).network name) (Network.run name (eventsOf name events)) := by
  induction events using List.reverseRecOn with
  | nil => exact ⟨rfl, rfl, rfl, fun _ _ => rfl⟩
  | append_singleton events event ih =>
    obtain ⟨other, event⟩ := event
    obtain ⟨hevents, hother⟩ := List.forall_mem_append.mp hothers
    have hbefore := ih hevents
    rw [run_concat]
    by_cases h : name = other
    · subst h
      rw [network_step_self, eventsOf_concat_self, Network.run, List.foldl_append]
      exact hbefore.step (run_staffed events name) event
    · rw [network_step_of_ne _ h, eventsOf_concat_of_ne _ h]
      refine ⟨hbefore.consumers, hbefore.published, hbefore.acknowledged, fun key hkey => ?_⟩
      have hforeign : ¬IsListOf other key :=
        fun hkey' => h (hkey.name_unique hkey' hname (hother _ (List.mem_singleton.mpr rfl)))
      exact ((run_staffed events other).elsewhere event hforeign).trans (hbefore.lists key hkey)

end Queues

/-- The lists of a queue are three different ones for each consumer; a processing list tells its
queue and its consumer, a waiting list and a dead letter list tell their queue, and two queues whose
names have no colon have no list in common. So whatever happens to the queues of one broker, no two
consumers share a processing list; and a queue is as if there were no other, if no name has a
colon. -/
theorem lists_apart (n m : String) (u v : Uuid) :
    [waitingKey n, processingKey n u, deadLetterKey n].Nodup ∧
    (processingKey n u = processingKey m v ↔ n = m ∧ u = v) ∧
    Function.Injective waitingKey ∧ Function.Injective deadLetterKey ∧
    (n ≠ m → colon ∉ n.toList → colon ∉ m.toList → ∀ key, IsListOf n key → ¬IsListOf m key) ∧
    ∀ events : List (String × Event),
      (∀ (i j : Nat) (c c' : Consumer),
        ((Queues.run events).network n).consumers[i]? = some c →
        ((Queues.run events).network m).consumers[j]? = some c' →
        n ≠ m ∨ i ≠ j → c.processing ≠ c'.processing) ∧
      (colon ∉ n.toList → (∀ e ∈ events, colon ∉ e.1.toList) →
        Network.Alike n ((Queues.run events).network n)
          (Network.run n (Queues.eventsOf n events))) := by
  refine ⟨?_, processingKey_inj, waitingKey_injective, deadLetterKey_injective, ?_, ?_⟩
  · have hprocessing := (processingKey_ne_waitingKey n u).symm
    have hdead := waitingKey_ne_deadLetterKey n
    have hboth := processingKey_ne_deadLetterKey n u
    simp [hprocessing, hdead, hboth]
  · exact fun hne hn hm key hkey hkey' => hne (hkey.name_unique hkey' hn hm)
  · refine fun events => ⟨fun i j c c' h h' hother hsame => ?_, Queues.run_alike events⟩
    obtain ⟨hname, hindex⟩ := Queues.processing_unshared events h h' hsame
    exact hother.elim (absurd hname) (absurd hindex)

/-- The two queues of a worker, with consumers that were given the same identifier. -/
theorem lists_apart_sameIdentifier :
    let events : List (String × Event) := [("code-execution-request", .publish "a"),
      ("code-execution-response", .publish "b"), ("code-execution-request", .join ⟨1⟩ 2),
      ("code-execution-response", .join ⟨1⟩ 2)]
    let requests := (Queues.run events).network "code-execution-request"
    let responses := (Queues.run events).network "code-execution-response"
    (∃ c ∈ requests.consumers, ∃ c' ∈ responses.consumers, c.processing ≠ c'.processing) ∧
    (∀ key, IsListOf "code-execution-request" key → ¬IsListOf "code-execution-response" key) ∧
    requests.Alike "code-execution-request"
      (Network.run "code-execution-request" [.publish "a", .join ⟨1⟩ 2]) := by
  intro events requests responses
  obtain ⟨-, -, -, -, hkeys, hruns⟩ :=
    lists_apart "code-execution-request" "code-execution-response" ⟨1⟩ ⟨1⟩
  obtain ⟨hown, halike⟩ := hruns events
  refine ⟨⟨_, List.mem_singleton.mpr rfl, _, List.mem_singleton.mpr rfl, ?_⟩, ?_, ?_⟩
  · exact hown 0 0 _ _ rfl rfl (.inl (by decide))
  · exact hkeys (by decide) (by decide) (by decide)
  · exact halike (by decide) (by decide)

-- A name with a colon can be what another queue makes of its own: here its dead letters.
example : ((Queues.run [("jobs:dead", .publish "a")]).network "jobs").broker.list
    (deadLetterKey "jobs") = ["a"] := by
  decide +kernel

end SandboxWorker.Queue
