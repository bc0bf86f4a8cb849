import Mathlib.Data.List.Induction
import SandboxWorker.Proofs.Queue.Network
/-! What a step of a consumer can do, and what an event does to one of the consumers. Proofs about
consumers go by these cases. -/
namespace SandboxWorker.Queue

namespace Consumer

/-- What each step needs, and what it leaves. -/
inductive Turn (c : Consumer) (b : Broker) : Action → Consumer → Broker → Prop where
  | acquire (waits : c.pump = .acquiring) (free : 0 < c.free) :
    Turn c b .acquire { c with pump := .reserving, free := c.free - 1 } b
  | reserve (waits : c.pump = .reserving) (room : c.buffer.length < c.window) :
    Turn c b .reserve { c with pump := .claiming } b
  | claim {payload : String} {front : List String} (waits : c.pump = .claiming)
    (last : b.list c.queue = front ++ [payload]) :
    Turn c b .claim { c with pump := .holding payload }
      ((b.modify c.queue List.dropLast).modify c.processing (payload :: ·))
  | register {payload : String} (holds : c.pump = .holding payload) :
    Turn c b .register
      { c with
        pump := .acquiring
        lastTag := c.lastTag + 1
        inFlight := c.inFlight ++ [⟨c.lastTag + 1, payload⟩]
        buffer := c.buffer ++ [⟨c.lastTag + 1, payload⟩] } b
  | receive {d : Delivery} {rest : List Delivery} (first : c.buffer = d :: rest) :
    Turn c b .receive { c with buffer := rest } b
  | take {d : Delivery} (how : Settlement) (outstanding : d ∈ c.inFlight) :
    Turn c b (.take d.tag how)
      { c with inFlight := c.inFlight.erase d, settling := c.settling ++ [(d, how)] } b
  | tell {d : Delivery} {how : Settlement} (taken : (d, how) ∈ c.settling) :
    Turn c b (.tell d how) (c.settled d how) (c.effect d how b)
  | abandon {d : Delivery} {how : Settlement} (taken : (d, how) ∈ c.settling) :
    Turn c b (.abandon d how) (c.settled d how) b
  | halt : Turn c b .halt c.stop b

variable {c c' : Consumer} {b b' : Broker}

theorem act?_turn {action : Action} (h : c.act? b action = some (c', b')) :
    Turn c b action c' b' := by
  cases action with
  | acquire =>
    obtain ⟨_, hact, heq⟩ := Option.map_eq_some_iff.mp h
    obtain ⟨⟨waits, free⟩, hafter⟩ := Option.ite_none_right_eq_some.mp hact
    cases hafter
    cases heq
    exact .acquire waits free
  | reserve =>
    obtain ⟨_, hact, heq⟩ := Option.map_eq_some_iff.mp h
    obtain ⟨⟨waits, room⟩, hafter⟩ := Option.ite_none_right_eq_some.mp hact
    cases hafter
    cases heq
    exact .reserve waits room
  | claim =>
    obtain ⟨waits, hclaim⟩ := Option.ite_none_right_eq_some.mp h
    obtain ⟨⟨payload, claimed⟩, hclaim, heq⟩ := Option.map_eq_some_iff.mp hclaim
    obtain ⟨last, hlast, hmoved⟩ := Option.map_eq_some_iff.mp hclaim
    obtain ⟨front, hfront⟩ := List.getLast?_eq_some_iff.mp hlast
    cases hmoved
    cases heq
    exact .claim waits hfront
  | register =>
    obtain ⟨_, hact, heq⟩ := Option.map_eq_some_iff.mp h
    unfold register? at hact
    split at hact
    · rename_i holds
      cases hact
      cases heq
      exact .register holds
    · cases hact
  | receive =>
    obtain ⟨_, hact, heq⟩ := Option.map_eq_some_iff.mp h
    unfold receive? at hact
    split at hact
    · rename_i first
      cases hact
      cases heq
      exact .receive first
    · cases hact
  | take tag how =>
    obtain ⟨_, hact, heq⟩ := Option.map_eq_some_iff.mp h
    obtain ⟨d, hfound, hd⟩ := Option.map_eq_some_iff.mp hact
    have hsome := List.find?_some hfound
    have htag : d.tag = tag := of_decide_eq_true hsome
    cases hd
    cases heq
    rw [← htag]
    exact .take how (List.mem_of_find?_eq_some hfound)
  | tell d how =>
    obtain ⟨taken, heq⟩ := Option.ite_none_right_eq_some.mp h
    cases heq
    exact .tell taken
  | abandon d how =>
    obtain ⟨taken, heq⟩ := Option.ite_none_right_eq_some.mp h
    cases heq
    exact .abandon taken
  | halt =>
    cases h
    exact .halt

end Consumer

namespace Network
variable {name : String} {n : Network} {index : Nat} {c : Consumer}

/-- Where a consumer comes from that is there after an event: it was there, it has just begun, or
the event is a step of it. -/
inductive Came (name : String) (n : Network) (index : Nat) (c : Consumer) : Event → Prop where
  | stayed (event : Event) (was : n.consumers[index]? = some c) : Came name n index c event
  | joined (id : Uuid) (prefetch : Nat)
    (began : c = .start (waitingKey name) (processingKey name id) (deadLetterKey name) prefetch) :
    Came name n index c (.join id prefetch)
  | acted {old : Consumer} {action : Action} {b : Broker} (was : n.consumers[index]? = some old)
    (turn : old.Turn n.broker action c b) : Came name n index c (.act index action)

theorem step_came {event : Event} (h : (n.step name event).consumers[index]? = some c) :
    Came name n index c event := by
  cases event with
  | publish payload => exact .stayed _ h
  | join id prefetch =>
    rw [step] at h
    split at h
    · exact .stayed _ h
    · rcases Nat.lt_or_ge index n.consumers.length with hlt | hge
      · rw [List.getElem?_append_left hlt] at h
        exact .stayed _ h
      · rw [List.getElem?_append_right hge, List.getElem?_singleton] at h
        exact .joined id prefetch (Option.some.inj (Option.ite_none_right_eq_some.mp h).2).symm
  | act i action =>
    rw [step] at h
    split at h
    · exact .stayed _ h
    · rename_i old hold
      split at h
      · exact .stayed _ h
      · rename_i c' b' hact
        rw [List.getElem?_set] at h
        split at h
        · rename_i heq
          subst heq
          cases (Option.ite_none_right_eq_some.mp h).2
          exact .acted hold (Consumer.act?_turn hact)
        · exact .stayed _ h

theorem getElem?_step_of_ne {i : Nat} (h : i ≠ index) (action : Action) :
    (n.step name (.act i action)).consumers[index]? = n.consumers[index]? := by
  rw [step]
  split
  · rfl
  · split
    · rfl
    · rw [List.getElem?_set_ne h]

/-- Consumers do not go away. An event is a step of a consumer, or leaves it as it is. -/
theorem step_consumer (name : String) (hc : n.consumers[index]? = some c) (event : Event) :
    ((n.step name event).consumers[index]? = some c ∧
      ∀ action, event = .act index action → c.act? n.broker action = none) ∨
    ∃ action c' b', event = .act index action ∧ c.act? n.broker action = some (c', b') ∧
      (n.step name event).consumers[index]? = some c' ∧ (n.step name event).broker = b' := by
  have hlt := (List.getElem?_eq_some_iff.mp hc).1
  cases event with
  | publish payload => exact .inl ⟨hc, nofun⟩
  | join id prefetch =>
    refine .inl ⟨?_, nofun⟩
    rw [step]
    split
    · exact hc
    · rw [List.getElem?_append_left hlt]
      exact hc
  | act i action =>
    by_cases hi : i = index
    · subst hi
      cases hact : c.act? n.broker action with
      | none =>
        have hsame : n.step name (.act i action) = n := by simp only [step, hc, hact]
        refine .inl ⟨by rw [hsame, hc], ?_⟩
        rintro _ ⟨⟩
        exact hact
      | some after =>
        obtain ⟨c', b'⟩ := after
        have hstep : n.step name (.act i action) =
            ⟨b', n.consumers.set i c', n.published, action.acknowledged ++ n.acknowledged⟩ := by
          simp only [step, hc, hact]
        refine .inr ⟨action, c', b', rfl, hact, ?_, by rw [hstep]⟩
        rw [hstep]
        exact List.getElem?_set_self hlt
    · refine .inl ⟨by rw [getElem?_step_of_ne hi, hc], ?_⟩
      rintro _ ⟨⟩
      exact absurd rfl hi

/-- What holds of a consumer when it begins, and after each of its steps, holds of every one. -/
theorem run_consumer {P : List Event → Nat → Consumer → Prop}
    (stays : ∀ events event index c, P events index c → P (events ++ [event]) index c)
    (begins : ∀ events index id prefetch, P (events ++ [.join id prefetch]) index
      (.start (waitingKey name) (processingKey name id) (deadLetterKey name) prefetch))
    (acts : ∀ events index action c c' b, (run name events).consumers[index]? = some c →
      c.Turn (run name events).broker action c' b → P events index c →
      P (events ++ [.act index action]) index c')
    (events : List Event) (index : Nat) (c : Consumer)
    (h : (run name events).consumers[index]? = some c) : P events index c := by
  -- From the last event back: a consumer acts on what the events before it made of the network.
  induction events using List.reverseRecOn generalizing c with
  | nil => cases h
  | append_singleton events event ih =>
    rw [run, List.foldl_append] at h
    cases step_came h with
    | stayed event was => exact stays events event index c (ih c was)
    | joined id prefetch began =>
      rw [began]
      exact begins events index id prefetch
    | acted was turn => exact acts events index _ _ c _ was turn (ih _ was)

end Network
end SandboxWorker.Queue
