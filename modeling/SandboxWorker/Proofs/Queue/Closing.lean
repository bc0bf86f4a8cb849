import SandboxWorker.Proofs.Queue.Draining
import SandboxWorker.Proofs.Queue.Order
/-! What closing a consumer gives back. The buffer is emptied oldest first, and each message goes to
where it is claimed next, so the last one given back comes first: messages that were claimed ahead
change their order unless it is the same both ways. -/
namespace SandboxWorker.Queue

namespace Exchange
variable {x : Exchange} {id : Nat} {c : Consumer}

theorem close_restores (h : x.consumer? id = some c) (works : x.failures .restore = 0)
    (separate : c.Separate) (tagged : c.Tagged) (tidy : c.Tidy) :
    ∃ x', x.close id = (.ok (), x') ∧
      x'.broker.list c.queue = x.broker.list c.queue ++ c.buffer.map (·.content) := by
  have hall : c.unreceived = c.buffer :=
    List.filter_eq_self.mpr fun d hd => decide_eq_true (tidy.buffered.subset hd)
  obtain ⟨x', c', -, hclose, hacts⟩ := close_of_works h tagged works
  obtain ⟨_, _, hdrained, drained⟩ :=
    Consumer.actAll?_closing tagged separate x.broker c.unreceived.length
  obtain ⟨-, rfl⟩ := Prod.mk.inj (Option.some.inj (hdrained.symm.trans hacts))
  refine ⟨x', hclose, ?_⟩
  rw [drained.returned, List.take_length, hall]

end Exchange

open Network

/-- Along every run of a queue with one consumer, what was not received stands in line behind what
was. Closing the consumer puts what lies in its buffer to the right of what waits, oldest first.
This is the list that would be there had nothing been claimed ahead just if the pump holds no message
and the buffered ones read the same both ways. Whoever consumes the queue next is handed them from the
last one back, and can receive them all. -/
theorem close_reverses (name : String) (events : List Event)
    (hsolo : isSolo name .empty events = true) (c : Consumer)
    (hc : (run name events).consumers = [c]) (x : Exchange) (id : Nat)
    (hbroker : x.broker = (run name events).broker) (hconsumer : x.consumer? id = some c)
    (hworks : x.failures .restore = 0) :
    let buffered := c.buffer.map (·.content)
    let waiting := (run name events).broker.list (waitingKey name)
    let unreceived := buffered ++ c.pump.held ++ waiting.reverse
    publications events = received name .empty events ++ unreceived ∧
    ∃ x', x.close id = (.ok (), x') ∧
      x'.broker.list (waitingKey name) = waiting ++ buffered ∧
      (x'.broker.list (waitingKey name) = unreceived.reverse ↔
        c.pump.held = [] ∧ buffered.reverse = buffered) ∧
      (∀ more, isSolo name (quiet x'.broker) more = true →
        received name (quiet x'.broker) more ++
            (more.foldl (step name) (quiet x'.broker)).line name =
          buffered.reverse ++ waiting.reverse ++ publications more) ∧
      ∀ next prefetch, ∃ more,
        isSolo name (quiet x'.broker) (.join next prefetch :: more) = true ∧
        received name (quiet x'.broker) (.join next prefetch :: more) =
          buffered.reverse ++ waiting.reverse := by
  intro buffered waiting unreceived
  obtain ⟨hafter, hrun⟩ := run_line events (quiet_solo .empty) hsolo
  change (run name events).Solo name at hafter
  have hmem : c ∈ (run name events).consumers := by rw [hc]; exact List.mem_singleton_self c
  have hserves := hafter.serves c hmem
  have tagged := run_tagged (show (run name events).consumers[0]? = some c by rw [hc]; rfl)
  obtain ⟨x', hclose, hlist⟩ :=
    Exchange.close_restores hconsumer hworks hserves.separate tagged (hafter.tidy c hmem)
  rw [hserves.queue, hbroker] at hlist
  change x'.broker.list (waitingKey name) = waiting ++ buffered at hlist
  refine ⟨?_, x', hclose, hlist, ?_, fun more hmore => ?_, fun next prefetch => ?_⟩
  · have hline : (run name events).line name = unreceived := by
      rw [line, hc, List.flatMap_singleton]
      rfl
    rw [line_quiet] at hrun
    rw [← hline]
    exact hrun
  · simp only [hlist, unreceived, List.reverse_append, List.reverse_reverse,
      List.append_cancel_left_eq]
    constructor
    · intro h
      have hlength := congrArg List.length h
      have hheld : c.pump.held = [] := by
        simpa using hlength
      exact ⟨hheld, by simpa [hheld] using h.symm⟩
    · rintro ⟨hheld, hsame⟩
      rw [hheld, hsame]
      rfl
  · have hquiet : (quiet x'.broker).Solo name := quiet_solo x'.broker
    have hnext := (run_line more hquiet hmore).2
    rw [← hnext, line_quiet, hlist, List.reverse_append]
  · rw [← List.reverse_append, ← hlist]
    exact exists_received x'.broker next prefetch

def claimedAhead : List Event :=
  [.publish "1", .publish "2", .join ⟨1⟩ 2,
    .act 0 .acquire, .act 0 .reserve, .act 0 .claim, .act 0 .register,
    .act 0 .acquire, .act 0 .reserve, .act 0 .claim, .act 0 .register]

def aheadConsumer : Consumer :=
  { Consumer.start (waitingKey "r") (processingKey "r" ⟨1⟩) (deadLetterKey "r") 2 with
    free := 0
    lastTag := 2
    inFlight := [⟨1, "1"⟩, ⟨2, "2"⟩]
    buffer := [⟨1, "1"⟩, ⟨2, "2"⟩] }

/-- The queue held 2 left of 1 before they were claimed; after, it is the other way round. -/
theorem close_reverses_claimedAhead :
    let x := { Exchange.empty with
      broker := (run "r" claimedAhead).broker, consumers := [(0, aheadConsumer)] }
    publications claimedAhead = ["1", "2"] ∧ received "r" .empty claimedAhead = [] ∧
    ∃ x', x.close 0 = (.ok (), x') ∧ x'.broker.list (waitingKey "r") = ["1", "2"] ∧
      ∃ more, isSolo "r" (quiet x'.broker) (.join ⟨2⟩ 1 :: more) = true ∧
        received "r" (quiet x'.broker) (.join ⟨2⟩ 1 :: more) = ["2", "1"] := by
  intro x
  have hsolo : isSolo "r" .empty claimedAhead = true := by decide +kernel
  have hc : (run "r" claimedAhead).consumers = [aheadConsumer] := by decide +kernel
  have hwaiting : (run "r" claimedAhead).broker.list (waitingKey "r") = [] := by decide +kernel
  obtain ⟨-, x', hclose, hlist, -, -, hnext⟩ :=
    close_reverses "r" claimedAhead hsolo aheadConsumer hc x 0 rfl rfl rfl
  rw [hwaiting] at hlist hnext
  exact ⟨rfl, by decide +kernel, x', hclose, hlist, hnext ⟨2⟩ 1⟩

end SandboxWorker.Queue
