import SandboxWorker.Proofs.Queue.Closing
/-! What a failing broker does to deliveries. A delivery is taken out of flight before the broker is
told of it, whatever the broker answers then; and what a closing consumer fails to give back, it
does not give back later. -/
namespace SandboxWorker.Queue

open Network

theorem run_append (name : String) (events more : List Event) :
    run name (events ++ more) = more.foldl (step name) (run name events) := List.foldl_append ..

theorem run_outstanding {name : String} {events : List Event} {index : Nat} {c : Consumer}
    (hc : (run name events).consumers[index]? = some c) {d : Delivery} (hd : d ∈ c.inFlight)
    (more : List Event) : ∃ c', (run name (events ++ more)).consumers[index]? = some c' ∧
      ∀ how, (c'.take? d.tag how).isSome = true ↔
        ∀ how', .act index (.take d.tag how') ∉ more := by
  have tagged := run_tagged hc
  obtain ⟨c', hc', houtstanding⟩ := foldl_outstanding hc tagged (tagged.tag_le d hd) more
  rw [run_append]
  refine ⟨c', hc', fun how => ?_⟩
  rw [Consumer.isSome_take?, houtstanding]
  exact and_iff_right ⟨d, hd, rfl⟩

theorem run_closing {name : String} {events : List Event} {index : Nat} {c : Consumer}
    (hc : (run name events).consumers[index]? = some c) (obeyed : Nat) :
    let closed := run name (events ++ (c.closing obeyed).map (.act index))
    ∃ c', closed.consumers[index]? = some c' ∧
      closed.broker.list (waitingKey name) = (run name events).broker.list (waitingKey name) ++
        (c.unreceived.take obeyed).map (·.content) ∧
      c'.unreceived = c.unreceived.drop (obeyed + 1) ∧
      ∀ d, d ∈ c'.inFlight ↔ d ∈ c.inFlight ∧ d ∉ c.unreceived.take (obeyed + 1) := by
  have hserves := (run_conserved name events).serves c (List.mem_of_getElem? hc)
  obtain ⟨c', b', hacts, hreturned, hunreceived, hinFlight, -, -⟩ :=
    Consumer.actAll?_closing (run_tagged hc) hserves.separate (run name events).broker obeyed
  obtain ⟨hpresent, hbroker⟩ := foldl_actAll name hc hacts
  rw [hserves.queue] at hreturned
  rw [run_append]
  exact ⟨c', hpresent, by rw [hbroker, hreturned], hunreceived, hinFlight⟩

/-- An exchange one of whose consumers, with the broker, is where a run has brought them. -/
structure Shows (x : Exchange) (id : Nat) (n : Network) (index : Nat) (c : Consumer) : Prop where
  shown : x.consumer? id = some c
  present : n.consumers[index]? = some c
  broker : x.broker = n.broker

section Shows
variable {name : String} {events : List Event} {x x' : Exchange} {id index : Nat} {c c' : Consumer}

theorem Shows.after (h : Shows x id (run name events) index c) {actions : List Action}
    (hacts : c.actAll? x.broker actions = some (c', x'.broker))
    (hconsumer : x'.consumer? id = some c') :
    Shows x' id (run name (events ++ actions.map (.act index))) index c' := by
  rw [h.broker] at hacts
  obtain ⟨hpresent, hbroker⟩ := foldl_actAll name h.present hacts
  rw [run_append]
  exact ⟨hconsumer, hpresent, hbroker.symm⟩

theorem Shows.failed (h : Shows x id (run name events) index c) {tag : Nat} {how : Settlement}
    {text : String} (hfailed : x.settleDelivery id tag how = (.error (.broker text), x')) :
    x'.broker = x.broker ∧ ∃ d ∈ c.inFlight, d.tag = tag ∧ Shows x' id
      (run name (events ++ [.act index (.take tag how), .act index (.abandon d how)])) index
      (c.presented d how) := by
  by_cases hknown : c.Outstanding tag
  · obtain ⟨d, hd, rfl⟩ := hknown
    have tagged := run_tagged h.present
    obtain ⟨y, hconsumer, hsettle⟩ := Exchange.settleDelivery_of_mem h.shown tagged hd how
    by_cases works : x.failures how.call = 0
    · rw [if_pos works, hfailed] at hsettle
      cases hsettle.1
    · rw [if_neg works, hfailed] at hsettle
      obtain ⟨hsame, hbroker⟩ := hsettle
      cases hsame
      have hacts := (Consumer.actAll?_presented tagged hd how x.broker).2
      exact ⟨hbroker, d, hd, rfl, h.after (hacts.trans (by rw [hbroker])) hconsumer⟩
  · rw [Exchange.settleDelivery_of_not_outstanding h.shown hknown] at hfailed
    cases hfailed

end Shows

/-- Along every run of a queue, whatever the broker fails at. A delivery is outstanding until it is
first presented, by whomever, and never after. So once a settlement has failed, which leaves all
lists as they are, its tag is unknown for good. A consumer that closes gives back what it did not
hand out and has in flight, up to the first failure; the delivery at which it fails is not among
those that it can still give back. -/
theorem failures_are_final (name : String) (events : List Event) (x : Exchange) (id index : Nat)
    (c : Consumer) (h : Shows x id (run name events) index c) :
    (∀ d ∈ c.inFlight, ∀ more, ∃ c', (run name (events ++ more)).consumers[index]? = some c' ∧
      ∀ how, (c'.take? d.tag how).isSome = true ↔
        ∀ how', .act index (.take d.tag how') ∉ more) ∧
    (∀ tag how text x', x.settleDelivery id tag how = (.error (.broker text), x') →
      x'.broker = x.broker ∧
      (∀ how', x'.settleDelivery id tag how' = (.error (.unknownDelivery tag), x')) ∧
      ∃ d ∈ c.inFlight, d.tag = tag ∧
        let failed := events ++ [.act index (.take tag how), .act index (.abandon d how)]
        (∃ c', Shows x' id (run name failed) index c') ∧
        ∀ more, ∃ c', (run name (failed ++ more)).consumers[index]? = some c' ∧
          ∀ how', c'.take? tag how' = none) ∧
    (∀ obeyed,
      let closed := run name (events ++ (c.closing obeyed).map (.act index))
      ∃ c', closed.consumers[index]? = some c' ∧
        closed.broker.list (waitingKey name) = (run name events).broker.list (waitingKey name) ++
          (c.unreceived.take obeyed).map (·.content) ∧
        c'.unreceived = c.unreceived.drop (obeyed + 1) ∧
        ∀ d, d ∈ c'.inFlight ↔ d ∈ c.inFlight ∧ d ∉ c.unreceived.take (obeyed + 1)) ∧
    ∃ obeyed x' c', x.close id =
        (if c.unreceived.length ≤ obeyed then .ok () else .error Exchange.outage, x') ∧
      Shows x' id (run name (events ++ (c.closing obeyed).map (.act index))) index c' := by
  have tagged := run_tagged h.present
  refine ⟨fun d hd => run_outstanding h.present hd, fun tag how text x' hfailed => ?_,
    run_closing h.present, ?_⟩
  · obtain ⟨hbroker, d, hd, rfl, hafter⟩ := h.failed hfailed
    have hgone := Consumer.not_outstanding_presented tagged hd how
    refine ⟨hbroker, Exchange.settleDelivery_of_not_outstanding hafter.shown hgone, d, hd, rfl,
      ⟨_, hafter⟩, fun more => ?_⟩
    rw [List.append_assoc]
    obtain ⟨c', hc', hiff⟩ := run_outstanding h.present hd _
    refine ⟨c', hc', fun how' => ?_⟩
    rw [← Option.not_isSome_iff_eq_none, hiff]
    exact fun hnever => hnever how (by simp)
  · obtain ⟨obeyed, hobeyed⟩ := x.exists_obeyed c.unreceived.length
    obtain ⟨x', c', hconsumer, hclose, hacts⟩ := Exchange.close_steps h.shown tagged hobeyed
    exact ⟨obeyed, x', c', hclose, h.after hacts hconsumer⟩

def handedOut : List Event := claimedAhead ++ [.act 0 .receive]

def handedConsumer : Consumer := { aheadConsumer with buffer := [⟨2, "2"⟩] }

/-- The broker fails once at the message that was handed out; it can also fail at the one in the
buffer. Neither can be settled after. -/
theorem failures_are_final_handedOut :
    let x := { Exchange.empty with
      broker := (run "r" handedOut).broker, consumers := [(0, handedConsumer)],
      failures := fun call => if call = .settle then 1 else 0 }
    Shows x 0 (run "r" handedOut) 0 handedConsumer ∧
    (∃ x', x.settleDelivery 0 1 .acknowledge = (.error Exchange.outage, x') ∧
      x'.settleDelivery 0 1 .acknowledge = (.error (.unknownDelivery 1), x')) ∧
    ∃ c', (run "r" (handedOut ++ (handedConsumer.closing 0).map (.act 0))).consumers[0]? =
        some c' ∧ c'.unreceived = [] := by
  intro x
  have hpresent : (run "r" handedOut).consumers[0]? = some handedConsumer := by decide +kernel
  have hshows : Shows x 0 (run "r" handedOut) 0 handedConsumer := ⟨rfl, hpresent, rfl⟩
  obtain ⟨-, hsettle, hclose, -⟩ := failures_are_final "r" handedOut x 0 0 handedConsumer hshows
  obtain ⟨x', -, hfailed⟩ := Exchange.settleDelivery_of_mem hshows.shown (run_tagged hpresent)
    (d := ⟨1, "1"⟩) List.mem_cons_self .acknowledge
  rw [if_neg (by decide)] at hfailed
  obtain ⟨-, hunknown, -⟩ := hsettle 1 .acknowledge _ x' hfailed.1
  obtain ⟨c', hc', -, hunreceived, -⟩ := hclose 0
  exact ⟨hshows, ⟨x', hfailed.1, hunknown .acknowledge⟩, c', hc', hunreceived⟩

end SandboxWorker.Queue
