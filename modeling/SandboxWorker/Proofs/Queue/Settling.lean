import SandboxWorker.Proofs.Queue.Ledger
/-! What settling does. A tag is the only identity of a delivery, and the broker knows messages by
their content alone; still no tag is settled twice, and settling one delivery leaves every other one
as it is, also where several have the same content. -/
namespace SandboxWorker.Queue

namespace Consumer
variable {c c' : Consumer} {b : Broker} {d e : Delivery} {how : Settlement} {tag : Nat}

/-- What settling a delivery does to the lists: one copy of its message, the leftmost, leaves the
processing list for where it is sent, and nothing else changes. -/
structure Disposed (c : Consumer) (d : Delivery) (how : Settlement) (b b' : Broker) : Prop where
  present : d.content ∈ b.list c.processing
  processing : b'.list c.processing = (b.list c.processing).erase d.content
  queue : b'.list c.queue = b.list c.queue ++ if how = .requeue then [d.content] else []
  deadLetter : b'.list c.deadLetter =
    (if how = .bury then [d.content] else []) ++ b.list c.deadLetter
  elsewhere : ∀ key, key ≠ c.queue → key ≠ c.processing → key ≠ c.deadLetter →
    b'.list key = b.list key

theorem effect_disposed (separate : c.Separate) (present : d.content ∈ b.list c.processing) :
    c.Disposed d how b (c.effect d how b) := by
  have hqueue := separate.queue_processing
  have hdead := separate.processing_deadLetter.symm
  have hboth := separate.queue_deadLetter
  refine ⟨present, effect_processing separate d how b, ?_, ?_, fun key => effect_elsewhere d how b⟩
  · cases how with
    | acknowledge => simp [effect, Broker.settle, Broker.list_modify_of_ne, hqueue]
    | requeue => simp [Exchange.effect_requeue separate]
    | bury => simp [effect_queue separate]
  · cases how with
    | acknowledge => simp [effect, Broker.settle, Broker.list_modify_of_ne, hdead]
    | requeue =>
      simp [effect, Broker.restore, Broker.settle, Broker.list_modify_of_ne, hdead, hboth.symm]
    | bury =>
      simp [effect, Broker.bury, Broker.publish, Broker.settle, Broker.list_modify_of_ne, hdead]

theorem Holds.mem_of_inFlight (holds : c.Holds b) (hd : d ∈ c.inFlight) :
    d.content ∈ b.list c.processing := by
  rw [← List.count_pos_iff]
  refine Nat.lt_of_lt_of_le ?_ (holds d.content)
  rw [List.count_pos_iff, outstanding]
  exact List.mem_append_left _ (List.mem_append_right _ (List.mem_map_of_mem hd))

theorem Holds.mem_of_settling (holds : c.Holds b) (hd : (d, how) ∈ c.settling) :
    d.content ∈ b.list c.processing := by
  rw [← List.count_pos_iff]
  refine Nat.lt_of_lt_of_le ?_ (holds d.content)
  rw [List.count_pos_iff, outstanding]
  exact List.mem_append_right _ (List.mem_map.mpr ⟨_, hd, rfl⟩)

theorem take?_eq_some (h : c.take? tag how = some (d, c')) :
    d ∈ c.inFlight ∧ d.tag = tag ∧ c' = c.taken d how := by
  obtain ⟨found, hfound, heq⟩ := Option.map_eq_some_iff.mp h
  cases heq
  have htag := List.find?_some hfound
  exact ⟨List.mem_of_find?_eq_some hfound, of_decide_eq_true htag, rfl⟩

end Consumer

open Network

theorem Network.step_tell {name : String} {events : List Event} {index : Nat} {c : Consumer}
    (hc : (run name events).consumers[index]? = some c) {d : Delivery} {how : Settlement}
    (hd : (d, how) ∈ c.settling) :
    let n := run name events
    let told := n.step name (.act index (.tell d how))
    told.consumers[index]? = some (c.settled d how) ∧ c.Disposed d how n.broker told.broker ∧
      (c.settled d how).Holds told.broker := by
  intro n told
  have conserved := run_conserved name events
  have hmem := List.mem_of_getElem? hc
  have hlt := (List.getElem?_eq_some_iff.mp hc).1
  have hact : c.act? n.broker (.tell d how) = some (c.settled d how, c.effect d how n.broker) :=
    if_pos hd
  have htold : told = ⟨c.effect d how n.broker, n.consumers.set index (c.settled d how),
      n.published, (Action.tell d how).acknowledged ++ n.acknowledged⟩ := by
    simp only [told, step, n, hc, hact]
  have hconsumer : told.consumers[index]? = some (c.settled d how) := by
    rw [htold]
    exact List.getElem?_set_self hlt
  refine ⟨hconsumer, ?_, (step_conserved conserved _).holds _ (List.mem_of_getElem? hconsumer)⟩
  rw [htold]
  exact Consumer.effect_disposed (conserved.serves c hmem).separate
    ((conserved.holds c hmem).mem_of_settling hd)

theorem Shows.settled {name : String} {events : List Event} {x : Exchange} {id index : Nat}
    {c : Consumer} (h : Shows x id (run name events) index c)
    (works : ∀ call, x.failures call = 0) (tag : Nat) (how : Settlement) :
    (¬ c.Outstanding tag ∧ x.settleDelivery id tag how = (.error (.unknownDelivery tag), x)) ∨
    ∃ d ∈ c.inFlight, d.tag = tag ∧ ∃ x', x.settleDelivery id tag how = (.ok (), x') ∧
      c.Disposed d how x.broker x'.broker ∧
      Shows x' id (run name (events ++ [.act index (.take tag how), .act index (.tell d how)]))
        index (c.presented d how) := by
  by_cases hknown : c.Outstanding tag
  · right
    obtain ⟨d, hd, rfl⟩ := hknown
    have tagged := run_tagged h.present
    have hmem := List.mem_of_getElem? h.present
    have conserved := run_conserved name events
    obtain ⟨x', hconsumer, hsettle⟩ := Exchange.settleDelivery_of_mem h.shown tagged hd how
    rw [if_pos (works how.call)] at hsettle
    have hacts := (Consumer.actAll?_presented tagged hd how x.broker).1
    refine ⟨d, hd, rfl, x', hsettle.1, ?_, h.after (hacts.trans (by rw [hsettle.2])) hconsumer⟩
    rw [hsettle.2, h.broker]
    exact Consumer.effect_disposed (conserved.serves c hmem).separate
      ((conserved.holds c hmem).mem_of_inFlight hd)
  · exact .inl ⟨hknown, Exchange.settleDelivery_of_not_outstanding h.shown hknown how⟩

/-- Along every run, whoever else is at work. The deliveries that a consumer hands out are numbered
by their tags, from one on, as their messages were claimed. No tag is taken twice. A tag that is not
outstanding changes nothing; one that is takes its own delivery out of flight and no other. When the
broker is told of it, one copy of the message leaves the processing list, and each delivery still
worked on has a copy left there. An acknowledgement or a rejection is these two steps, or is
answered that the delivery is unknown. -/
theorem tags_settled_once (name : String) (events : List Event) (index : Nat) (c : Consumer)
    (hc : (run name events).consumers[index]? = some c) :
    let n := run name events
    let l := ledger name index events
    (∀ k d, l.handed[k]? = some d → d.tag = k + 1 ∧ l.claimed[k]? = some d.content) ∧
    (l.taken.map (·.tag)).Nodup ∧
    (∀ tag how, c.take? tag how = none → n.step name (.act index (.take tag how)) = n) ∧
    (∀ tag how d c', c.take? tag how = some (d, c') → d ∈ c.inFlight ∧ d.tag = tag ∧
      c' = c.taken d how ∧ ∀ e ∈ c.inFlight, e ∈ c'.inFlight ↔ e.tag ≠ tag) ∧
    (∀ d how, (d, how) ∈ c.settling →
      let told := n.step name (.act index (.tell d how))
      told.consumers[index]? = some (c.settled d how) ∧ c.Disposed d how n.broker told.broker ∧
        (c.settled d how).Holds told.broker) ∧
    ∀ x id, Shows x id n index c → (∀ call, x.failures call = 0) → ∀ tag how,
      (¬ c.Outstanding tag ∧ x.settleDelivery id tag how = (.error (.unknownDelivery tag), x)) ∨
      ∃ d ∈ c.inFlight, d.tag = tag ∧ ∃ x', x.settleDelivery id tag how = (.ok (), x') ∧
        c.Disposed d how x.broker x'.broker ∧
        Shows x' id (run name (events ++ [.act index (.take tag how), .act index (.tell d how)]))
          index (c.presented d how) := by
  intro n l
  have accounts := run_accounts hc
  have tagged := run_tagged hc
  refine ⟨fun k d => accounts.getElem?_handed, accounts.nodup_taken, fun tag how hnone => ?_,
    fun tag how d c' htake => ?_, fun d how hd => step_tell hc hd,
    fun x id shows works => shows.settled works⟩
  · have hact : c.act? n.broker (.take tag how) = none := by rw [Consumer.act?, hnone]; rfl
    simp only [step, n, hc, hact]
  · obtain ⟨hd, rfl, rfl⟩ := Consumer.take?_eq_some htake
    exact ⟨hd, rfl, rfl, fun e he => tagged.mem_erase hd he⟩

def alike : List Event :=
  [.publish "a", .publish "a", .join ⟨1⟩ 2,
    .act 0 .acquire, .act 0 .reserve, .act 0 .claim, .act 0 .register,
    .act 0 .acquire, .act 0 .reserve, .act 0 .claim, .act 0 .register,
    .act 0 .receive, .act 0 .receive, .act 0 (.take 1 .acknowledge)]

def alikeConsumer : Consumer :=
  { Consumer.start (waitingKey "r") (processingKey "r" ⟨1⟩) (deadLetterKey "r") 2 with
    free := 0
    lastTag := 2
    inFlight := [⟨2, "a"⟩]
    settling := [(⟨1, "a"⟩, .acknowledge)] }

/-- When the broker is told of the first one, the copy of the second one stays, which can be settled
then; the tag of the first one is unknown. -/
theorem tags_settled_once_alike :
    let n := run "r" alike
    let told := n.step "r" (.act 0 (.tell ⟨1, "a"⟩ .acknowledge))
    let x := { Exchange.empty with broker := n.broker, consumers := [(0, alikeConsumer)] }
    (ledger "r" 0 alike).handed = [⟨1, "a"⟩, ⟨2, "a"⟩] ∧
    n.broker.list (processingKey "r" ⟨1⟩) = ["a", "a"] ∧
    told.broker.list (processingKey "r" ⟨1⟩) = ["a"] ∧
    n.step "r" (.act 0 (.take 1 .bury)) = n ∧
    (∀ c', alikeConsumer.take? 2 .requeue = some (⟨2, "a"⟩, c') → ⟨2, "a"⟩ ∉ c'.inFlight) ∧
    ∃ x', x.settleDelivery 0 2 .requeue = (.ok (), x') ∧
      x'.broker.list (waitingKey "r") = ["a"] := by
  intro n told x
  have hc : n.consumers[0]? = some alikeConsumer := by decide +kernel
  have hlist : n.broker.list alikeConsumer.processing = ["a", "a"] := by decide +kernel
  have hwaiting : n.broker.list alikeConsumer.queue = [] := by decide +kernel
  obtain ⟨-, -, hunknown, htake, htell, hsettle⟩ := tags_settled_once "r" alike 0 alikeConsumer hc
  obtain ⟨-, htold, -⟩ := htell ⟨1, "a"⟩ .acknowledge (List.mem_singleton_self _)
  refine ⟨by decide +kernel, hlist, ?_, hunknown 1 .bury rfl, fun c' hc' hmem => ?_, ?_⟩
  · have hafter := htold.processing
    rw [hlist] at hafter
    exact hafter
  · obtain ⟨hd, -, -, hothers⟩ := htake 2 .requeue ⟨2, "a"⟩ c' hc'
    exact (hothers _ hd).mp hmem rfl
  · rcases hsettle x 0 ⟨rfl, hc, rfl⟩ (fun _ => rfl) 2 .requeue with ⟨hnot, -⟩ | hsettled
    · exact absurd ⟨_, List.mem_singleton_self _, rfl⟩ hnot
    · obtain ⟨d, hd, -, x', hanswer, hdisposed, -⟩ := hsettled
      obtain rfl := List.mem_singleton.mp hd
      refine ⟨x', hanswer, ?_⟩
      have hqueue := hdisposed.queue
      rw [show x.broker = n.broker from rfl, hwaiting] at hqueue
      exact hqueue

end SandboxWorker.Queue
