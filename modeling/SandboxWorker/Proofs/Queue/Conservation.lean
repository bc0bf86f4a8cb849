import Mathlib.Data.List.Perm.Subperm
import SandboxWorker.Proofs.Queue.Keys
import SandboxWorker.Proofs.Queue.Network
/-! No message is lost, made up or held twice, whatever publishers and consumers do and wherever
they stop. A message is dropped from a processing list by its content, not by its place; this is
right since a consumer's list always has a copy for each delivery it works on. -/
namespace SandboxWorker.Queue

namespace Consumer

/-- What a consumer works on: claimed, in flight, or about to be settled. -/
def outstanding (c : Consumer) : List String :=
  c.pump.held ++ c.inFlight.map (·.content) ++ c.settling.map (·.1.content)

/-- The processing list has a copy for each delivery that the consumer works on. -/
def Holds (c : Consumer) (b : Broker) : Prop :=
  ∀ x, c.outstanding.count x ≤ (b.list c.processing).count x

structure Separate (c : Consumer) : Prop where
  queue_processing : c.queue ≠ c.processing
  queue_deadLetter : c.queue ≠ c.deadLetter
  processing_deadLetter : c.processing ≠ c.deadLetter

theorem count_outstanding (c : Consumer) (x : String) :
    c.outstanding.count x = c.pump.held.count x + (c.inFlight.map (·.content)).count x +
      (c.settling.map (·.1.content)).count x := by
  rw [outstanding, List.count_append, List.count_append]

structure Moved (c c' : Consumer) (b b' : Broker) (gone : List String) : Prop where
  queue : c'.queue = c.queue
  processing : c'.processing = c.processing
  deadLetter : c'.deadLetter = c.deadLetter
  elsewhere : ∀ key, key ≠ c.queue → key ≠ c.processing → key ≠ c.deadLetter →
    b'.list key = b.list key
  balance : ∀ x, (b.list c.queue).count x + (b.list c.processing).count x +
      (b.list c.deadLetter).count x =
    (b'.list c.queue).count x + (b'.list c.processing).count x +
      (b'.list c.deadLetter).count x + gone.count x
  holds : c'.Holds b'

section Steps
variable {c c' : Consumer} {b b' : Broker}

theorem Moved.of_outstanding (holds : c.Holds b) (queue : c'.queue = c.queue)
    (processing : c'.processing = c.processing) (deadLetter : c'.deadLetter = c.deadLetter)
    (less : ∀ x, c'.outstanding.count x ≤ c.outstanding.count x) : Moved c c' b b [] where
  queue := queue
  processing := processing
  deadLetter := deadLetter
  elsewhere _ _ _ _ := rfl
  balance _ := rfl
  holds x := by
    rw [processing]
    exact Nat.le_trans (less x) (holds x)

theorem acquire?_moved (holds : c.Holds b) (h : c.acquire? = some c') : Moved c c' b b [] := by
  unfold acquire? at h
  split at h
  · rename_i hcan
    cases h
    refine .of_outstanding holds rfl rfl rfl fun x => ?_
    rw [count_outstanding, count_outstanding, hcan.1]
    exact Nat.le_refl _
  · cases h

theorem reserve?_moved (holds : c.Holds b) (h : c.reserve? = some c') : Moved c c' b b [] := by
  unfold reserve? at h
  split at h
  · rename_i hcan
    cases h
    refine .of_outstanding holds rfl rfl rfl fun x => ?_
    rw [count_outstanding, count_outstanding, hcan.1]
    exact Nat.le_refl _
  · cases h

theorem register?_moved (holds : c.Holds b) (h : c.register? = some c') : Moved c c' b b [] := by
  unfold register? at h
  split at h
  · rename_i payload hpump
    cases h
    refine .of_outstanding holds rfl rfl rfl fun x => ?_
    rw [count_outstanding, count_outstanding, hpump, List.map_append, List.count_append]
    simp only [Pump.held, List.map_cons, List.map_nil, List.count_nil]
    omega
  · cases h

theorem receive?_moved {d : Delivery} (holds : c.Holds b) (h : c.receive? = some (d, c')) :
    Moved c c' b b [] := by
  unfold receive? at h
  split at h
  · cases h
    exact .of_outstanding holds rfl rfl rfl fun x => Nat.le_refl _
  · cases h

theorem take?_moved {tag : Nat} {how : Settlement} {d : Delivery} (holds : c.Holds b)
    (h : c.take? tag how = some (d, c')) : Moved c c' b b [] := by
  obtain ⟨found, hfound, heq⟩ := Option.map_eq_some_iff.mp h
  cases heq
  refine .of_outstanding holds rfl rfl rfl fun x => ?_
  have hperm := (List.perm_cons_erase (List.mem_of_find?_eq_some hfound)).map (·.content)
  have hcount := hperm.count_eq x
  rw [List.map_cons, List.count_cons] at hcount
  rw [count_outstanding, count_outstanding, hcount, List.map_append, List.count_append]
  simp only [List.map_cons, List.map_nil, List.count_cons, List.count_nil]
  omega

theorem stop_moved (holds : c.Holds b) : Moved c c.stop b b [] := by
  refine .of_outstanding holds rfl rfl rfl fun x => ?_
  rw [count_outstanding, count_outstanding]
  simp only [stop, Pump.held, List.count_nil]
  omega

theorem count_outstanding_settled {d : Delivery} {how : Settlement} (h : (d, how) ∈ c.settling)
    (x : String) : c.outstanding.count x =
      (c.settled d how).outstanding.count x + if d.content == x then 1 else 0 := by
  have hcount := ((List.perm_cons_erase h).map (·.1.content)).count_eq x
  rw [List.map_cons, List.count_cons] at hcount
  rw [count_outstanding, count_outstanding, hcount]
  simp only [settled]
  omega

theorem claim?_moved (separate : c.Separate) (holds : c.Holds b)
    (h : c.claim? b = some (c', b')) : Moved c c' b b' [] := by
  unfold claim? at h
  split at h
  · rename_i hpump
    obtain ⟨⟨payload, claimed⟩, hclaim, heq⟩ := Option.map_eq_some_iff.mp h
    obtain ⟨last, hlast, hmoved⟩ := Option.map_eq_some_iff.mp hclaim
    cases hmoved
    cases heq
    obtain ⟨front, hfront⟩ := List.getLast?_eq_some_iff.mp hlast
    have hqueue := separate.queue_processing
    have hdead := separate.processing_deadLetter.symm
    refine ⟨rfl, rfl, rfl, fun key hne hne' _ => ?_, fun x => ?_, fun x => ?_⟩
    · rw [Broker.list_modify_of_ne _ _ hne', Broker.list_modify_of_ne _ _ hne]
    · rw [Broker.list_modify_of_ne _ _ hqueue, Broker.list_modify_self, Broker.list_modify_self,
        Broker.list_modify_of_ne _ _ hqueue.symm, Broker.list_modify_of_ne _ _ hdead,
        Broker.list_modify_of_ne _ _ separate.queue_deadLetter.symm, hfront]
      simp only [List.dropLast_concat, List.count_append, List.count_cons, List.count_nil]
      omega
    · have hx := holds x
      rw [count_outstanding, hpump] at hx
      rw [count_outstanding, Broker.list_modify_self, Broker.list_modify_of_ne _ _ hqueue.symm]
      simp only [Pump.held, List.count_cons, List.count_nil] at hx ⊢
      omega
  · cases h

theorem effect_processing (separate : c.Separate) (d : Delivery) (how : Settlement) (b : Broker) :
    (c.effect d how b).list c.processing = (b.list c.processing).erase d.content := by
  cases how with
  | acknowledge => rw [effect, Broker.settle, Broker.list_modify_self]
  | requeue =>
    rw [effect, Broker.restore, Broker.list_modify_of_ne _ _ separate.queue_processing.symm,
      Broker.settle, Broker.list_modify_self]
  | bury =>
    rw [effect, Broker.bury, Broker.publish,
      Broker.list_modify_of_ne _ _ separate.processing_deadLetter, Broker.settle,
      Broker.list_modify_self]

theorem effect_elsewhere (d : Delivery) (how : Settlement) (b : Broker) {key : String}
    (hqueue : key ≠ c.queue) (hprocessing : key ≠ c.processing) (hdead : key ≠ c.deadLetter) :
    (c.effect d how b).list key = b.list key := by
  cases how with
  | acknowledge => rw [effect, Broker.settle, Broker.list_modify_of_ne _ _ hprocessing]
  | requeue =>
    rw [effect, Broker.restore, Broker.list_modify_of_ne _ _ hqueue, Broker.settle,
      Broker.list_modify_of_ne _ _ hprocessing]
  | bury =>
    rw [effect, Broker.bury, Broker.publish, Broker.list_modify_of_ne _ _ hdead, Broker.settle,
      Broker.list_modify_of_ne _ _ hprocessing]

/-- The copy that leaves the processing list goes to the queue, to the dead, or is done with. -/
theorem effect_balance (separate : c.Separate) (d : Delivery) (how : Settlement) (b : Broker)
    (x : String) : ((c.effect d how b).list c.queue).count x +
        ((c.effect d how b).list c.deadLetter).count x +
        (Action.tell d how).acknowledged.count x =
      (b.list c.queue).count x + (b.list c.deadLetter).count x +
        if d.content == x then 1 else 0 := by
  have hqueue := separate.queue_processing
  have hboth := separate.queue_deadLetter
  have hdead := separate.processing_deadLetter.symm
  cases how with
  | acknowledge =>
    rw [effect, Broker.settle, Broker.list_modify_of_ne _ _ hqueue,
      Broker.list_modify_of_ne _ _ hdead]
    simp only [Action.acknowledged, List.count_cons, List.count_nil]
    omega
  | requeue =>
    rw [effect, Broker.restore, Broker.settle, Broker.list_modify_self,
      Broker.list_modify_of_ne _ _ hqueue, Broker.list_modify_of_ne _ _ hboth.symm,
      Broker.list_modify_of_ne _ _ hdead, List.count_append]
    simp only [Action.acknowledged, List.count_cons, List.count_nil]
    omega
  | bury =>
    rw [effect, Broker.bury, Broker.publish, Broker.settle, Broker.list_modify_self,
      Broker.list_modify_of_ne _ _ hboth, Broker.list_modify_of_ne _ _ hqueue,
      Broker.list_modify_of_ne _ _ hdead]
    simp only [Action.acknowledged, List.count_cons, List.count_nil]
    omega

theorem abandon_moved {d : Delivery} {how : Settlement} (holds : c.Holds b)
    (h : (d, how) ∈ c.settling) : Moved c (c.settled d how) b b [] := by
  refine .of_outstanding holds rfl rfl rfl fun x => ?_
  have hcount := count_outstanding_settled h x
  omega

theorem tell_moved {d : Delivery} {how : Settlement} (separate : c.Separate) (holds : c.Holds b)
    (h : (d, how) ∈ c.settling) :
    Moved c (c.settled d how) b (c.effect d how b) (Action.tell d how).acknowledged := by
  -- The list has a copy to drop, since the delivery was worked on until now.
  have hcopy : ∀ x, (c.settled d how).outstanding.count x + (if d.content == x then 1 else 0) ≤
      (b.list c.processing).count x := by
    intro x
    rw [← count_outstanding_settled h]
    exact holds x
  refine ⟨rfl, rfl, rfl, fun key => effect_elsewhere d how b, fun x => ?_, fun x => ?_⟩
  · have hbalance := effect_balance separate d how b x
    have hx := hcopy x
    rw [effect_processing separate, List.count_erase]
    omega
  · have hx := hcopy x
    change _ ≤ ((c.effect d how b).list c.processing).count x
    rw [effect_processing separate, List.count_erase]
    omega

theorem act?_moved {action : Action} (separate : c.Separate) (holds : c.Holds b)
    (h : c.act? b action = some (c', b')) : Moved c c' b b' action.acknowledged := by
  cases action with
  | acquire =>
    obtain ⟨_, hact, heq⟩ := Option.map_eq_some_iff.mp h
    cases heq
    exact acquire?_moved holds hact
  | reserve =>
    obtain ⟨_, hact, heq⟩ := Option.map_eq_some_iff.mp h
    cases heq
    exact reserve?_moved holds hact
  | claim => exact claim?_moved separate holds h
  | register =>
    obtain ⟨_, hact, heq⟩ := Option.map_eq_some_iff.mp h
    cases heq
    exact register?_moved holds hact
  | receive =>
    obtain ⟨_, hact, heq⟩ := Option.map_eq_some_iff.mp h
    cases heq
    exact receive?_moved holds hact
  | take tag how =>
    obtain ⟨_, hact, heq⟩ := Option.map_eq_some_iff.mp h
    cases heq
    exact take?_moved holds hact
  | tell d how =>
    obtain ⟨hmem, heq⟩ := Option.ite_none_right_eq_some.mp h
    cases heq
    exact tell_moved separate holds hmem
  | abandon d how =>
    obtain ⟨hmem, heq⟩ := Option.ite_none_right_eq_some.mp h
    cases heq
    exact abandon_moved holds hmem
  | halt =>
    cases h
    exact stop_moved holds

end Steps
structure Serves (name : String) (c : Consumer) : Prop where
  queue : c.queue = waitingKey name
  deadLetter : c.deadLetter = deadLetterKey name
  processing : ∃ id, c.processing = processingKey name id

theorem Serves.separate {name : String} {c : Consumer} (h : c.Serves name) : c.Separate := by
  obtain ⟨id, hid⟩ := h.processing
  refine ⟨?_, ?_, ?_⟩
  · rw [h.queue, hid]
    exact (processingKey_ne_waitingKey name id).symm
  · rw [h.queue, h.deadLetter]
    exact waitingKey_ne_deadLetterKey name
  · rw [hid, h.deadLetter]
    exact processingKey_ne_deadLetterKey name id

end Consumer

namespace Network
variable {name : String} {n : Network}

def copies (b : Broker) (consumers : List Consumer) (x : String) : Nat :=
  (consumers.flatMap fun c => b.list c.processing).count x

structure Conserved (name : String) (n : Network) : Prop where
  serves : ∀ c ∈ n.consumers, c.Serves name
  distinct : (n.consumers.map (·.processing)).Nodup
  /-- The list of a consumer that is yet to begin is empty. -/
  unused : ∀ id, processingKey name id ∉ n.consumers.map (·.processing) →
    n.broker.list (processingKey name id) = []
  holds : ∀ c ∈ n.consumers, c.Holds n.broker
  balance : ∀ x, n.published.count x = (n.broker.list (waitingKey name)).count x +
    copies n.broker n.consumers x + (n.broker.list (deadLetterKey name)).count x +
    n.acknowledged.count x

theorem copies_append (b : Broker) (front back : List Consumer) (x : String) :
    copies b (front ++ back) x = copies b front x + copies b back x := by
  rw [copies, List.flatMap_append, List.count_append]
  rfl

theorem copies_cons (b : Broker) (c : Consumer) (back : List Consumer) (x : String) :
    copies b (c :: back) x = (b.list c.processing).count x + copies b back x := by
  rw [copies, List.flatMap_cons, List.count_append]
  rfl

theorem copies_congr {b b' : Broker} {consumers : List Consumer}
    (h : ∀ c ∈ consumers, b'.list c.processing = b.list c.processing) (x : String) :
    copies b' consumers x = copies b consumers x := by
  unfold copies
  rw [List.flatMap_congr h]

theorem empty_conserved (name : String) : Conserved name empty where
  serves _ h := nomatch h
  distinct := List.nodup_nil
  unused _ _ := rfl
  holds _ h := nomatch h
  balance _ := rfl

theorem publish_conserved (h : Conserved name n) (payload : String) :
    Conserved name (n.step name (.publish payload)) := by
  -- Publishing leaves the processing lists and the dead alone.
  have hlists : ∀ key, key ≠ waitingKey name →
      (n.broker.publish (waitingKey name) payload).list key = n.broker.list key :=
    fun key hne => Broker.list_modify_of_ne _ _ hne
  have hown : ∀ c ∈ n.consumers, (n.broker.publish (waitingKey name) payload).list c.processing =
      n.broker.list c.processing := by
    intro c hc
    apply hlists
    rw [← (h.serves c hc).queue]
    exact (h.serves c hc).separate.queue_processing.symm
  refine ⟨h.serves, h.distinct, fun id hid => ?_, fun c hc x => ?_, fun x => ?_⟩
  · exact (hlists _ (processingKey_ne_waitingKey name id)).trans (h.unused id hid)
  · exact (hown c hc).symm ▸ h.holds c hc x
  · have hbalance := h.balance x
    have hwaiting : (n.broker.publish (waitingKey name) payload).list (waitingKey name) =
        payload :: n.broker.list (waitingKey name) := Broker.list_modify_self ..
    have hdead := hlists _ (waitingKey_ne_deadLetterKey name).symm
    change (payload :: n.published).count x =
      ((n.broker.publish _ payload).list (waitingKey name)).count x +
        copies (n.broker.publish _ payload) n.consumers x +
        ((n.broker.publish _ payload).list (deadLetterKey name)).count x + n.acknowledged.count x
    rw [hwaiting, hdead, copies_congr hown, List.count_cons, List.count_cons]
    omega

theorem join_conserved (h : Conserved name n) (id : Uuid) (prefetch : Nat) :
    Conserved name (n.step name (.join id prefetch)) := by
  rw [step]
  split
  · exact h
  · rename_i hnew
    -- A list that nobody used before is empty, so the balance is what it was.
    refine ⟨fun c hc => ?_, ?_, fun other hother => ?_, fun c hc => ?_, fun x => ?_⟩
    · rcases List.mem_append.mp hc with hc | hc
      · exact h.serves c hc
      · rw [List.mem_singleton.mp hc]
        exact ⟨rfl, rfl, id, rfl⟩
    · rw [List.map_append]
      refine List.nodup_append.mpr ⟨h.distinct, by simp, fun a ha b hb heq => hnew ?_⟩
      rw [← show a = processingKey name id from heq.trans (List.mem_singleton.mp hb)]
      exact ha
    · apply h.unused
      intro hmem
      apply hother
      rw [List.map_append]
      exact List.mem_append_left _ hmem
    · rcases List.mem_append.mp hc with hc | hc
      · exact h.holds c hc
      · rw [List.mem_singleton.mp hc]
        exact fun x => Nat.zero_le _
    · have hbalance := h.balance x
      simp only [copies_append, copies_cons, Consumer.start, h.unused id hnew]
      exact hbalance

theorem exists_split_of_getElem? {consumers : List Consumer} {index : Nat} {c : Consumer}
    (h : consumers[index]? = some c) : ∃ front back, consumers = front ++ c :: back ∧
      ∀ c', consumers.set index c' = front ++ c' :: back := by
  obtain ⟨hlt, hget⟩ := List.getElem?_eq_some_iff.mp h
  refine ⟨consumers.take index, consumers.drop (index + 1), ?_, fun c' => ?_⟩
  · rw [← hget, List.getElem_cons_drop, List.take_append_drop]
  · exact List.set_eq_take_append_cons_drop.trans (if_pos hlt)

section Moved
variable {b b' : Broker} {front back : List Consumer} {c c' : Consumer}
variable {published acknowledged gone : List String}

theorem Conserved.list_of_other
    (h : Conserved name ⟨b, front ++ c :: back, published, acknowledged⟩)
    (moved : c.Moved c' b b' gone) {d : Consumer} (hd : d ∈ front ++ back) :
    b'.list d.processing = b.list d.processing := by
  have hserves := h.serves d (List.perm_middle.symm.subset (List.mem_cons_of_mem c hd))
  have hown := h.serves c (List.mem_append_right front List.mem_cons_self)
  have hne : d.processing ≠ c.processing := by
    have hnodup := (List.perm_middle.map _).nodup_iff.mp h.distinct
    rw [List.map_cons, List.nodup_cons] at hnodup
    intro heq
    apply hnodup.1
    rw [← heq]
    exact List.mem_map_of_mem hd
  apply moved.elsewhere _ _ hne
  · rw [hown.deadLetter, ← hserves.deadLetter]
    exact hserves.separate.processing_deadLetter
  · rw [hown.queue, ← hserves.queue]
    exact hserves.separate.queue_processing.symm

theorem Conserved.balance_moved
    (h : Conserved name ⟨b, front ++ c :: back, published, acknowledged⟩)
    (moved : c.Moved c' b b' gone) (x : String) :
    published.count x = (b'.list (waitingKey name)).count x +
      copies b' (front ++ c' :: back) x + (b'.list (deadLetterKey name)).count x +
      (gone ++ acknowledged).count x := by
  have hown := h.serves c (List.mem_append_right front List.mem_cons_self)
  have hbalance : published.count x = (b.list (waitingKey name)).count x +
      copies b (front ++ c :: back) x + (b.list (deadLetterKey name)).count x +
      acknowledged.count x := h.balance x
  have hmoved := moved.balance x
  have hfront : copies b' front x = copies b front x := copies_congr
    (fun d hd => h.list_of_other moved (List.mem_append_left back hd)) x
  have hback : copies b' back x = copies b back x := copies_congr
    (fun d hd => h.list_of_other moved (List.mem_append_right front hd)) x
  rw [hown.queue, hown.deadLetter] at hmoved
  rw [copies_append, copies_cons] at hbalance
  rw [copies_append, copies_cons, hfront, hback, moved.processing, List.count_append]
  omega

theorem Conserved.moved (h : Conserved name ⟨b, front ++ c :: back, published, acknowledged⟩)
    (moved : c.Moved c' b b' gone) :
    Conserved name ⟨b', front ++ c' :: back, published, gone ++ acknowledged⟩ := by
  have hown := h.serves c (List.mem_append_right front List.mem_cons_self)
  have hkeys : (front ++ c' :: back).map (·.processing) =
      (front ++ c :: back).map (·.processing) := by
    rw [List.map_append, List.map_append, List.map_cons, List.map_cons, moved.processing]
  have hmembers : ∀ d ∈ front ++ c' :: back, d = c' ∨ d ∈ front ++ back := fun d hd =>
    List.mem_cons.mp (List.perm_middle.subset hd)
  have hothers : ∀ d ∈ front ++ back, d ∈ front ++ c :: back := fun d hd =>
    List.perm_middle.symm.subset (List.mem_cons_of_mem c hd)
  refine ⟨fun d hd => ?_, ?_, fun id hid => ?_, fun d hd => ?_, fun x => ?_⟩
  · rcases hmembers d hd with rfl | hd
    · refine ⟨moved.queue.trans hown.queue, moved.deadLetter.trans hown.deadLetter, ?_⟩
      rw [moved.processing]
      exact hown.processing
    · exact h.serves d (hothers d hd)
  · rw [hkeys]
    exact h.distinct
  · rw [hkeys] at hid
    rw [← h.unused id hid]
    apply moved.elsewhere
    · rw [hown.queue]
      exact processingKey_ne_waitingKey name id
    · intro heq
      apply hid
      rw [heq]
      exact List.mem_map_of_mem (List.mem_append_right front List.mem_cons_self)
    · rw [hown.deadLetter]
      exact processingKey_ne_deadLetterKey name id
  · rcases hmembers d hd with rfl | hd
    · exact moved.holds
    · intro x
      rw [h.list_of_other moved hd]
      exact h.holds d (hothers d hd) x
  · exact h.balance_moved moved x

end Moved

theorem act_conserved (h : Conserved name n) (index : Nat) (action : Action) :
    Conserved name (n.step name (.act index action)) := by
  rw [step]
  split
  · exact h
  · rename_i c hc
    split
    · exact h
    · rename_i c' b' hact
      obtain ⟨front, back, hsplit, hset⟩ := exists_split_of_getElem? hc
      have hmem : c ∈ n.consumers := List.mem_of_getElem? hc
      have hmoved := Consumer.act?_moved (h.serves c hmem).separate (h.holds c hmem) hact
      obtain ⟨b, consumers, published, acknowledged⟩ := n
      cases hsplit
      rw [hset]
      exact h.moved hmoved

theorem step_conserved (h : Conserved name n) (event : Event) :
    Conserved name (n.step name event) := by
  cases event with
  | publish payload => exact publish_conserved h payload
  | join id prefetch => exact join_conserved h id prefetch
  | act index action => exact act_conserved h index action

theorem run_conserved (name : String) (events : List Event) : Conserved name (run name events) := by
  unfold run
  have hrun : ∀ n, Conserved name n → Conserved name (events.foldl (step name) n) := by
    induction events with
    | nil => exact fun n h => h
    | cons event events ih => exact fun n h => ih _ (step_conserved h event)
  exact hrun empty (empty_conserved name)

end Network

/-- After any steps of any publishers and consumers, all that was ever published is waiting, being
worked on, dead or done, each copy in one place; what a consumer works on is on its own list,
besides what it left there. -/
theorem conservation (name : String) (events : List Event) :
    let n := Network.run name events
    n.published.Perm (n.broker.list (waitingKey name) ++
      (n.consumers.flatMap fun c => n.broker.list c.processing) ++
      n.broker.list (deadLetterKey name) ++ n.acknowledged) ∧
    (n.consumers.map (·.processing)).Nodup ∧
    ∀ c ∈ n.consumers, ∃ left, (n.broker.list c.processing).Perm (c.outstanding ++ left) := by
  intro n
  have h : Network.Conserved name n := Network.run_conserved name events
  refine ⟨?_, h.distinct, fun c hc => ?_⟩
  · rw [List.perm_iff_count]
    intro x
    rw [h.balance x, List.count_append, List.count_append, List.count_append]
    rfl
  · have hheld := List.subperm_append_diff_self_of_count_le fun x _ => h.holds c hc x
    exact ⟨_, hheld.symm⟩

-- Two copies of one message at two consumers: one is done, the other is about to come back.
example : let n := Network.run "jobs" [.publish "a", .publish "a", .join ⟨1⟩ 1, .join ⟨2⟩ 1,
      .act 0 .acquire, .act 0 .reserve, .act 1 .acquire, .act 1 .reserve, .act 0 .claim,
      .act 1 .claim, .act 1 .register, .act 0 .register, .act 0 (.take 1 .acknowledge),
      .act 1 (.take 1 .requeue), .act 0 (.tell ⟨1, "a"⟩ .acknowledge)]
    n.acknowledged = ["a"] ∧ n.broker.list (waitingKey "jobs") = [] ∧
      n.consumers.map (·.outstanding) = [[], ["a"]] := by
  decide +kernel

end SandboxWorker.Queue
