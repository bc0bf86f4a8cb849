import SandboxWorker.Proofs.Queue.Conservation
import SandboxWorker.Proofs.Queue.Outstanding
import SandboxWorker.Queue.Exchange
/-! How a consumer gives back what was not received, and what is left of it then: step by step, for
as long as the broker obeys, and in an exchange, which takes these steps. -/
namespace SandboxWorker.Queue

namespace Exchange
variable {x : Exchange} {id : Nat} {c c' : Consumer} {d : Delivery}

theorem lookup_map_set (consumers : List (Nat × Consumer)) (h : consumers.lookup id = some c) :
    (consumers.map fun (i, old) => if i = id then (i, c') else (i, old)).lookup id = some c' := by
  induction consumers with
  | nil => cases h
  | cons first consumers ih =>
    obtain ⟨i, old⟩ := first
    by_cases hi : i = id
    · simp [hi]
    · have hne : (id == i) = false := by simpa using Ne.symm hi
      rw [List.lookup_cons, hne] at h
      simp [hi, List.lookup_cons, hne, ih h]

theorem consumer?_setConsumer (h : x.consumer? id = some c) (c' : Consumer) :
    (x.setConsumer id c').consumer? id = some c' :=
  lookup_map_set x.consumers h

theorem find?_tag {inFlight : List Delivery} (hd : d ∈ inFlight)
    (distinct : (inFlight.map (·.tag)).Nodup) : inFlight.find? (·.tag = d.tag) = some d := by
  induction inFlight with
  | nil => cases hd
  | cons e inFlight ih =>
    rw [List.map_cons, List.nodup_cons] at distinct
    by_cases htag : e.tag = d.tag
    · rcases List.mem_cons.mp hd with rfl | hmem
      · simp
      · exact absurd (List.mem_map.mpr ⟨d, hmem, htag.symm⟩) distinct.1
    · rcases List.mem_cons.mp hd with rfl | hmem
      · exact absurd rfl htag
      · simpa [htag] using ih hmem distinct.2

theorem effect_requeue (separate : c.Separate) (b : Broker) :
    (c.effect d .requeue b).list c.queue = b.list c.queue ++ [d.content] := by
  rw [Consumer.effect, Broker.restore, Broker.list_modify_self, Broker.settle,
    Broker.list_modify_of_ne _ _ separate.queue_processing]

end Exchange

namespace Consumer
variable {c c' : Consumer} {b b' : Broker} {d : Delivery} {rest : List Delivery}

def actAll? (c : Consumer) (b : Broker) : List Action → Option (Consumer × Broker)
  | [] => some (c, b)
  | action :: actions => do
    let (c, b) ← c.act? b action
    c.actAll? b actions

theorem actAll?_cons {action : Action} (h : c.act? b action = some (c', b'))
    (actions : List Action) : c.actAll? b (action :: actions) = c'.actAll? b' actions := by
  rw [actAll?, h]
  rfl

theorem actAll?_append {actions : List Action} (h : c.actAll? b actions = some (c', b'))
    (more : List Action) : c.actAll? b (actions ++ more) = c'.actAll? b' more := by
  induction actions generalizing c b with
  | nil =>
    cases h
    rfl
  | cons action actions ih =>
    rw [actAll?] at h
    obtain ⟨⟨c₁, b₁⟩, hact, hrest⟩ := Option.bind_eq_some_iff.mp h
    rw [List.cons_append, actAll?_cons hact, ih hrest]

def unreceived (c : Consumer) : List Delivery := c.buffer.filter (· ∈ c.inFlight)

/-- How a buffer is emptied by somebody whom the broker obeys so many times, and then no more. The
first failure ends it. -/
def draining (inFlight : List Delivery) : Nat → List Delivery → List Action
  | _, [] => []
  | obeyed, d :: buffer =>
    if d ∈ inFlight then
      [.receive, .take d.tag .requeue] ++ match obeyed with
        | 0 => [.abandon d .requeue]
        | obeyed + 1 => .tell d .requeue :: draining inFlight obeyed buffer
    else .receive :: draining inFlight obeyed buffer

def closing (c : Consumer) (obeyed : Nat) : List Action :=
  .halt :: draining c.inFlight obeyed c.buffer

def received (c : Consumer) (rest : List Delivery) : Consumer := { c with buffer := rest }

def taken (c : Consumer) (d : Delivery) (how : Settlement) : Consumer :=
  { c with inFlight := c.inFlight.erase d, settling := c.settling ++ [(d, how)] }

def presented (c : Consumer) (d : Delivery) (how : Settlement) : Consumer :=
  (c.taken d how).settled d how

theorem draining_skip {inFlight : List Delivery} (h : d ∉ inFlight) (obeyed : Nat) :
    draining inFlight obeyed (d :: rest) = .receive :: draining inFlight obeyed rest := by
  cases obeyed <;> rw [draining, if_neg h]

theorem draining_congr {before after : List Delivery} {buffer : List Delivery}
    (h : ∀ d ∈ buffer, d ∈ after ↔ d ∈ before) (obeyed : Nat) :
    draining after obeyed buffer = draining before obeyed buffer := by
  induction buffer generalizing obeyed with
  | nil => rfl
  | cons d buffer ih =>
    obtain ⟨hd, hbuffer⟩ := List.forall_mem_cons.mp h
    cases obeyed with
    | zero => simp only [draining, hd, ih hbuffer]
    | succ obeyed => simp only [draining, hd, ih hbuffer]

theorem act?_receive (first : c.buffer = d :: rest) :
    c.act? b .receive = some (c.received rest, b) := by
  rw [act?, receive?, first]
  rfl

section Presented
variable (tagged : c.Tagged) (hd : d ∈ c.inFlight) (how : Settlement)
include tagged hd

theorem take?_of_mem : c.take? d.tag how = some (d, c.taken d how) := by
  rw [take?, Exchange.find?_tag hd tagged.distinct]
  rfl

theorem actAll?_presented (b : Broker) :
    c.actAll? b [.take d.tag how, .tell d how] = some (c.presented d how, c.effect d how b) ∧
      c.actAll? b [.take d.tag how, .abandon d how] = some (c.presented d how, b) := by
  have htake : c.act? b (.take d.tag how) = some (c.taken d how, b) := by
    rw [act?, take?_of_mem tagged hd how]
    rfl
  have htaken : (d, how) ∈ (c.taken d how).settling := by simp [taken]
  have htell : (c.taken d how).act? b (.tell d how) = some (c.presented d how, c.effect d how b) :=
    if_pos htaken
  have habandon : (c.taken d how).act? b (.abandon d how) = some (c.presented d how, b) :=
    if_pos htaken
  rw [actAll?_cons htake, actAll?_cons htake, actAll?_cons htell, actAll?_cons habandon]
  exact ⟨rfl, rfl⟩

end Presented

theorem mem_presented (tagged : c.Tagged) (how : Settlement) {e : Delivery} :
    e ∈ (c.presented d how).inFlight ↔ e ∈ c.inFlight ∧ e ≠ d := by
  have hnodup : c.inFlight.Nodup := List.Nodup.of_map _ tagged.distinct
  exact hnodup.mem_erase_iff.trans and_comm

theorem not_outstanding_presented (tagged : c.Tagged) (hd : d ∈ c.inFlight) (how : Settlement) :
    ¬ (c.presented d how).Outstanding d.tag := by
  rintro ⟨e, he, htag⟩
  obtain ⟨hmem, hne⟩ := (mem_presented tagged how).mp he
  exact hne (List.inj_on_of_nodup_map tagged.distinct hmem hd htag)

theorem Tagged.presented (tagged : c.Tagged) (d : Delivery) (how : Settlement) :
    (c.presented d how).Tagged := by
  obtain ⟨distinct, tag_le, ordered, buffered_le, same⟩ := tagged
  exact ⟨distinct.sublist (List.erase_sublist.map _),
    fun e he => tag_le e (List.mem_of_mem_erase he), ordered, buffered_le,
    fun d hd e he => same d hd e (List.mem_of_mem_erase he)⟩

section First
variable (tagged : c.Tagged) (first : c.buffer = d :: rest)
include tagged first

theorem tagged_received : (c.received rest).Tagged :=
  Turn.tagged (.receive (b := .empty) first) tagged

theorem mem_inFlight_of_rest (how : Settlement) :
    ∀ e ∈ rest, e ∈ ((c.received rest).presented d how).inFlight ↔ e ∈ c.inFlight := by
  intro e he
  have hordered := tagged.ordered
  rw [first, List.map_cons, List.nodup_cons] at hordered
  have hne : e ≠ d := by
    rintro rfl
    exact hordered.1 (List.mem_map_of_mem he)
  exact List.mem_erase_of_ne hne

theorem unreceived_first (hd : d ∈ c.inFlight) :
    c.unreceived = d :: ((c.received rest).presented d .requeue).unreceived := by
  have hrest := mem_inFlight_of_rest tagged first .requeue
  rw [unreceived, first, List.filter_cons_of_pos (by simpa using hd)]
  congr 1
  exact (List.filter_congr fun e he => decide_eq_decide.mpr (hrest e he)).symm

end First

theorem unreceived_skip (first : c.buffer = d :: rest) (hd : d ∉ c.inFlight) :
    c.unreceived = (c.received rest).unreceived := by
  rw [unreceived, first, List.filter_cons_of_neg (by simpa using hd)]
  rfl

/-- What is left of a consumer, and of the queue, when a broker obeyed so many times. -/
structure Drained (c c' : Consumer) (b b' : Broker) (obeyed : Nat) : Prop where
  returned : b'.list c.queue = b.list c.queue ++ (c.unreceived.take obeyed).map (·.content)
  unreceived : c'.unreceived = c.unreceived.drop (obeyed + 1)
  inFlight : ∀ d, d ∈ c'.inFlight ↔ d ∈ c.inFlight ∧ d ∉ c.unreceived.take (obeyed + 1)
  emptied : c.unreceived.length ≤ obeyed → c'.buffer = []
  settling : c'.settling.Perm c.settling

theorem settling_presented (c : Consumer) (d : Delivery) (how : Settlement) :
    (c.presented d how).settling.Perm c.settling := by
  have hmem : (d, how) ∈ c.settling ++ [(d, how)] := by simp
  have hboth : ((d, how) :: (c.presented d how).settling).Perm ((d, how) :: c.settling) :=
    (List.perm_cons_erase hmem).symm.trans (List.perm_append_singleton _ _)
  exact hboth.cons_inv

theorem actAll?_draining (tagged : c.Tagged) (separate : c.Separate) (b : Broker) (obeyed : Nat) :
    ∃ c' b', c.actAll? b (draining c.inFlight obeyed c.buffer) = some (c', b') ∧
      c.Drained c' b b' obeyed := by
  -- On the buffer, whose first delivery is presented or passed over.
  induction hbuffer : c.buffer generalizing c b obeyed with
  | nil =>
    have hnone : c.unreceived = [] := by rw [unreceived, hbuffer]; rfl
    exact ⟨c, b, rfl, by simp [hnone], by simp [hnone], by simp [hnone], fun _ => hbuffer, .refl _⟩
  | cons d rest ih =>
    have htagged := tagged_received tagged hbuffer
    by_cases hd : d ∈ c.inFlight
    · have hsplit := unreceived_first tagged hbuffer hd
      have hflight (e : Delivery) := mem_presented htagged .requeue (d := d) (e := e)
      obtain ⟨htell, habandon⟩ := actAll?_presented htagged hd .requeue b
      cases obeyed with
      | zero =>
        refine ⟨(c.received rest).presented d .requeue, b, ?_, ?_, ?_, fun e => ?_, fun hall => ?_,
          settling_presented _ d _⟩
        · rw [draining, if_pos hd]
          exact (actAll?_cons (act?_receive hbuffer) _).trans habandon
        · simp
        · rw [hsplit]
          rfl
        · rw [hflight, hsplit]
          simp [received]
        · rw [hsplit] at hall
          cases hall
      | succ obeyed =>
        have hseparate : ((c.received rest).presented d .requeue).Separate :=
          ⟨separate.1, separate.2, separate.3⟩
        obtain ⟨c', b', hacts, hreturned, hunreceived, hinFlight, hemptied, hsettling⟩ :=
          ih (htagged.presented d .requeue) hseparate (c.effect d .requeue b) obeyed rfl
        refine ⟨c', b', ?_, ?_, ?_, fun e => ?_, fun hall => hemptied ?_,
          hsettling.trans (settling_presented (c.received rest) d _)⟩
        · have hsame := draining_congr (mem_inFlight_of_rest tagged hbuffer .requeue) obeyed
          rw [draining, if_pos hd, ← hsame]
          refine (actAll?_cons (act?_receive hbuffer) _).trans ?_
          exact (actAll?_append htell _).trans hacts
        · refine hreturned.trans ?_
          have hqueue : ((c.received rest).presented d .requeue).queue = c.queue := rfl
          rw [hsplit, hqueue, Exchange.effect_requeue separate]
          simp
        · rw [hunreceived, hsplit]
          rfl
        · rw [hinFlight, hflight, hsplit]
          simp [received, and_assoc]
        · rw [hsplit] at hall
          exact Nat.le_of_succ_le_succ hall
    · have hsplit := unreceived_skip hbuffer hd
      have hseparate : (c.received rest).Separate := ⟨separate.1, separate.2, separate.3⟩
      obtain ⟨c', b', hacts, hreturned, hunreceived, hinFlight, hemptied, hsettling⟩ :=
        ih htagged hseparate b obeyed rfl
      rw [← hsplit] at hreturned hunreceived hinFlight hemptied
      refine ⟨c', b', ?_, hreturned, hunreceived, hinFlight, hemptied, hsettling⟩
      rw [draining_skip hd, actAll?_cons (act?_receive hbuffer)]
      exact hacts

theorem actAll?_closing (tagged : c.Tagged) (separate : c.Separate) (b : Broker) (obeyed : Nat) :
    ∃ c' b', c.actAll? b (c.closing obeyed) = some (c', b') ∧ c.Drained c' b b' obeyed := by
  have htagged : c.stop.Tagged := Turn.tagged (.halt (b := b)) tagged
  have hseparate : c.stop.Separate := ⟨separate.1, separate.2, separate.3⟩
  obtain ⟨c', b', hacts, hdrained⟩ := actAll?_draining htagged hseparate b obeyed
  refine ⟨c', b', ?_, hdrained.returned, hdrained.unreceived, hdrained.inFlight, hdrained.emptied,
    hdrained.settling⟩
  rw [closing, actAll?_cons rfl]
  exact hacts

end Consumer

theorem Network.foldl_actAll (name : String) {n : Network} {index : Nat} {c c' : Consumer}
    {b' : Broker} {actions : List Action} (hc : n.consumers[index]? = some c)
    (h : c.actAll? n.broker actions = some (c', b')) :
    ((actions.map (.act index)).foldl (step name) n).consumers[index]? = some c' ∧
      ((actions.map (.act index)).foldl (step name) n).broker = b' := by
  induction actions generalizing n c with
  | nil =>
    cases h
    exact ⟨hc, rfl⟩
  | cons action actions ih =>
    rw [Consumer.actAll?] at h
    obtain ⟨⟨c₁, b₁⟩, hact, hrest⟩ := Option.bind_eq_some_iff.mp h
    have hlt := (List.getElem?_eq_some_iff.mp hc).1
    have hstep : n.step name (.act index action) =
        ⟨b₁, n.consumers.set index c₁, n.published, action.acknowledged ++ n.acknowledged⟩ := by
      simp only [step, hc, hact]
    rw [List.map_cons, List.foldl_cons, hstep]
    exact ih (by simp [hlt]) hrest

namespace Exchange
variable {x : Exchange} {id : Nat} {c : Consumer} {d : Delivery} {how : Settlement}

/-- A delivery that was taken is settled whether the broker obeys or not. -/
theorem finish_answer {old : Consumer} (h : x.consumer? id = some old) (c : Consumer)
    (d : Delivery) (how : Settlement) : ∃ x', x'.consumer? id = some (c.settled d how) ∧
      if x.failures how.call = 0 then
        x.finish id c d how = (.ok (), x') ∧ x'.broker = c.effect d how x.broker ∧
          x'.failures = x.failures
      else x.finish id c d how = (.error outage, x') ∧ x'.broker = x.broker := by
  -- Whatever was done to the broker, the consumer is put back, and its pump may be woken.
  have hback (y : Exchange) (hy : y.consumers = x.consumers) :
      ∃ x', (let z := y.setConsumer id (c.settled d how)
          if (c.settled d how).pump = .acquiring then z.schedule ⟨id, none⟩ else z) = x' ∧
        x'.consumer? id = some (c.settled d how) ∧ x'.broker = y.broker ∧
        x'.failures = y.failures := by
    have hconsumer : (y.setConsumer id (c.settled d how)).consumer? id =
        some (c.settled d how) := by
      refine consumer?_setConsumer (c := old) ?_ _
      rw [consumer?, hy]
      exact h
    refine ⟨_, rfl, ?_⟩
    dsimp only
    split <;> exact ⟨hconsumer, rfl, rfl⟩
  rw [finish, callBroker, refuses?]
  by_cases works : x.failures how.call = 0
  · simp only [if_pos works]
    let y : Exchange := { x with broker := c.effect d how x.broker }
    cases how with
    | requeue =>
      obtain ⟨x', hx', hconsumer, hbroker, hfailures⟩ := hback y.notify rfl
      exact ⟨x', hconsumer, congrArg (Prod.mk _) hx', hbroker, hfailures⟩
    | acknowledge | bury =>
      obtain ⟨x', hx', hconsumer, hbroker, hfailures⟩ := hback y rfl
      exact ⟨x', hconsumer, congrArg (Prod.mk _) hx', hbroker, hfailures⟩
  · simp only [if_neg works]
    obtain ⟨x', hx', hconsumer, hbroker, -⟩ :=
      hback (x.setFailures how.call (x.failures how.call - 1)) rfl
    exact ⟨x', hconsumer, congrArg (Prod.mk _) hx', hbroker⟩

theorem settleDelivery_of_not_outstanding (h : x.consumer? id = some c) {tag : Nat}
    (hnone : ¬ c.Outstanding tag) (how : Settlement) :
    x.settleDelivery id tag how = (.error (.unknownDelivery tag), x) := by
  have htake : c.take? tag how = none := by
    rw [← Option.not_isSome_iff_eq_none, Consumer.isSome_take?]
    exact hnone
  simp only [settleDelivery, h, Option.bind_some, htake]

theorem settleDelivery_of_mem (h : x.consumer? id = some c) (tagged : c.Tagged)
    (hd : d ∈ c.inFlight) (how : Settlement) :
    ∃ x', x'.consumer? id = some (c.presented d how) ∧
      if x.failures how.call = 0 then
        x.settleDelivery id d.tag how = (.ok (), x') ∧ x'.broker = c.effect d how x.broker
      else x.settleDelivery id d.tag how = (.error outage, x') ∧ x'.broker = x.broker := by
  obtain ⟨x', hconsumer, hfinish⟩ := finish_answer h (c.taken d how) d how
  have hsettle : x.settleDelivery id d.tag how = x.finish id (c.taken d how) d how := by
    simp only [settleDelivery, h, Option.bind_some, Consumer.take?_of_mem tagged hd]
  rw [hsettle]
  refine ⟨x', hconsumer, ?_⟩
  split
  · rename_i works
    rw [if_pos works] at hfinish
    exact ⟨hfinish.1, hfinish.2.1⟩
  · rename_i fails
    rw [if_neg fails] at hfinish
    exact hfinish

section Drain
variable {rest : List Delivery} (h : x.consumer? id = some c) (tagged : c.Tagged)
  (hbuffer : c.buffer = d :: rest) (fuel : Nat)
include h tagged hbuffer

theorem drain_of_mem (hd : d ∈ c.inFlight) :
    ∃ x', x'.consumer? id = some ((c.received rest).presented d .requeue) ∧
      if x.failures .restore = 0 then
        drain id (fuel + 1) x = drain id fuel x' ∧ x'.broker = c.effect d .requeue x.broker ∧
          x'.failures = x.failures
      else drain id (fuel + 1) x = (.error outage, x') ∧ x'.broker = x.broker := by
  have hreceive : (x.consumer? id).bind (·.receive?) = some (d, c.received rest) := by
    simp only [h, Option.bind_some, Consumer.receive?, hbuffer]
    rfl
  have htake := Consumer.take?_of_mem (Consumer.tagged_received tagged hbuffer) hd .requeue
  obtain ⟨x', hconsumer, hfinish⟩ :=
    finish_answer h ((c.received rest).taken d .requeue) d .requeue
  rw [Settlement.call] at hfinish
  refine ⟨x', hconsumer, ?_⟩
  split
  · rename_i works
    rw [if_pos works] at hfinish
    exact ⟨by simp only [drain, hreceive, htake, hfinish], hfinish.2⟩
  · rename_i fails
    rw [if_neg fails] at hfinish
    exact ⟨by simp only [drain, hreceive, htake, hfinish], hfinish.2⟩

theorem drain_of_not_mem (hd : d ∉ c.inFlight) :
    drain id (fuel + 1) x = drain id fuel (x.setConsumer id (c.received rest)) := by
  have hreceive : (x.consumer? id).bind (·.receive?) = some (d, c.received rest) := by
    simp only [h, Option.bind_some, Consumer.receive?, hbuffer]
    rfl
  have htake : (c.received rest).take? d.tag .requeue = none := by
    rw [← Option.not_isSome_iff_eq_none, Consumer.isSome_take?]
    rintro ⟨e, he, htag⟩
    have heq := tagged.same d (by rw [hbuffer]; exact List.mem_cons_self) e he htag.symm
    exact hd (heq ▸ he)
  simp only [drain, hreceive, htake]

end Drain

/-- The broker obeys every call or refuses the first one. -/
theorem drain_steps {fuel obeyed : Nat} (h : x.consumer? id = some c) (tagged : c.Tagged)
    (enough : c.buffer.length < fuel)
    (hobeyed : if x.failures .restore = 0 then c.unreceived.length ≤ obeyed else obeyed = 0) :
    ∃ x' c', x'.consumer? id = some c' ∧
      drain id fuel x = (if c.unreceived.length ≤ obeyed then .ok () else .error outage, x') ∧
      c.actAll? x.broker (Consumer.draining c.inFlight obeyed c.buffer) = some (c', x'.broker) := by
  induction fuel generalizing x c obeyed with
  | zero => omega
  | succ fuel ih =>
    cases hbuffer : c.buffer with
    | nil =>
      have hnone : c.unreceived = [] := by rw [Consumer.unreceived, hbuffer]; rfl
      refine ⟨x, c, h, ?_, rfl⟩
      simp [drain, h, Consumer.receive?, hbuffer, hnone]
    | cons d rest =>
      rw [hbuffer, List.length_cons] at enough
      have henough : rest.length < fuel := Nat.lt_of_succ_lt_succ enough
      have htagged := Consumer.tagged_received tagged hbuffer
      have hreceived := Consumer.act?_receive hbuffer (b := x.broker)
      by_cases hd : d ∈ c.inFlight
      · have hsplit := Consumer.unreceived_first tagged hbuffer hd
        obtain ⟨htell, habandon⟩ := Consumer.actAll?_presented htagged hd .requeue x.broker
        obtain ⟨x₁, hconsumer, hfirst⟩ := drain_of_mem h tagged hbuffer fuel hd
        rw [hsplit, List.length_cons] at hobeyed
        rw [hsplit, List.length_cons]
        by_cases works : x.failures .restore = 0
        · rw [if_pos works] at hfirst hobeyed
          obtain ⟨hdrain, hbroker, hfailures⟩ := hfirst
          obtain ⟨obeyed, rfl⟩ : ∃ n, obeyed = n + 1 := ⟨obeyed - 1, by omega⟩
          simp only [Nat.add_le_add_iff_right] at hobeyed ⊢
          have hobeyed' : if x₁.failures .restore = 0 then
              ((c.received rest).presented d .requeue).unreceived.length ≤ obeyed
              else obeyed = 0 := by
            rw [hfailures, if_pos works]
            exact hobeyed
          obtain ⟨x', c', hconsumer', hrest, hacts⟩ :=
            ih hconsumer (htagged.presented d .requeue) henough hobeyed'
          refine ⟨x', c', hconsumer', hdrain.trans hrest, ?_⟩
          have hsame := Consumer.draining_congr
            (Consumer.mem_inFlight_of_rest tagged hbuffer .requeue) obeyed
          rw [Consumer.draining, if_pos hd, ← hsame]
          refine (Consumer.actAll?_cons hreceived _).trans ?_
          rw [hbroker] at hacts
          exact (Consumer.actAll?_append htell _).trans hacts
        · rw [if_neg works] at hfirst hobeyed
          subst hobeyed
          refine ⟨x₁, _, hconsumer, hfirst.1, ?_⟩
          rw [Consumer.draining, if_pos hd, hfirst.2]
          exact (Consumer.actAll?_cons hreceived _).trans habandon
      · have hsplit := Consumer.unreceived_skip hbuffer hd
        rw [hsplit] at hobeyed
        obtain ⟨x', c', hconsumer', hrest, hacts⟩ :=
          ih (x := x.setConsumer id (c.received rest)) (consumer?_setConsumer h _) htagged henough
            hobeyed
        rw [hsplit]
        refine ⟨x', c', hconsumer', ?_, ?_⟩
        · exact (drain_of_not_mem h tagged hbuffer fuel hd).trans hrest
        · rw [Consumer.draining_skip hd, Consumer.actAll?_cons hreceived]
          exact hacts

theorem close_of_drain {x₁ : Exchange} {r : Except QueueError Unit} (h : x.consumer? id = some c)
    (hdrain : drain id (c.buffer.length + 1) ((x.quiet id).setConsumer id c.stop) = (r, x₁)) :
    ∃ x', x.close id = (r, x') ∧ x'.consumer? id = x₁.consumer? id ∧ x'.broker = x₁.broker := by
  rw [close, h]
  simp only [hdrain]
  cases r with
  | error e => exact ⟨x₁, rfl, rfl, rfl⟩
  | ok _ =>
    refine ⟨_, rfl, ?_⟩
    split <;> exact ⟨rfl, rfl⟩

theorem exists_obeyed (x : Exchange) (k : Nat) :
    ∃ obeyed, if x.failures .restore = 0 then k ≤ obeyed else obeyed = 0 := by
  by_cases works : x.failures .restore = 0
  · exact ⟨k, by simp only [if_pos works, Nat.le_refl]⟩
  · exact ⟨0, by simp only [if_neg works]⟩

theorem close_steps {obeyed : Nat} (h : x.consumer? id = some c) (tagged : c.Tagged)
    (hobeyed : if x.failures .restore = 0 then c.unreceived.length ≤ obeyed else obeyed = 0) :
    ∃ x' c', x'.consumer? id = some c' ∧
      x.close id = (if c.unreceived.length ≤ obeyed then .ok () else .error outage, x') ∧
      c.actAll? x.broker (c.closing obeyed) = some (c', x'.broker) := by
  have hstopped : ((x.quiet id).setConsumer id c.stop).consumer? id = some c.stop :=
    consumer?_setConsumer (x := x.quiet id) h c.stop
  have htagged : c.stop.Tagged := Consumer.Turn.tagged (.halt (b := x.broker)) tagged
  obtain ⟨x₁, c', hconsumer, hdrain, hacts⟩ :=
    drain_steps hstopped htagged (Nat.lt_succ_self c.buffer.length) hobeyed
  obtain ⟨x', hclose, hsame, hbroker⟩ := close_of_drain h hdrain
  refine ⟨x', c', hsame.trans hconsumer, hclose, ?_⟩
  rw [hbroker, Consumer.closing, Consumer.actAll?_cons rfl]
  exact hacts

theorem close_of_works (h : x.consumer? id = some c) (tagged : c.Tagged)
    (works : x.failures .restore = 0) :
    ∃ x' c', x'.consumer? id = some c' ∧ x.close id = (.ok (), x') ∧
      c.actAll? x.broker (c.closing c.unreceived.length) = some (c', x'.broker) := by
  have obeys : if x.failures .restore = 0 then c.unreceived.length ≤ c.unreceived.length
      else c.unreceived.length = 0 := by simp only [if_pos works, Nat.le_refl]
  obtain ⟨x', c', hconsumer, hclose, hacts⟩ := close_steps h tagged obeys
  rw [if_pos (Nat.le_refl _)] at hclose
  exact ⟨x', c', hconsumer, hclose, hacts⟩

end Exchange

end SandboxWorker.Queue
