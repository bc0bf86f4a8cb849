import SandboxWorker.Proofs.Queue.Settling
import SandboxWorker.Proofs.Queue.Window
/-! What a consumer is left with when it has closed: the deliveries that were handed out and not
settled, each of which can still be. All else that it had claimed is back in the queue. -/
namespace SandboxWorker.Queue

/-- What the pump does before it can be stopped: a message claimed is registered at once. -/
def Pump.rest : Pump → List Action
  | .holding _ => [.register]
  | .acquiring | .reserving | .claiming | .stopped => []

namespace Consumer

/-- A consumer that claims nothing more and has nothing more to hand out. -/
structure Closed (c : Consumer) : Prop where
  stopped : c.pump = .stopped
  shut : c.isOpen = false
  drained : c.buffer = []

def rested (c : Consumer) : Consumer := c.register?.getD c

def closingSteps (c : Consumer) : List Action :=
  c.pump.rest ++ c.rested.closing c.rested.unreceived.length

variable {c c' : Consumer} {b b' : Broker} {action : Action} {kept : List Delivery}

theorem actAll?_rest (c : Consumer) (b : Broker) :
    c.actAll? b c.pump.rest = some (c.rested, b) := by
  cases hpump : c.pump <;> simp [Pump.rest, actAll?, act?, rested, register?, hpump]

theorem held_rested (c : Consumer) : c.rested.pump.held = [] := by
  cases hpump : c.pump <;> simp [rested, register?, hpump, Pump.held]

theorem rested_same (c : Consumer) : c.rested.queue = c.queue ∧
    c.rested.processing = c.processing ∧ c.rested.settling = c.settling := by
  cases hpump : c.pump <;> simp [rested, register?, hpump]

theorem rested_of_held (h : c.pump.held = []) : c.rested = c ∧ c.pump.rest = [] := by
  cases hpump : c.pump with
  | holding payload =>
    rw [hpump] at h
    cases h
  | _ => simp [rested, register?, Pump.rest, hpump]

theorem completes_rest (c : Consumer) {action : Action} (h : action ∈ c.pump.rest) (d : Consumer) :
    d.completes action = true := by
  cases hpump : c.pump <;> simp_all [Pump.rest, completes]

theorem actAll?_keeps {P : Consumer → Prop}
    (turns : ∀ c b action c' b', c.Turn b action c' b' → P c → P c') {actions : List Action}
    (h : c.actAll? b actions = some (c', b')) (hc : P c) : P c' := by
  induction actions generalizing c b with
  | nil =>
    cases h
    exact hc
  | cons action actions ih =>
    rw [actAll?] at h
    obtain ⟨⟨c₁, b₁⟩, hact, hrest⟩ := Option.bind_eq_some_iff.mp h
    exact ih hrest (turns c b action c₁ b₁ (act?_turn hact) hc)

theorem completes_draining {inFlight buffer : List Delivery} {obeyed : Nat}
    (enough : (buffer.filter (· ∈ inFlight)).length ≤ obeyed) {action : Action}
    (h : action ∈ draining inFlight obeyed buffer) (c : Consumer) : c.completes action = true := by
  induction buffer generalizing obeyed with
  | nil => cases h
  | cons d buffer ih =>
    by_cases hd : d ∈ inFlight
    · rw [List.filter_cons_of_pos (by simpa using hd), List.length_cons] at enough
      obtain ⟨obeyed, rfl⟩ : ∃ n, obeyed = n + 1 := ⟨obeyed - 1, by omega⟩
      rw [draining, if_pos hd] at h
      simp only [List.cons_append, List.nil_append, List.mem_cons] at h
      rcases h with rfl | rfl | rfl | h
      · rfl
      · rfl
      · rfl
      · exact ih (Nat.le_of_succ_le_succ enough) h
    · rw [List.filter_cons_of_neg (by simpa using hd)] at enough
      rw [draining_skip hd] at h
      rcases List.mem_cons.mp h with rfl | h
      · rfl
      · exact ih enough h

theorem Turn.stopped (h : c.Turn b action c' b') (stopped : c.pump = .stopped ∧ c.isOpen = false) :
    c'.pump = .stopped ∧ c'.isOpen = false := by
  obtain ⟨hpump, hshut⟩ := stopped
  cases h with
  | acquire waits | reserve waits | claim waits => simp [hpump] at waits
  | register holds => simp [hpump] at holds
  | halt => exact ⟨rfl, rfl⟩
  | _ => exact ⟨hpump, hshut⟩

structure LeftOnly (c : Consumer) (kept : List Delivery) : Prop extends Closed c where
  inFlight : ∀ d ∈ c.inFlight, d ∈ kept
  settling : ∀ p ∈ c.settling, p.1 ∈ kept

theorem Turn.leftOnly (h : c.Turn b action c' b') (left : c.LeftOnly kept) : c'.LeftOnly kept := by
  obtain ⟨⟨hpump, hshut, hdrained⟩, inFlight, settling⟩ := left
  obtain ⟨hpump', hshut'⟩ := h.stopped ⟨hpump, hshut⟩
  cases h with
  | acquire waits | reserve waits | claim waits => simp [hpump] at waits
  | register holds => simp [hpump] at holds
  | receive first => simp [hdrained] at first
  | take how outstanding =>
    refine ⟨⟨hpump', hshut', hdrained⟩, fun d hd => inFlight d (List.mem_of_mem_erase hd), ?_⟩
    simp only [List.forall_mem_append, List.forall_mem_singleton]
    exact ⟨settling, inFlight _ outstanding⟩
  | tell taken | abandon taken =>
    exact ⟨⟨hpump', hshut', hdrained⟩, inFlight, fun p hp => settling p (List.mem_of_mem_erase hp)⟩
  | halt => exact ⟨⟨hpump', hshut', hdrained⟩, inFlight, settling⟩

theorem LeftOnly.note_claimed (left : c.LeftOnly kept) (l : Ledger) (b : Broker) (action : Action) :
    (l.note c b action).claimed = l.claimed := by
  cases action with
  | claim =>
    have hnone : c.act? b .claim = none := by simp [act?, claim?, left.stopped]
    rw [Ledger.note_of_none hnone]
  | _ => exact Ledger.note_claimed l c b (by simp)

theorem Closed.stop_eq (closed : c.Closed) : c.stop = c := by
  obtain ⟨stopped, shut, -⟩ := closed
  cases c
  cases stopped
  cases shut
  rfl

theorem Closed.closingSteps_eq (closed : c.Closed) : c.closingSteps = [.halt] := by
  have hheld : c.pump.held = [] := by rw [closed.stopped]; rfl
  obtain ⟨hrested, hrest⟩ := rested_of_held hheld
  simp [closingSteps, hrested, hrest, closing, closed.drained, draining]

end Consumer

namespace Network
variable {name : String} {n : Network} {events : List Event} {index : Nat} {c : Consumer}

theorem isUninterrupted_map {actions : List Action}
    (h : ∀ action ∈ actions, ∀ c : Consumer, c.completes action = true) (n : Network) :
    isUninterrupted name n (actions.map (.act index)) = true := by
  induction actions generalizing n with
  | nil => rfl
  | cons action actions ih =>
    obtain ⟨haction, hactions⟩ := List.forall_mem_cons.mp h
    rw [List.map_cons, isUninterrupted, ih hactions, Bool.and_true, completes]
    simp [haction]

/-- A pump that is not in the midst of a claim can be stopped, and what is in the buffer given back,
with nothing left half done. -/
theorem isUninterrupted_closing (hc : n.consumers[index]? = some c) (held : c.pump.held = []) :
    isUninterrupted name n ((c.closing c.unreceived.length).map (.act index)) = true := by
  rw [Consumer.closing, List.map_cons, isUninterrupted, Bool.and_eq_true]
  refine ⟨?_, isUninterrupted_map (fun action h => Consumer.completes_draining (Nat.le_refl _) h) _⟩
  simp only [completes, hc, Option.all_some, Consumer.completes, held, List.isEmpty_nil]

theorem run_rest (hc : (run name events).consumers[index]? = some c) :
    let before := events ++ c.pump.rest.map (.act index)
    (run name before).consumers[index]? = some c.rested ∧
      (run name before).broker = (run name events).broker ∧
      ledger name index before = ledger name index events ∧
      isUninterrupted name .empty before = isUninterrupted name .empty events := by
  intro before
  obtain ⟨hpresent, hbroker⟩ := foldl_actAll name hc (c.actAll?_rest _)
  refine ⟨(run_append ..).symm ▸ hpresent, (run_append ..).symm ▸ hbroker, ?_, ?_⟩
  · rw [ledger_append]
    cases hpump : c.pump with
    | holding payload =>
      simp only [Pump.rest, List.map_cons, List.map_nil, account, noted, hc, if_pos]
      rfl
    | _ => rfl
  · rw [isUninterrupted_append, isUninterrupted_map (fun _ => c.completes_rest), Bool.and_true]

theorem processing_perm (hc : (run name events).consumers[index]? = some c)
    (whole : isUninterrupted name .empty events = true) (held : c.pump.held = [])
    (idle : c.settling = []) :
    ((run name events).broker.list c.processing).Perm (c.inFlight.map (·.content)) := by
  have hmatched := run_matched name events whole c (List.mem_of_getElem? hc)
  simpa [Consumer.outstanding, held, idle] using hmatched

theorem run_closed (hc : (run name events).consumers[index]? = some c)
    (whole : isUninterrupted name .empty events = true) (held : c.pump.held = [])
    (idle : c.settling = []) :
    let l := ledger name index events
    let closing := (c.closing c.unreceived.length).map (.act index)
    let closed := run name (events ++ closing)
    isUninterrupted name .empty (events ++ closing) = true ∧
    closed.broker.list c.queue =
      (run name events).broker.list c.queue ++ c.unreceived.map (·.content) ∧
    ∃ c', closed.consumers[index]? = some c' ∧ c'.Closed ∧ c'.settling = [] ∧
      c'.processing = c.processing ∧ c'.inFlight.Perm l.kept ∧
      (closed.broker.list c.processing).Perm (l.kept.map (·.content)) := by
  intro l closing closed
  have tagged := run_tagged hc
  have hserves := (run_conserved name events).serves c (List.mem_of_getElem? hc)
  have hwhole : isUninterrupted name .empty (events ++ closing) = true := by
    rw [isUninterrupted_append, whole, Bool.true_and]
    exact isUninterrupted_closing hc held
  obtain ⟨c', b', hacts, hreturned, -, hinFlight, hemptied, hsettling⟩ :=
    Consumer.actAll?_closing tagged hserves.separate (run name events).broker c.unreceived.length
  obtain ⟨hpresent, hbroker⟩ := foldl_actAll name hc hacts
  rw [← run_append] at hpresent hbroker
  have hidle : c'.settling = [] := (idle ▸ hsettling).eq_nil
  have hstopped : c'.pump = .stopped ∧ c'.isOpen = false := by
    rw [Consumer.closing, Consumer.actAll?_cons rfl] at hacts
    exact Consumer.actAll?_keeps (fun _ _ _ _ _ turn => turn.stopped) hacts ⟨rfl, rfl⟩
  have hprocessing : c'.processing = c.processing :=
    Consumer.actAll?_keeps (P := fun d => d.processing = c.processing)
      (fun _ _ _ _ _ turn => turn.processing_eq.trans) hacts rfl
  -- What was in flight and not given back was handed out.
  have hkept : c'.inFlight.Perm l.kept := by
    have hperm := (run_accounts hc).inFlight_perm
    have hnodup : (l.kept ++ c.unreceived).Nodup :=
      hperm.nodup_iff.mp (List.Nodup.of_map _ tagged.distinct)
    have hnodup' : c'.inFlight.Nodup := List.Nodup.of_map _ (run_tagged hpresent).distinct
    refine (List.perm_ext_iff_of_nodup hnodup' hnodup.of_append_left).mpr fun d => ?_
    rw [hinFlight, hperm.mem_iff, List.take_of_length_le (Nat.le_succ _), List.mem_append]
    have hdisjoint : d ∈ l.kept → d ∉ c.unreceived :=
      fun h => List.disjoint_of_nodup_append hnodup h
    tauto
  refine ⟨hwhole, ?_, c', hpresent, ⟨hstopped.1, hstopped.2, hemptied (Nat.le_refl _)⟩, hidle,
    hprocessing, hkept, ?_⟩
  · rw [hbroker, hreturned, List.take_length]
  · have hheld : c'.pump.held = [] := by rw [hstopped.1]; rfl
    rw [← hprocessing]
    exact (processing_perm hpresent hwhole hheld hidle).trans (hkept.map _)

theorem foldl_leftOnly (name : String) (hc : n.consumers[index]? = some c) {kept : List Delivery}
    (left : c.LeftOnly kept) (l : Ledger) (more : List Event) :
    ∃ c', (more.foldl (step name) n).consumers[index]? = some c' ∧ c'.LeftOnly kept ∧
      c'.processing = c.processing ∧ (account name index n l more).claimed = l.claimed := by
  refine foldl_account (P := fun l' c' => c'.LeftOnly kept ∧ c'.processing = c.processing ∧
    l'.claimed = l.claimed) ?_ hc ⟨left, rfl, rfl⟩ more
  intro l' c₁ b action _ _ turn ⟨left, hprocessing, hclaimed⟩
  exact ⟨turn.leftOnly left, turn.processing_eq.trans hprocessing,
    (left.note_claimed l' b action).trans hclaimed⟩

theorem step_halt (hc : n.consumers[index]? = some c) (closed : c.Closed) :
    n.step name (.act index .halt) = n := by
  have hact : c.act? n.broker .halt = some (c, n.broker) := by
    rw [Consumer.act?, closed.stop_eq]
  have hsame : n.consumers.set index c = n.consumers := by
    obtain ⟨hlt, rfl⟩ := List.getElem?_eq_some_iff.mp hc
    exact List.set_getElem_self hlt
  simp only [step, hc, hact, hsame]
  rfl

end Network

namespace Exchange
variable {x x' : Exchange} {id : Nat} {c c' : Consumer} {d : Delivery}

theorem finish_requeue (works : x.failures .restore = 0) (stopped : c.pump = .stopped) :
    x.finish id c d .requeue =
      (.ok (), { x with broker := c.effect d .requeue x.broker }.notify.setConsumer id
        (c.settled d .requeue)) := by
  have hcall : x.callBroker .restore (c.effect d .requeue) =
      (.ok (), { x with broker := c.effect d .requeue x.broker }) := by
    rw [callBroker, refuses?, if_pos works]
  have hidle : (c.settled d .requeue).pump ≠ .acquiring := by simp [Consumer.settled, stopped]
  simp only [finish, Settlement.call, hcall, if_neg hidle]

theorem drain_succ {first rest : Consumer} {taken : Delivery} {fuel : Nat}
    (hreceive : (x.consumer? id).bind (·.receive?) = some (d, first))
    (htake : first.take? d.tag .requeue = some (taken, rest))
    (hfinish : x.finish id rest taken .requeue = (.ok (), x')) :
    drain id (fuel + 1) x = drain id fuel x' := by
  simp only [drain, hreceive, htake, hfinish]

/-- A consumer whose pump nobody will run again, where no call fails. -/
structure Hushed (x : Exchange) (id : Nat) (c : Consumer) : Prop where
  consumer : x.consumer? id = some c
  same : ∀ p ∈ x.consumers, p.1 = id → p.2 = c
  ready : ∀ w ∈ x.ready, w.consumer ≠ id
  sleepers : ∀ s ∈ x.sleepers, s.consumer ≠ id
  works : ∀ call, x.failures call = 0
  stopped : c.pump = .stopped

theorem same_setConsumer (x : Exchange) (c : Consumer) :
    ∀ p ∈ (x.setConsumer id c).consumers, p.1 = id → p.2 = c := by
  intro p hp hid
  obtain ⟨⟨i, old⟩, -, rfl⟩ := List.mem_map.mp hp
  by_cases hi : i = id
  · simp only [if_pos hi]
  · simp only [if_neg hi] at hid
    exact absurd hid hi

theorem hushed_stop (h : x.consumer? id = some c) (works : ∀ call, x.failures call = 0) :
    ((x.quiet id).setConsumer id c.stop).Hushed id c.stop where
  consumer := consumer?_setConsumer (x := x.quiet id) h c.stop
  same := same_setConsumer _ _
  ready _ hw := of_decide_eq_true (List.mem_filter.mp hw).2
  sleepers _ hs := of_decide_eq_true (List.mem_filter.mp hs).2
  works := works
  stopped := rfl

theorem Hushed.setConsumer (h : x.Hushed id c) (stopped : c'.pump = .stopped) :
    (x.setConsumer id c').Hushed id c' :=
  ⟨consumer?_setConsumer h.consumer c', same_setConsumer x c', h.ready, h.sleepers, h.works,
    stopped⟩

theorem Hushed.restored (h : x.Hushed id c) (b : Broker) :
    ({ x with broker := b }.notify).Hushed id c := by
  refine ⟨h.consumer, h.same, fun w hw => ?_, fun s hs => ?_, h.works, h.stopped⟩
  · simp only [notify, List.partition_eq_filter_filter, List.mem_append, List.mem_map,
      List.mem_filter] at hw
    rcases hw with hw | ⟨s, ⟨hs, -⟩, rfl⟩
    · exact h.ready w hw
    · exact h.sleepers s hs
  · simp only [notify, List.partition_eq_filter_filter, List.mem_filter] at hs
    exact h.sleepers s hs.1

theorem Hushed.drain (h : x.Hushed id c) (fuel : Nat) :
    ∃ c', (drain id fuel x).2.Hushed id c' := by
  induction fuel generalizing x c with
  | zero => exact ⟨c, h⟩
  | succ fuel ih =>
    cases hbuffer : c.buffer with
    | nil =>
      refine ⟨c, ?_⟩
      simpa only [Exchange.drain, h.consumer, Option.bind_some, Consumer.receive?, hbuffer] using h
    | cons d rest =>
      have hreceive : (x.consumer? id).bind (·.receive?) = some (d, c.received rest) := by
        simp only [h.consumer, Option.bind_some, Consumer.receive?, hbuffer]
        rfl
      cases htake : (c.received rest).take? d.tag .requeue with
      | none =>
        simp only [Exchange.drain, hreceive, htake]
        exact ih (h.setConsumer h.stopped)
      | some taken =>
        obtain ⟨e, c₁⟩ := taken
        obtain ⟨-, -, rfl⟩ := Consumer.take?_eq_some htake
        rw [drain_succ hreceive htake (finish_requeue (h.works .restore) h.stopped)]
        exact ih ((h.restored _).setConsumer h.stopped)

theorem close_hushed (h : x.consumer? id = some c) (works : ∀ call, x.failures call = 0) :
    ∃ c', (x.close id).2.Hushed id c' := by
  obtain ⟨c', hdrained⟩ := (hushed_stop h works).drain (c.buffer.length + 1)
  refine ⟨c', ?_⟩
  rw [close, h]
  dsimp only
  split
  · rename_i heq
    rw [heq] at hdrained
    -- Leaving word of what is in flight touches nothing else.
    split <;> exact ⟨hdrained.1, hdrained.2, hdrained.3, hdrained.4, hdrained.5, hdrained.6⟩
  · exact hdrained

theorem Hushed.close_again (h : x.Hushed id c) (closed : c.Closed) :
    ∃ journal, x.close id = (.ok (), { x with journal := journal }) := by
  have hquiet : x.quiet id = x := by
    have hready : x.ready.filter (·.consumer ≠ id) = x.ready :=
      List.filter_eq_self.mpr fun w hw => decide_eq_true (h.ready w hw)
    have hsleepers : x.sleepers.filter (·.consumer ≠ id) = x.sleepers :=
      List.filter_eq_self.mpr fun s hs => decide_eq_true (h.sleepers s hs)
    rw [quiet, hready, hsleepers]
  have hset : x.setConsumer id c = x := by
    have hsame : (x.setConsumer id c).consumers = x.consumers := by
      refine (List.map_congr_left fun p hp => ?_).trans (List.map_id' _)
      obtain ⟨i, old⟩ := p
      dsimp only
      split
      · rw [← h.same _ hp ‹_›]
      · rfl
    calc x.setConsumer id c = { x with consumers := (x.setConsumer id c).consumers } := rfl
      _ = x := by rw [hsame]
  have hdrain : Exchange.drain id (c.buffer.length + 1) x = (.ok (), x) := by
    simp only [Exchange.drain, h.consumer, Option.bind_some, Consumer.receive?, closed.drained]
  rw [close, h.consumer]
  simp only [hquiet, closed.stop_eq, hset, hdrain]
  split
  · exact ⟨x.journal, rfl⟩
  · exact ⟨_, rfl⟩

theorem receive_of_closed (h : x.consumer? id = some c) (closed : c.Closed) :
    x.receive id = (.closed, x) := by
  simp [receive, h, Consumer.receive?, closed.drained, closed.shut]

end Exchange

open Network

structure Network.SettlesOnly (name : String) (n : Network) (index : Nat) (c : Consumer) : Prop
    extends c.Closed where
  receive : ∀ x id, Exchange.consumer? x id = some c → x.receive id = (.closed, x)
  /-- Closing again is one step, which changes nothing. -/
  again : c.closingSteps = [.halt] ∧ n.step name (.act index .halt) = n
  tell : ∀ d how, (d, how) ∈ c.settling →
    c.Disposed d how n.broker (n.step name (.act index (.tell d how))).broker
  settle : ∀ x id, Shows x id n index c → (∀ call, x.failures call = 0) → ∀ d ∈ c.inFlight,
    ∀ how, ∃ x', x.settleDelivery id d.tag how = (.ok (), x') ∧
      c.Disposed d how x.broker x'.broker ∧
      ∀ how', x'.settleDelivery id d.tag how' = (.error (.unknownDelivery d.tag), x')

theorem Network.run_settlesOnly {name : String} {events : List Event} {index : Nat} {c : Consumer}
    (hc : (run name events).consumers[index]? = some c) (closed : c.Closed) :
    (run name events).SettlesOnly name index c := by
  refine ⟨closed, fun x id h => Exchange.receive_of_closed h closed,
    ⟨closed.closingSteps_eq, step_halt hc closed⟩, fun d how hd => (step_tell hc hd).2.1, ?_⟩
  intro x id shows works d hd how
  have tagged := run_tagged hc
  rcases shows.settled works d.tag how with
    ⟨hunknown, -⟩ | ⟨e, he, htag, x', hanswer, hdisposed, hafter⟩
  · exact absurd ⟨d, hd, rfl⟩ hunknown
  · obtain rfl := List.inj_on_of_nodup_map tagged.distinct he hd htag
    exact ⟨x', hanswer, hdisposed, Exchange.settleDelivery_of_not_outstanding hafter.shown
      (Consumer.not_outstanding_presented tagged he how)⟩

/-- What has become of a closed consumer at any time later. What it had in flight stays so until it
is first presented. -/
theorem Network.run_left {name : String} {events : List Event} {index : Nat} {c : Consumer}
    (hc : (run name events).consumers[index]? = some c) (closed : c.Closed) (idle : c.settling = [])
    (more : List Event) :
    let later := run name (events ++ more)
    ∃ c', later.consumers[index]? = some c' ∧ later.SettlesOnly name index c' ∧
      c'.processing = c.processing ∧
      (ledger name index (events ++ more)).claimed = (ledger name index events).claimed ∧
      (∀ d, d ∈ c'.inFlight ↔ d ∈ c.inFlight ∧ ∀ how, .act index (.take d.tag how) ∉ more) ∧
      ∀ p ∈ c'.settling, p.1 ∈ c.inFlight := by
  intro later
  have tagged := run_tagged hc
  have hleft : c.LeftOnly c.inFlight := ⟨closed, fun _ => id, by simp [idle]⟩
  obtain ⟨c', hpresent, left, hprocessing, hclaimed⟩ :=
    foldl_leftOnly name hc hleft (ledger name index events) more
  rw [← run_append] at hpresent
  rw [← ledger_append] at hclaimed
  refine ⟨c', hpresent, run_settlesOnly hpresent left.toClosed, hprocessing, hclaimed, fun d => ?_,
    left.settling⟩
  have houtstanding (hd : d ∈ c.inFlight) :
      c'.Outstanding d.tag ↔ ∀ how, .act index (.take d.tag how) ∉ more := by
    obtain ⟨c₁, hc₁, hiff⟩ := run_outstanding hc hd more
    obtain rfl := Option.some.inj (hpresent.symm.trans hc₁)
    rw [← hiff .acknowledge, Consumer.isSome_take?]
  constructor
  · intro hd
    exact ⟨left.inFlight d hd, (houtstanding (left.inFlight d hd)).mp ⟨d, hd, rfl⟩⟩
  · rintro ⟨hd, hnever⟩
    obtain ⟨e, he, htag⟩ := (houtstanding hd).mpr hnever
    exact List.inj_on_of_nodup_map tagged.distinct (left.inFlight e he) hd htag ▸ he

theorem Shows.closed {name : String} {events : List Event} {x : Exchange} {id index : Nat}
    {c : Consumer} (h : Shows x id (run name events) index c) (held : c.pump.held = [])
    (works : ∀ call, x.failures call = 0) :
    ∃ x' c', x.close id = (.ok (), x') ∧
      Shows x' id (run name (events ++ c.closingSteps.map (.act index))) index c' ∧
      x'.Hushed id c' := by
  obtain ⟨x', c', hconsumer, hclose, hacts⟩ :=
    Exchange.close_of_works h.shown (run_tagged h.present) (works .restore)
  obtain ⟨c₁, hushed⟩ := Exchange.close_hushed h.shown works
  rw [hclose] at hushed
  obtain rfl := Option.some.inj (hconsumer.symm.trans hushed.consumer)
  obtain ⟨hrested, hrest⟩ := Consumer.rested_of_held held
  refine ⟨x', c', hclose, ?_, hushed⟩
  rw [Consumer.closingSteps, hrest, hrested, List.nil_append]
  exact h.after hacts hconsumer

/-- A consumer closes, wherever its pump is, while nothing is being settled and after a run that left
nothing half done. The processing list keeps the messages that were handed out and not settled; what
else was claimed is put back to the right of the queue. From then on nothing is claimed and nothing
received, each delivery that was kept can be settled once as ever, and closing again changes nothing.
Where others take steps in between, the rest of the closing is that of a longer run. An exchange,
whose pumps never rest in the midst of a claim, closes its consumers like this. -/
theorem close_keeps_received (name : String) (events : List Event) (index : Nat) (c : Consumer)
    (hc : (run name events).consumers[index]? = some c)
    (whole : isUninterrupted name .empty events = true) (idle : c.settling = []) :
    let n := run name events
    let kept := (ledger name index events).kept
    let back := c.rested.unreceived
    let after := events ++ c.closingSteps.map (.act index)
    let closed := run name after
    isUninterrupted name .empty after = true ∧
    (n.broker.list c.processing).Perm ((kept ++ back).map (·.content)) ∧
    (closed.broker.list c.processing).Perm (kept.map (·.content)) ∧
    closed.broker.list c.queue = n.broker.list c.queue ++ back.map (·.content) ∧
    (∀ more,
      let later := run name (after ++ more)
      ∃ c', later.consumers[index]? = some c' ∧ later.SettlesOnly name index c' ∧
        c'.processing = c.processing ∧
        (ledger name index (after ++ more)).claimed = (ledger name index after).claimed ∧
        (∀ d, d ∈ c'.inFlight ↔ d ∈ kept ∧ ∀ how, .act index (.take d.tag how) ∉ more) ∧
        ∀ p ∈ c'.settling, p.1 ∈ kept) ∧
    ∀ x id, Shows x id n index c → c.pump.held = [] → (∀ call, x.failures call = 0) →
      ∃ x' c', x.close id = (.ok (), x') ∧ Shows x' id closed index c' ∧
        (∀ call, x'.failures call = 0) ∧
        ∃ journal, x'.close id = (.ok (), { x' with journal := journal }) := by
  intro n kept back after closed
  obtain ⟨hrested, hbroker, hledger, hwhole⟩ := run_rest hc
  obtain ⟨hsameQueue, hsame, hsettling⟩ := c.rested_same
  rw [← hsettling] at idle
  have hafter : after = events ++ c.pump.rest.map (.act index) ++
      (c.rested.closing c.rested.unreceived.length).map (.act index) := by
    simp only [after, Consumer.closingSteps, List.map_append, List.append_assoc]
  obtain ⟨hclosing, hqueue, c', hpresent, hclosed, hsettled, hstays, hkept, hprocessing⟩ :=
    run_closed hrested (hwhole.trans whole) c.held_rested idle
  have hbefore := processing_perm hrested (hwhole.trans whole) c.held_rested idle
  have hperm := (run_accounts hrested).inFlight_perm
  rw [← hafter] at hclosing hqueue hpresent hprocessing
  rw [hledger] at hkept hprocessing hperm
  rw [hbroker] at hqueue hbefore
  rw [hsame] at hbefore hprocessing hstays
  rw [hsameQueue] at hqueue
  refine ⟨hclosing, hbefore.trans (hperm.map _), hprocessing, hqueue, fun more => ?_,
    fun x id shows held works => ?_⟩
  · obtain ⟨c'', hlater, honly, hlists, hclaimed, hinFlight, hsettling⟩ :=
      run_left hpresent hclosed hsettled more
    refine ⟨c'', hlater, honly, hlists.trans hstays, hclaimed, fun d => ?_, fun p hp => ?_⟩
    · rw [hinFlight, hkept.mem_iff]
    · exact hkept.mem_iff.mp (hsettling p hp)
  · obtain ⟨x', c₁, hclose, hshows, hushed⟩ := shows.closed held works
    obtain rfl := Option.some.inj (hpresent.symm.trans hshows.present)
    exact ⟨x', c', hclose, hshows, hushed.works, hushed.close_again hclosed⟩

/-- The message in the buffer goes back. The one that was handed out stays until it is acknowledged,
once, after the consumer has closed. -/
theorem close_keeps_received_handedOut :
    let closed := run "r" (handedOut ++ handedConsumer.closingSteps.map (.act 0))
    let x := { Exchange.empty with
      broker := (run "r" handedOut).broker, consumers := [(0, handedConsumer)] }
    closed.broker.list (processingKey "r" ⟨1⟩) = ["1"] ∧
    closed.broker.list (waitingKey "r") = ["2"] ∧
    ∃ x', x.close 0 = (.ok (), x') ∧ x'.receive 0 = (.closed, x') ∧
      (∃ journal, x'.close 0 = (.ok (), { x' with journal := journal })) ∧
      ∃ x'', x'.settleDelivery 0 1 .acknowledge = (.ok (), x'') ∧
        x''.broker.list (processingKey "r" ⟨1⟩) = [] ∧
        x''.settleDelivery 0 1 .bury = (.error (.unknownDelivery 1), x'') := by
  intro closed x
  have hc : (run "r" handedOut).consumers[0]? = some handedConsumer := by decide +kernel
  have hkept : (ledger "r" 0 handedOut).kept = [⟨1, "1"⟩] := by decide +kernel
  have hwaiting : (run "r" handedOut).broker.list handedConsumer.queue = [] := by decide +kernel
  obtain ⟨-, -, hprocessing, hqueue, hmore, hexchange⟩ :=
    close_keeps_received "r" handedOut 0 handedConsumer hc (by decide +kernel) rfl
  rw [hkept] at hprocessing
  rw [hwaiting] at hqueue
  have hleft := List.perm_singleton.mp hprocessing
  obtain ⟨x', c', hclose, hshows, works, hagain⟩ := hexchange x 0 ⟨rfl, hc, rfl⟩ rfl fun _ => rfl
  obtain ⟨c'', hpresent, honly, hlist, -, hinFlight, -⟩ := hmore []
  rw [List.append_nil] at hpresent honly
  obtain rfl := Option.some.inj (hshows.present.symm.trans hpresent)
  have hmem : (⟨1, "1"⟩ : Delivery) ∈ c'.inFlight :=
    (hinFlight _).mpr ⟨hkept ▸ List.mem_singleton_self _, fun _ => List.not_mem_nil⟩
  obtain ⟨x'', hsettled, hdisposed, hunknown⟩ := honly.settle x' 0 hshows works _ hmem .acknowledge
  refine ⟨hleft, hqueue, x', hclose, honly.receive x' 0 hshows.shown, hagain, x'', hsettled, ?_,
    hunknown .bury⟩
  have hafter := hdisposed.processing
  rw [hlist, hshows.broker, hleft] at hafter
  exact hafter

end SandboxWorker.Queue
