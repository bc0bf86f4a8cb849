import SandboxWorker.Proofs.Queue.Failures
/-! What a consumer has done so far, as a ledger kept beside a run. Messages are numbered as they
are claimed and handed out in this order; and whatever was registered is in flight or was taken,
once. -/
namespace SandboxWorker.Queue

structure Ledger where
  /-- The messages that its pump claimed. -/
  claimed : List String
  handed : List Delivery
  /-- The deliveries that it was known to have outstanding when their tag was presented. -/
  taken : List Delivery

namespace Ledger

def empty : Ledger := ⟨[], [], []⟩

/-- The ledger after a step; one that is not possible leaves no trace. -/
def note (l : Ledger) (c : Consumer) (b : Broker) : Action → Ledger
  | .claim =>
    match c.claim? b with
    | some (c, _) => { l with claimed := l.claimed ++ c.pump.held }
    | none => l
  | .receive =>
    match c.receive? with
    | some (d, _) => { l with handed := l.handed ++ [d] }
    | none => l
  | .take tag how =>
    match c.take? tag how with
    | some (d, _) => { l with taken := l.taken ++ [d] }
    | none => l
  | _ => l

def kept (l : Ledger) : List Delivery := l.handed.filter (· ∉ l.taken)

/-- A ledger that agrees with its consumer. A pump that is stopped may forget what it claimed. -/
structure Accounts (l : Ledger) (c : Consumer) : Prop where
  numbered : (l.handed ++ c.buffer).map (·.tag) = List.range' 1 c.lastTag
  claimed : ∃ lost, l.claimed = (l.handed ++ c.buffer).map (·.content) ++ c.pump.held ++ lost ∧
    (lost = [] ∨ c.pump = .stopped)
  outstanding : (l.handed ++ c.buffer).Perm (c.inFlight ++ l.taken)

variable {l : Ledger} {c c' : Consumer} {b b' : Broker} {action : Action}

theorem note_of_none (h : c.act? b action = none) : l.note c b action = l := by
  cases action with
  | claim =>
    simp only [Consumer.act?] at h
    simp only [note, h]
  | receive =>
    simp only [Consumer.act?, Option.map_eq_none_iff] at h
    simp only [note, h]
  | take tag how =>
    simp only [Consumer.act?, Option.map_eq_none_iff] at h
    simp only [note, h]
  | _ => rfl

theorem note_claimed (l : Ledger) (c : Consumer) (b : Broker) (h : action ≠ .claim) :
    (l.note c b action).claimed = l.claimed := by
  cases action with
  | claim => exact absurd rfl h
  | receive | take =>
    rw [note]
    split <;> rfl
  | _ => rfl

theorem accounts_start (queue processing deadLetter : String) (prefetch : Nat) :
    empty.Accounts (.start queue processing deadLetter prefetch) :=
  ⟨rfl, ⟨[], rfl, .inl rfl⟩, .refl _⟩

theorem Accounts.note (accounts : l.Accounts c) (h : c.Turn b action c' b') (tagged : c.Tagged) :
    (l.note c b action).Accounts c' := by
  obtain ⟨numbered, ⟨lost, claimed, forgets⟩, outstanding⟩ := accounts
  -- Only a stopped pump forgets, and a stopped pump takes no step.
  have hkept : c.pump ≠ .stopped → lost = [] := fun h => forgets.resolve_right h
  cases h with
  | acquire waits free =>
    rw [waits] at claimed hkept
    exact ⟨numbered, ⟨lost, claimed, .inl (hkept (by simp))⟩, outstanding⟩
  | reserve waits room =>
    rw [waits] at claimed hkept
    exact ⟨numbered, ⟨lost, claimed, .inl (hkept (by simp))⟩, outstanding⟩
  | @claim payload front waits last =>
    have hnote : l.note c b .claim = { l with claimed := l.claimed ++ [payload] } := by
      simp [Ledger.note, Consumer.claim?, Broker.claim?, waits, last, Pump.held]
    rw [waits] at claimed hkept
    rw [hnote]
    refine ⟨numbered, ⟨[], ?_, .inl rfl⟩, outstanding⟩
    simp [claimed, hkept (by simp), Pump.held]
  | @register payload holds =>
    rw [holds] at claimed hkept
    refine ⟨?_, ⟨lost, ?_, .inl (hkept (by simp))⟩, ?_⟩
    · change (l.handed ++ (c.buffer ++ _)).map _ = _
      rw [← List.append_assoc, List.map_append, numbered, List.range'_concat]
      simp [Nat.add_comm]
    · simp [Ledger.note, claimed, Pump.held]
    · change (l.handed ++ (c.buffer ++ _)).Perm (c.inFlight ++ _ ++ l.taken)
      rw [← List.append_assoc, List.append_assoc c.inFlight]
      exact (outstanding.append_right _).trans
        (by rw [List.append_assoc]; exact List.perm_append_comm.append_left _)
  | @receive d rest first =>
    have hnote : l.note c b .receive = { l with handed := l.handed ++ [d] } := by
      simp [Ledger.note, Consumer.receive?, first]
    have hsame : l.handed ++ c.buffer = l.handed ++ [d] ++ rest := by simp [first]
    rw [hsame] at numbered claimed outstanding
    rw [hnote]
    exact ⟨numbered, ⟨lost, claimed, forgets⟩, outstanding⟩
  | @take d how hmem =>
    have hnote : l.note c b (.take d.tag how) = { l with taken := l.taken ++ [d] } := by
      simp [Ledger.note, Consumer.take?_of_mem tagged hmem]
    rw [hnote]
    refine ⟨numbered, ⟨lost, claimed, forgets⟩, outstanding.trans ?_⟩
    refine ((List.perm_cons_erase hmem).append_right _).trans ?_
    rw [← List.append_assoc]
    exact (List.perm_append_singleton _ _).symm
  | tell taken => exact ⟨numbered, ⟨lost, claimed, forgets⟩, outstanding⟩
  | abandon taken => exact ⟨numbered, ⟨lost, claimed, forgets⟩, outstanding⟩
  | halt =>
    refine ⟨numbered, ⟨c.pump.held ++ lost, ?_, .inr rfl⟩, outstanding⟩
    simp [Ledger.note, claimed, Consumer.stop, Pump.held]

/-- The tags of all that was handed out or waits in the buffer are the numbers of the messages. -/
theorem Accounts.nodup_tags (h : l.Accounts c) : ((l.handed ++ c.buffer).map (·.tag)).Nodup := by
  rw [h.numbered]
  exact List.nodup_range'

theorem Accounts.mem_iff (h : l.Accounts c) (d : Delivery) :
    d ∈ c.inFlight ↔ d ∈ l.handed ++ c.buffer ∧ d ∉ l.taken := by
  have hnodup : (c.inFlight ++ l.taken).Nodup :=
    h.outstanding.nodup_iff.mp (List.Nodup.of_map _ h.nodup_tags)
  rw [h.outstanding.mem_iff, List.mem_append]
  constructor
  · intro hd
    exact ⟨.inl hd, fun htaken => (List.disjoint_of_nodup_append hnodup) hd htaken⟩
  · rintro ⟨hd | hd, hnot⟩
    · exact hd
    · exact absurd hd hnot

theorem Accounts.inFlight_perm (h : l.Accounts c) : c.inFlight.Perm (l.kept ++ c.unreceived) := by
  have hall : (l.handed ++ c.buffer).Nodup := List.Nodup.of_map _ h.nodup_tags
  have hnodup : c.inFlight.Nodup := (h.outstanding.nodup_iff.mp hall).of_append_left
  have hsublist : (l.kept ++ c.unreceived).Sublist (l.handed ++ c.buffer) :=
    List.filter_sublist.append List.filter_sublist
  refine (List.perm_ext_iff_of_nodup hnodup (hall.sublist hsublist)).mpr fun d => ?_
  have hmem := h.mem_iff d
  simp only [kept, Consumer.unreceived, List.mem_append, List.mem_filter, decide_eq_true_eq]
    at hmem ⊢
  tauto

theorem Accounts.nodup_taken (h : l.Accounts c) : (l.taken.map (·.tag)).Nodup := by
  have hnodup := (h.outstanding.map (·.tag)).nodup_iff.mp h.nodup_tags
  rw [List.map_append] at hnodup
  exact hnodup.of_append_right

theorem Accounts.getElem?_handed (h : l.Accounts c) {k : Nat} {d : Delivery}
    (hd : l.handed[k]? = some d) : d.tag = k + 1 ∧ l.claimed[k]? = some d.content := by
  obtain ⟨lost, claimed, -⟩ := h.claimed
  have hlt := (List.getElem?_eq_some_iff.mp hd).1
  have hboth : (l.handed ++ c.buffer)[k]? = some d := by rw [List.getElem?_append_left hlt, hd]
  constructor
  · have htag : (List.range' 1 c.lastTag)[k]? = some d.tag := by
      rw [← h.numbered, List.getElem?_map, hboth, Option.map_some]
    obtain ⟨_, hget⟩ := List.getElem?_eq_some_iff.mp htag
    rw [List.getElem_range'] at hget
    omega
  · rw [claimed, List.append_assoc, List.getElem?_append_left (by simp; omega), List.getElem?_map,
      hboth, Option.map_some]

end Ledger

namespace Network
variable {name : String} {n : Network} {index : Nat} {c : Consumer} {l : Ledger}

def noted (index : Nat) (n : Network) (l : Ledger) : Event → Ledger
  | .act i action =>
    if i = index then (n.consumers[i]?.map (l.note · n.broker action)).getD l else l
  | _ => l

def account (name : String) (index : Nat) : Network → Ledger → List Event → Ledger
  | _, l, [] => l
  | n, l, event :: events => account name index (n.step name event) (n.noted index l event) events

def ledger (name : String) (index : Nat) (events : List Event) : Ledger :=
  account name index .empty .empty events

theorem account_append (n : Network) (l : Ledger) (events more : List Event) :
    account name index n l (events ++ more) =
      account name index (events.foldl (step name) n) (account name index n l events) more := by
  induction events generalizing n l with
  | nil => rfl
  | cons event events ih => rw [List.cons_append, account, ih, account, List.foldl_cons]

theorem ledger_append (events more : List Event) : ledger name index (events ++ more) =
    account name index (run name events) (ledger name index events) more :=
  account_append ..

structure Accounted (n : Network) (index : Nat) (l : Ledger) : Prop where
  accounts : ∀ c, n.consumers[index]? = some c → c.Tagged ∧ l.Accounts c
  unused : n.consumers[index]? = none → l = .empty

theorem step_noted (name : String) (hc : n.consumers[index]? = some c) (event : Event) :
    ((n.step name event).consumers[index]? = some c ∧ ∀ l, n.noted index l event = l) ∨
    ∃ action c' b', c.Turn n.broker action c' b' ∧
      (n.step name event).consumers[index]? = some c' ∧
      ∀ l, n.noted index l event = l.note c n.broker action := by
  rcases step_consumer name hc event with
    ⟨hsame, hidle⟩ | ⟨action, c', b', rfl, hact, hafter, -⟩
  · refine .inl ⟨hsame, fun l => ?_⟩
    cases event with
    | publish payload => rfl
    | join id prefetch => rfl
    | act i action =>
      by_cases hi : i = index
      · subst hi
        rw [noted, if_pos rfl, hc]
        exact Ledger.note_of_none (hidle action rfl)
      · rw [noted, if_neg hi]
  · refine .inr ⟨action, c', b', Consumer.act?_turn hact, hafter, fun l => ?_⟩
    rw [noted, if_pos rfl, hc]
    rfl

theorem foldl_account {P : Ledger → Consumer → Prop}
    (turns : ∀ l c b action c' b', c.Turn b action c' b' → P l c → P (l.note c b action) c')
    (hc : n.consumers[index]? = some c) (h : P l c) (events : List Event) :
    ∃ c', (events.foldl (step name) n).consumers[index]? = some c' ∧
      P (account name index n l events) c' := by
  induction events generalizing n l c with
  | nil => exact ⟨c, hc, h⟩
  | cons event events ih =>
    rw [List.foldl_cons, account]
    rcases step_noted name hc event with
      ⟨hsame, hnoted⟩ | ⟨action, c', b', turn, hafter, hnoted⟩
    · exact ih hsame ((hnoted l).symm ▸ h)
    · exact ih hafter ((hnoted l).symm ▸ turns l c _ action c' b' turn h)

theorem join_accounted (h : n.Accounted index l) (id : Uuid) (prefetch : Nat) :
    (n.step name (.join id prefetch)).Accounted index l := by
  rw [step]
  split
  · exact h
  · rcases Nat.lt_trichotomy index n.consumers.length with hlt | rfl | hgt
    · have hsame : ∀ c, (n.consumers ++ [c])[index]? = n.consumers[index]? :=
        fun c => List.getElem?_append_left hlt
      exact ⟨fun c hc => h.accounts c (hsame _ ▸ hc), fun hnone => h.unused (hsame _ ▸ hnone)⟩
    · constructor
      · intro c hc
        rw [List.getElem?_concat_length] at hc
        cases hc
        rw [h.unused (List.getElem?_length _)]
        exact ⟨Consumer.start_tagged .., Ledger.accounts_start ..⟩
      · intro hnone
        rw [List.getElem?_concat_length] at hnone
        cases hnone
    · have hbeyond : ∀ c, (n.consumers ++ [c])[index]? = none := by
        intro c
        rw [List.getElem?_eq_none_iff, List.length_append, List.length_singleton]
        exact hgt
      refine ⟨fun c hc => ?_, fun _ => h.unused (List.getElem?_eq_none (Nat.le_of_lt hgt))⟩
      rw [hbeyond] at hc
      cases hc

theorem step_accounted (h : n.Accounted index l) (event : Event) :
    (n.step name event).Accounted index (n.noted index l event) := by
  cases hc : n.consumers[index]? with
  | some c =>
    obtain ⟨tagged, accounts⟩ := h.accounts c hc
    obtain ⟨c', hafter, hboth⟩ := foldl_account (P := fun l c => c.Tagged ∧ l.Accounts c)
      (fun _ _ _ _ _ _ turn both => ⟨turn.tagged both.1, both.2.note turn both.1⟩) hc
      ⟨tagged, accounts⟩ [event]
    constructor
    · intro d hd
      obtain rfl := Option.some.inj (hafter.symm.trans hd)
      exact hboth
    · intro hnone
      rw [List.foldl_cons, List.foldl_nil, hnone] at hafter
      cases hafter
  | none =>
    cases event with
    | publish payload => exact ⟨h.accounts, h.unused⟩
    | join id prefetch => exact join_accounted h id prefetch
    | act i action =>
      have hstays : (n.step name (.act i action)).consumers[index]? = none := by
        by_cases hi : i = index
        · subst hi
          simp only [step, hc]
        · rw [getElem?_step_of_ne hi, hc]
      have hnoted : n.noted index l (.act i action) = l := by
        rw [noted]
        split
        · subst_vars
          rw [hc]
          rfl
        · rfl
      rw [hnoted]
      exact ⟨fun c hc => (by rw [hstays] at hc; cases hc), fun _ => h.unused hc⟩

theorem run_accounted (name : String) (index : Nat) (events : List Event) :
    (run name events).Accounted index (ledger name index events) := by
  induction events using List.reverseRecOn with
  | nil => exact ⟨fun _ hc => (nomatch hc), fun _ => rfl⟩
  | append_singleton events event ih =>
    rw [ledger_append, run_append]
    exact step_accounted ih event

theorem run_accounts {events : List Event} (h : (run name events).consumers[index]? = some c) :
    (ledger name index events).Accounts c :=
  ((run_accounted name index events).accounts c h).2

end Network
end SandboxWorker.Queue
