import SandboxWorker.Proofs.Worker.Reporting
/-! How a worker settles its deliveries: each one once, for good, and with an acknowledgement
exactly if the verdict on its execution got across first. -/
namespace SandboxWorker.Worker
open Program
universe v

def usesEngineOrStore {γ : Type} : Call γ → Bool
  | .engine _ | .engineBefore .. | .upload .. | .download .. => true
  | _ => false

def Acknowledges (tag : Nat) (s : Step Call) : Prop := ∃ answer, s = ⟨.acknowledge tag, answer⟩

/-- A rejection for good: what is rejected so does not come back. -/
def Rejects (tag : Nat) (s : Step Call) : Prop := ∃ answer, s = ⟨.reject tag false, answer⟩

theorem Rejects.not_acknowledges {tag : Nat} {s : Step Call} (h : Rejects tag s) :
    ¬Acknowledges tag s := by
  intro hacknowledges
  obtain ⟨a, ha⟩ := h
  obtain ⟨b, hb⟩ := hacknowledges
  rw [ha] at hb
  cases hb

section Announced
variable (config : WorkerConfig) (looks : Nat) (d : Queue.Delivery)

/-- The verdict on the execution that a delivery asks for got across. -/
def Announced (steps : List (Step Call)) : Prop :=
  ∃ request early event late, requestOf d.content = some request ∧
    steps = early ++ ⟨.send (.finished event), .ok ()⟩ :: late ∧
    Outcome config looks request.id early event

/-- These steps settle a delivery, by this one of them. -/
structure SettledBy (before : List (Step Call)) (settlement : Step Call)
    (after : List (Step Call)) : Prop where
  once : settlements (before ++ settlement :: after) = [settlement]
  kind : Acknowledges d.tag settlement ∨ Rejects d.tag settlement
  acknowledges_iff : Acknowledges d.tag settlement ↔ Announced config looks d before
  acknowledged : Acknowledges d.tag settlement → attempted after = []
  unannounced : Rejects d.tag settlement → ∀ f, .finished f ∉ told before
  /-- All that is said after a rejection is that the request could not be worked on. -/
  rejected : Rejects d.tag settlement → attempted after = [] ∨
    ∃ request now, requestOf d.content = some request ∧
      attempted after = [.finished (.internalError request.id now)]

variable {config looks d} {steps before after : List (Step Call)}

theorem Announced.finished_told (h : Announced config looks d steps) :
    ∃ f, .finished f ∈ told steps := by
  obtain ⟨request, early, event, late, -, hsteps, -⟩ := h
  refine ⟨event, ?_⟩
  rw [hsteps, told_append, told_cons_sent]
  exact List.mem_append_right _ List.mem_cons_self

theorem settlements_split {s : Step Call} (hs : isSettlement s = true)
    (hbefore : settlements before = []) (hafter : settlements after = []) :
    settlements (before ++ s :: after) = [s] := by
  have hcons : settlements (s :: after) = s :: settlements after := List.filter_cons_of_pos hs
  rw [settlements_append, hbefore, hcons, hafter, List.nil_append]

theorem SettledBy.of_acknowledged {answer : Except Queue.QueueError Unit}
    (hannounced : Announced config looks d before) (hbefore : settlements before = [])
    (hafter : Asides after) :
    SettledBy config looks d before ⟨.acknowledge d.tag, answer⟩ after where
  once := settlements_split rfl hbefore hafter.settlements_eq
  kind := .inl ⟨answer, rfl⟩
  acknowledges_iff := iff_of_true ⟨answer, rfl⟩ hannounced
  acknowledged _ := hafter.attempted_eq
  unannounced h := absurd ⟨answer, rfl⟩ h.not_acknowledges
  rejected h := absurd ⟨answer, rfl⟩ h.not_acknowledges

theorem SettledBy.of_rejected {answer : Except Queue.QueueError Unit}
    (htold : ∀ f, .finished f ∉ told before) (hbefore : settlements before = [])
    (hafter : settlements after = [])
    (hattempted : attempted after = [] ∨ ∃ request now, requestOf d.content = some request ∧
      attempted after = [.finished (.internalError request.id now)]) :
    SettledBy config looks d before ⟨.reject d.tag false, answer⟩ after := by
  have hrejects : Rejects d.tag ⟨.reject d.tag false, answer⟩ := ⟨answer, rfl⟩
  refine ⟨settlements_split rfl hbefore hafter, .inr hrejects, ?_, ?_, fun _ => htold,
    fun _ => hattempted⟩
  · refine iff_of_false hrejects.not_acknowledges fun hannounced => ?_
    obtain ⟨f, hf⟩ := hannounced.finished_told
    exact htold f hf
  · exact fun h => absurd h hrejects.not_acknowledges

end Announced

section Settling
variable {config : WorkerConfig} {looks : Nat} {id : ExecutionId} {d : Queue.Delivery}
variable {steps : List (Step Call)}

@[simp] theorem settlements_nil : settlements [] = [] := rfl

@[simp] theorem settlements_cons_send (e : ExecutionEvent) (answer : Except Queue.QueueError Unit)
    (steps : List (Step Call)) : settlements (⟨.send e, answer⟩ :: steps) = settlements steps := rfl

theorem Ending.settlements_eq {result : Option (Except Failure Unit)}
    (h : Ending config looks id steps result) : settlements steps = [] := by
  cases h with
  | broken asides e => exact asides.settlements_eq
  | left asides looked => exact asides.settlements_eq
  | announced outcome asides answer asides_after =>
    rw [settlements_append, settlements_cons_send, asides.settlements_eq,
      asides_after.settlements_eq, List.nil_append]

theorem Course.settlements_eq {result : Option (Except Failure Unit)}
    (h : Course config looks id steps result) : settlements steps = [] := by
  cases h with
  | unstarted asides e => exact asides.settlements_eq
  | unsent asides now e =>
    rw [settlements_append, settlements_cons_send, asides.settlements_eq, settlements_nil,
      List.nil_append]
  | started asides now ending =>
    rw [settlements_append, settlements_cons_send, asides.settlements_eq, ending.settlements_eq,
      List.nil_append]

theorem Course.verdict_sent (h : Course config looks id steps (some (.ok ()))) :
    ∃ early event late, steps = early ++ ⟨.send (.finished event), .ok ()⟩ :: late ∧
      Outcome config looks id early event := by
  generalize hresult : some (Except.ok ()) = result at h
  cases h with
  | unstarted asides e => cases hresult
  | unsent asides now e => cases hresult
  | started asides now ending =>
    cases ending with
    | broken asides e => cases hresult
    | left asides looked => cases hresult
    | announced outcome asides' answer asides_after =>
      cases answer with
      | error e => cases hresult
      | ok a =>
        rw [← List.cons_append, ← List.append_assoc]
        exact ⟨_, _, _, rfl, (outcome.append [_]).append _⟩

theorem Course.unannounced {e : Failure} (h : Course config looks id steps (some (.error e))) :
    ∀ f, .finished f ∉ told steps := by
  intro f hf
  obtain ⟨start, -, ⟨htold, -⟩ | ⟨g, -, -, hresult⟩⟩ := h.told_eq
  · rw [htold, finished_mem_account] at hf
    cases hf
  · cases hresult

theorem settled_of_request {request : RequestedEvent} {course closing : List (Step Call)}
    {outcome : Except Failure Unit} (hd : requestOf d.content = some request)
    (hcourse : Course config looks request.id course (some outcome))
    (hclosing : Closing d.tag request.id outcome closing) :
    ∃ before settlement after, course ++ closing = before ++ settlement :: after ∧
      SettledBy config looks d before settlement after := by
  have hsettlements := hcourse.settlements_eq
  cases hclosing with
  | @acknowledged after answer asides =>
    refine ⟨course, _, after, rfl, .of_acknowledged ?_ hsettlements asides⟩
    obtain ⟨early, event, late, hsteps, houtcome⟩ := hcourse.verdict_sent
    exact ⟨request, early, event, late, hd, hsteps, houtcome⟩
  | @rejected before middle after e asides answer asides_middle now sent asides_after =>
    refine ⟨course ++ before, _, _, (List.append_assoc ..).symm, .of_rejected ?_ ?_ ?_ ?_⟩
    · rw [told_append, asides.told_eq, List.append_nil]
      exact hcourse.unannounced
    · rw [settlements_append, hsettlements, asides.settlements_eq, List.nil_append]
    · rw [settlements_append, settlements_cons_send, asides_middle.settlements_eq,
        asides_after.settlements_eq, List.nil_append]
    · refine .inr ⟨request, now, hd, ?_⟩
      rw [attempted_append, attempted_cons_send, asides_middle.attempted_eq,
        asides_after.attempted_eq, List.nil_append]

theorem settled_of_no_request {before after : List (Step Call)}
    {answer : Except Queue.QueueError Unit} (hbefore : Entries before) (hafter : Entries after) :
    SettledBy config looks d before ⟨.reject d.tag false, answer⟩ after := by
  refine .of_rejected (fun f hf => ?_) hbefore.asides.settlements_eq hafter.asides.settlements_eq ?_
  · rw [hbefore.asides.told_eq] at hf
    cases hf
  · exact .inl hafter.asides.attempted_eq

theorem Entries.not_usesEngineOrStore (h : Entries steps) :
    ∀ s ∈ steps, usesEngineOrStore s.call = false := by
  intro s hs
  obtain ⟨entry, rfl⟩ := h s hs
  rfl

end Settling

/-- Every run of handling a delivery that comes to its end settles it once, and all do where the
clock goes on and a worker may look often enough. Where there is no request, neither the engine nor
the store is asked for anything. -/
theorem settled_handle (config : WorkerConfig) (looks : Nat) (d : Queue.Delivery) {σ : Type v}
    (answer : {γ : Type} → Call γ → σ → γ × σ) (s : σ) :
    let steps := (handle config looks d).trace answer s
    let result := ((handle config looks d).run answer s).1
    (match result with
      | some () => ∃ before settlement after, steps = before ++ settlement :: after ∧
          SettledBy config looks d before settlement after
      | none => settlements steps = [] ∧ looks ≤ inspections steps ∧
          ∀ (clock : σ → Nat) (pace : Nat), Ticking answer clock pace s →
            ¬Ample config looks pace) ∧
    (requestOf d.content = none → ∀ s ∈ steps, usesEngineOrStore s.call = false) := by
  intro steps result
  have hruns : (handle config looks d).Runs steps result := runs_trace answer _ s
  have hends : result = none → ∀ (clock : σ → Nat) (pace : Nat), Ticking answer clock pace s →
      ¬Ample config looks pace :=
    fun hnone clock pace hticking ample => handle_ends hticking ample d hnone
  cases hd : requestOf d.content with
  | none =>
    obtain ⟨before, a, after, hsteps, hbefore, hafter, hresult⟩ :=
      handle_runs_of_no_request hd hruns
    rw [hresult, hsteps]
    refine ⟨⟨before, _, after, rfl, settled_of_no_request hbefore hafter⟩, fun _ => ?_⟩
    refine List.forall_mem_append.mpr ⟨hbefore.not_usesEngineOrStore, ?_⟩
    exact List.forall_mem_cons.mpr ⟨rfl, hafter.not_usesEngineOrStore⟩
  | some request =>
    refine ⟨?_, nofun⟩
    rcases handle_runs hd hruns with ⟨hresult, course⟩ |
      ⟨outcome, course, closing, hresult, hsteps, hcourse, hclosing⟩
    · have hnone := hends hresult
      rw [hresult]
      exact ⟨course.settlements_eq, course.looked rfl, hnone⟩
    · rw [hresult, hsteps]
      exact settled_of_request hd hcourse hclosing

end SandboxWorker.Worker
