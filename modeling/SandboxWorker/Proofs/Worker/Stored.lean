import SandboxWorker.Proofs.Storage.LogKeys
import SandboxWorker.Proofs.Storage.Objects
import SandboxWorker.Proofs.Worker.Chores
/-! What becomes of the objects in a store that a worker uses: an append reads a log and stores it
with more at its end, and whatever stores nothing leaves the store as it is. -/
namespace SandboxWorker.Worker
open Program Storage
universe v

/-- Surroundings with this store in them; all but the store is up to others. -/
def withStore {σ : Type v} (others : {γ : Type} → Call γ → σ → γ × σ) {γ : Type} :
    Call γ → σ × Store → γ × (σ × Store)
  | .upload bucket key content, (s, store) =>
    ((store.upload bucket (some content) key).1, s, (store.upload bucket (some content) key).2)
  | .download bucket key, (s, store) => (store.download bucket key true, s, store)
  | c, (s, store) => ((others c s).1, (others c s).2, store)

def Answers (store next : Store) {γ : Type} : Call γ → γ → Prop
  | .upload bucket key content, answer => store.upload bucket (some content) key = (answer, next)
  | .download bucket key, answer => store.download bucket key true = answer ∧ next = store
  | _, _ => next = store

/-- A store answers these steps and is then this one. -/
inductive Stored : Store → List (Step Call) → Store → Prop where
  | nil (store : Store) : Stored store [] store
  | cons {γ : Type} {c : Call γ} {answer : γ} {store next last : Store} {rest : List (Step Call)}
    (h : Answers store next c answer) (more : Stored next rest last) :
    Stored store (⟨c, answer⟩ :: rest) last

theorem answers_withStore {σ : Type v} (others : {γ : Type} → Call γ → σ → γ × σ) {γ : Type}
    (c : Call γ) (s : σ × Store) :
    Answers s.2 (withStore others c s).2.2 c (withStore others c s).1 := by
  cases c with
  | download bucket key => exact ⟨rfl, rfl⟩
  | _ => rfl

theorem stored_trace {α : Type} {σ : Type v} (others : {γ : Type} → Call γ → σ → γ × σ)
    (p : Program Call α) (s : σ × Store) :
    Stored s.2 (p.trace (withStore others) s) (p.run (withStore others) s).2.2 := by
  induction p generalizing s with
  | done a => exact .nil _
  | unfinished => exact .nil _
  | call c next ih => exact .cons (answers_withStore others c s) (ih _ _)

namespace Stored
variable {store last : Store} {steps a b : List (Step Call)}

theorem append_iff :
    Stored store (a ++ b) last ↔ ∃ middle, Stored store a middle ∧ Stored middle b last := by
  constructor
  · intro h
    induction a generalizing store with
    | nil => exact ⟨store, .nil _, h⟩
    | cons s a ih =>
      cases h with
      | cons hs more =>
        obtain ⟨middle, ha, hb⟩ := ih more
        exact ⟨middle, .cons hs ha, hb⟩
  · intro ⟨middle, ha, hb⟩
    induction ha with
    | nil store => exact hb
    | cons hs more ih => exact .cons hs (ih hb)

theorem of_upload {bucket key : String} {content : Bytes} {answer : Except StoreError Unit}
    (h : Stored store (⟨.upload bucket key content, answer⟩ :: steps) last) :
    ∃ next, store.upload bucket (some content) key = (answer, next) ∧ Stored next steps last := by
  cases h with
  | cons hs more => exact ⟨_, hs, more⟩

theorem of_download {bucket key : String} {answer : Except StoreError Bytes}
    (h : Stored store (⟨.download bucket key, answer⟩ :: steps) last) :
    store.download bucket key true = answer ∧ Stored store steps last := by
  cases h with
  | cons hs more =>
    obtain ⟨hanswer, rfl⟩ := hs
    exact ⟨hanswer, more⟩

theorem of_cons {s : Step Call} (h : Stored store (s :: steps) last)
    (hs : isUpload s.call = false) : Stored store steps last := by
  cases h with
  | @cons γ c answer _ next _ _ hanswers more =>
    have hnext : next = store := by
      cases c with
      | upload bucket key content => cases hs
      | download bucket key => exact hanswers.2
      | _ => exact hanswers
    rw [← hnext]
    exact more

theorem eq_of_bystanders (h : Stored store steps last) (hsteps : ∀ s ∈ steps, Bystander s) :
    last = store := by
  induction steps generalizing store with
  | nil =>
    cases h
    rfl
  | cons s steps ih =>
    have hs := hsteps s List.mem_cons_self
    exact ih (h.of_cons hs.1) fun t ht => hsteps t (List.mem_cons_of_mem s ht)

theorem of_append (h : Stored store (a ++ b) last) (ha : ∀ s ∈ a, Bystander s) :
    Stored store b last := by
  obtain ⟨middle, hfirst, hsecond⟩ := append_iff.mp h
  rw [← hfirst.eq_of_bystanders ha]
  exact hsecond

end Stored
end SandboxWorker.Worker
