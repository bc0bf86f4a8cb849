import SandboxWorker.Proofs.Worker.Appending
/-! How watching a container follows its output: each reading goes on where the last one ended, and
each batch is appended before the next reading is asked for. -/
namespace SandboxWorker.Worker
open Program Storage

/-! ### Batches of a run -/

def replied {α : Type} : EngineCall α → α → Option LogBatch
  | .logs .., reply => if isSuccess reply.status then some reply.logs else none
  | _, _ => none

def batch? {γ : Type} : Call γ → γ → Option LogBatch
  | .engine c, .ok reply => replied c reply
  | .engineBefore _ c, some (.ok reply) => replied c reply
  | _, _ => none

/-- The batch that a step read; none if the deadline came first or there was nothing to read. -/
def batchOf (s : Step Call) : Option LogBatch := batch? s.call s.answer

def batches (steps : List (Step Call)) : List LogBatch := steps.filterMap batchOf

def cursorAfter (bs : List LogBatch) : Option Instant := bs.getLast?.bind (·.lastTimestamp)

/-- Every reading goes on where the batch before it ended; these were read before. -/
def Followed : List LogBatch → List (Step Call) → Prop
  | _, [] => True
  | bs, s :: steps =>
    (∀ since, sinceOf s = some since → since = cursorAfter bs) ∧
      Followed (bs ++ (batchOf s).toList) steps

def Unread (steps : List (Step Call)) : Prop := ∀ s ∈ steps, sinceOf s = none

theorem replied_of_since? {α : Type} {c : EngineCall α} (a : α)
    (h : since? (.engine c) = none) : replied c a = none := by
  cases c with
  | logs container since => cases h
  | _ => rfl

theorem batchOf_of_sinceOf {s : Step Call} (h : sinceOf s = none) : batchOf s = none := by
  obtain ⟨c, answer⟩ := s
  cases c with
  | engine c =>
    cases answer with
    | ok a => exact replied_of_since? a h
    | error e => rfl
  | engineBefore deadline c =>
    rcases answer with _ | e | a
    · rfl
    · rfl
    · exact replied_of_since? a h
  | _ => rfl

@[simp] theorem batches_nil : batches [] = [] := rfl

theorem batches_cons (s : Step Call) (steps : List (Step Call)) :
    batches (s :: steps) = (batchOf s).toList ++ batches steps := by
  unfold batches
  rw [List.filterMap_cons]
  cases batchOf s <;> rfl

@[simp] theorem batches_append (a b : List (Step Call)) :
    batches (a ++ b) = batches a ++ batches b := List.filterMap_append

/-- No batch of a run has text without frames. -/
def AllPlain (steps : List (Step Call)) : Prop := ∀ b ∈ batches steps, Plain b

theorem allPlain_append {a b : List (Step Call)} :
    AllPlain (a ++ b) ↔ AllPlain a ∧ AllPlain b := by
  unfold AllPlain
  rw [batches_append]
  exact List.forall_mem_append

theorem AllPlain.of_cons {s : Step Call} {steps : List (Step Call)} (h : AllPlain (s :: steps)) :
    AllPlain steps := by
  rw [← List.singleton_append, allPlain_append] at h
  exact h.2

namespace Unread
variable {a b steps : List (Step Call)}

theorem batches_eq (h : Unread steps) : batches steps = [] :=
  List.filterMap_eq_nil_iff.mpr fun s hs => batchOf_of_sinceOf (h s hs)

theorem nil : Unread [] := fun _ h => (List.not_mem_nil h).elim

theorem of_bystanders (h : ∀ s ∈ steps, Bystander s) : Unread steps := fun s hs => (h s hs).2

theorem append (ha : Unread a) (hb : Unread b) : Unread (a ++ b) := by
  intro s hs
  rcases List.mem_append.mp hs with hs | hs
  · exact ha s hs
  · exact hb s hs

theorem followed (h : Unread steps) (bs : List LogBatch) : Followed bs steps := by
  induction steps generalizing bs with
  | nil => trivial
  | cons s steps ih =>
    have hs := h s List.mem_cons_self
    refine ⟨fun since hsince => ?_, ih (fun t ht => h t (List.mem_cons_of_mem s ht)) _⟩
    rw [hs] at hsince
    cases hsince

end Unread

namespace Followed
variable {bs : List LogBatch} {a b : List (Step Call)}

theorem append (ha : Followed bs a) (hb : Followed (bs ++ batches a) b) : Followed bs (a ++ b) := by
  induction a generalizing bs with
  | nil =>
    rw [batches_nil, List.append_nil] at hb
    exact hb
  | cons s a ih =>
    refine ⟨ha.1, ih ha.2 ?_⟩
    rw [batches_cons, ← List.append_assoc] at hb
    exact hb

theorem since_eq {early late : List (Step Call)} {fetch : Step Call} {since : Option Instant}
    (h : Followed bs (early ++ fetch :: late)) (hfetch : sinceOf fetch = some since) :
    since = cursorAfter (bs ++ batches early) := by
  induction early generalizing bs with
  | nil =>
    rw [batches_nil, List.append_nil]
    exact h.1 since hfetch
  | cons s early ih =>
    rw [batches_cons, ← List.append_assoc]
    exact ih h.2

end Followed

/-! ### Tracking -/

structure Tracked (bucket : String) (paths : LogsPath) (bs : List LogBatch)
    (steps : List (Step Call)) (last : Store) : Prop where
  kept : Kept bucket paths last (bs ++ batches steps)
  followed : Followed bs steps

section Tracked
variable {bucket : String} {paths : LogsPath} {bs : List LogBatch} {store middle last : Store}
variable {a b steps : List (Step Call)}

theorem Tracked.append (ha : Tracked bucket paths bs a middle)
    (hb : Tracked bucket paths (bs ++ batches a) b last) :
    Tracked bucket paths bs (a ++ b) last where
  kept := by
    rw [batches_append, ← List.append_assoc]
    exact hb.kept
  followed := ha.followed.append hb.followed

theorem Tracked.of_bystanders (hsteps : ∀ s ∈ steps, Bystander s)
    (hstored : Stored store steps last) (hkept : Kept bucket paths store bs) :
    Tracked bucket paths bs steps last where
  kept := by
    rw [(Unread.of_bystanders hsteps).batches_eq, List.append_nil, hstored.eq_of_bystanders hsteps]
    exact hkept
  followed := (Unread.of_bystanders hsteps).followed bs

theorem Tracked.of_refused {fetch : Step Call} (hfetch : sinceOf fetch = some (cursorAfter bs))
    (hupload : isUpload fetch.call = false) (hnone : batchOf fetch = none)
    (hstored : Stored store [fetch] last) (hkept : Kept bucket paths store bs) :
    Tracked bucket paths bs [fetch] last where
  kept := by
    cases hstored.of_cons hupload
    rw [batches_cons, hnone]
    simpa using hkept
  followed := ⟨fun since hsince => Option.some.inj (hsince.symm.trans hfetch), trivial⟩

theorem appendLogs_unread {b : LogBatch} {result : Option (Except Failure Unit)}
    (h : (appendLogs bucket paths b).Runs steps result) : Unread steps := by
  have hwithin : (appendLogs bucket paths b).Within (fun s => sinceOf s = none) False :=
    appendLogs_within (fun _ _ => rfl) (fun _ _ _ => rfl) (fun _ _ _ _ => rfl) bucket paths b
  exact hwithin.of_runs h

theorem Tracked.of_read {id : ExecutionId} {fetch : Step Call} {b : LogBatch}
    (hfetch : sinceOf fetch = some (cursorAfter bs)) (hupload : isUpload fetch.call = false)
    (hbatch : batchOf fetch = some b) (plain : Plain b)
    (happend : (appendLogs bucket (.forExecution id) b).Runs steps (some (.ok ())))
    (hstored : Stored store (fetch :: steps) last)
    (hkept : Kept bucket (.forExecution id) store bs) :
    Tracked bucket (.forExecution id) bs (fetch :: steps) last ∧
      batches (fetch :: steps) = [b] := by
  have hunread := appendLogs_unread happend
  have hbatches : batches (fetch :: steps) = [b] := by
    rw [batches_cons, hbatch, hunread.batches_eq]
    rfl
  refine ⟨⟨?_, ?_, hunread.followed _⟩, hbatches⟩
  · rw [hbatches]
    exact appendLogs_kept plain happend (hstored.of_cons hupload) hkept
  · exact fun since hsince => Option.some.inj (hsince.symm.trans hfetch)

theorem Tracked.append_left (ha : Unread a) (h : Tracked bucket paths bs b last) :
    Tracked bucket paths bs (a ++ b) last := by
  have hbatches : bs ++ batches a = bs := by rw [ha.batches_eq, List.append_nil]
  refine ⟨?_, (ha.followed bs).append ?_⟩
  · rw [batches_append, ← List.append_assoc, hbatches]
    exact h.kept
  · rw [hbatches]
    exact h.followed

theorem Tracked.cons {s : Step Call} (hs : sinceOf s = none)
    (h : Tracked bucket paths bs steps last) : Tracked bucket paths bs (s :: steps) last := by
  have hunread : Unread [s] := fun t ht => by rwa [List.mem_singleton.mp ht]
  exact h.append_left hunread

theorem Tracked.append_right (h : Tracked bucket paths bs a middle)
    (hstored : Stored middle b last) (hb : ∀ s ∈ b, Bystander s) :
    Tracked bucket paths bs (a ++ b) last :=
  h.append (.of_bystanders hb hstored h.kept)

end Tracked
end SandboxWorker.Worker
