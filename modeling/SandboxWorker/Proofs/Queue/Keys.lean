import SandboxWorker.Proofs.Text.Hex
import SandboxWorker.Proofs.Text.Paths
import SandboxWorker.Queue.Keys
/-! The lists of a queue are different lists: what waits, what a consumer works on and what is dead
never lie together. A list tells its kind and its consumer, and it tells its queue as well if no
name has a colon. -/
namespace SandboxWorker.Queue

theorem processingKey_eq (name : String) (consumer : Uuid) :
    processingKey name consumer = waitingKey name ++ (":processing:" ++ consumer.toString) :=
  String.append_assoc ..

theorem waitingKey_ne_deadLetterKey (name : String) : waitingKey name ≠ deadLetterKey name := by
  rw [deadLetterKey, ne_comm, Ne, String.append_eq_left_iff]
  decide

theorem processingKey_ne_waitingKey (name : String) (consumer : Uuid) :
    processingKey name consumer ≠ waitingKey name := by
  rw [processingKey_eq, Ne, String.append_eq_left_iff]
  intro hempty
  have hlists := congrArg String.toList hempty
  rw [String.toList_append] at hlists
  cases hlists

theorem processingKey_ne_deadLetterKey (name : String) (consumer : Uuid) :
    processingKey name consumer ≠ deadLetterKey name := by
  rw [processingKey_eq, deadLetterKey, Ne, String.append_right_inj]
  intro hsame
  have hlists := congrArg String.toList hsame
  rw [String.toList_append] at hlists
  have hsecond := congrArg (·[1]?) hlists
  cases hsecond

/-! ### Keys of one kind -/

theorem waitingKey_injective : Function.Injective waitingKey :=
  fun _ _ h => (String.append_right_inj _).mp h

theorem deadLetterKey_injective : Function.Injective deadLetterKey :=
  fun _ _ h => waitingKey_injective ((String.append_left_inj _).mp h)

/-- Identifiers are all of one length, so that nothing of a name can pass for one. -/
theorem processingKey_inj {n m : String} {u v : Uuid} :
    processingKey n u = processingKey m v ↔ n = m ∧ u = v := by
  constructor
  · intro h
    have hkey (name : String) (consumer : Uuid) : (processingKey name consumer).toList =
        (waitingKey name ++ ":processing:").toList ++ consumer.text := by
      rw [processingKey, String.toList_append, Uuid.toString, String.toList_ofList]
    have hlists := congrArg String.toList h
    rw [hkey, hkey] at hlists
    have hlength : u.text.length = v.text.length := by rw [u.length_text, v.length_text]
    obtain ⟨hfront, htext⟩ := List.append_inj' hlists hlength
    have hwaiting := (String.append_left_inj _).mp (String.toList_inj.mp hfront)
    exact ⟨waitingKey_injective hwaiting, Uuid.text_inj htext⟩
  · rintro ⟨rfl, rfl⟩
    rfl

/-! ### Keys of different queues -/

def colon : Char := ':'

inductive IsListOf (name : String) : String → Prop where
  | waiting : IsListOf name (waitingKey name)
  | processing (consumer : Uuid) : IsListOf name (processingKey name consumer)
  | deadLetter : IsListOf name (deadLetterKey name)

namespace IsListOf
variable {n m key : String}

theorem exists_behind (h : IsListOf n key) : ∃ behind : List Char,
    key.toList = "ces:queue:".toList ++ (n.toList ++ behind) ∧
      (behind = [] ∨ ∃ rest, behind = colon :: rest) := by
  have hwaiting : (waitingKey n).toList = "ces:queue:".toList ++ n.toList := String.toList_append
  cases h with
  | waiting => exact ⟨[], by rw [hwaiting, List.append_nil], .inl rfl⟩
  | processing consumer =>
    refine ⟨(":processing:" ++ consumer.toString).toList, ?_, .inr ⟨_, String.toList_append⟩⟩
    rw [processingKey_eq, String.toList_append, hwaiting, List.append_assoc]
  | deadLetter =>
    refine ⟨":dead".toList, ?_, .inr ⟨_, rfl⟩⟩
    rw [deadLetterKey, String.toList_append, hwaiting, List.append_assoc]

theorem head?_split {behind : List Char} (hname : colon ∉ n.toList)
    (hbehind : behind = [] ∨ ∃ rest, behind = colon :: rest) :
    (Text.split colon (n.toList ++ behind)).head? = some n.toList := by
  rcases hbehind with rfl | ⟨rest, rfl⟩
  · rw [List.append_nil, Text.split_of_not_mem hname, List.head?_cons]
  · rw [Text.split_append_cons hname, List.head?_cons]

theorem name_unique (h : IsListOf n key) (h' : IsListOf m key) (hn : colon ∉ n.toList)
    (hm : colon ∉ m.toList) : n = m := by
  obtain ⟨behind, hkey, hbehind⟩ := h.exists_behind
  obtain ⟨behind', hkey', hbehind'⟩ := h'.exists_behind
  rw [hkey] at hkey'
  have hfirst := head?_split hn hbehind
  rw [List.append_cancel_left hkey', head?_split hm hbehind', Option.some_inj] at hfirst
  exact (String.toList_inj.mp hfirst).symm

end IsListOf

end SandboxWorker.Queue
