import Mathlib.Data.List.Nodup
import SandboxWorker.Proofs.Queue.Turns
/-! Which deliveries a consumer has outstanding. Each has a tag of its own, and is outstanding until
its tag is first presented and never after. -/
namespace SandboxWorker.Queue

namespace Consumer

structure Tagged (c : Consumer) : Prop where
  distinct : (c.inFlight.map (·.tag)).Nodup
  tag_le : ∀ d ∈ c.inFlight, d.tag ≤ c.lastTag
  ordered : (c.buffer.map (·.tag)).Nodup
  buffered_le : ∀ d ∈ c.buffer, d.tag ≤ c.lastTag
  same : ∀ d ∈ c.buffer, ∀ e ∈ c.inFlight, d.tag = e.tag → d = e

/-- Whether a tag would be known if it were presented. -/
def Outstanding (c : Consumer) (tag : Nat) : Prop := ∃ d ∈ c.inFlight, d.tag = tag

variable {c c' : Consumer} {b b' : Broker} {action : Action} {tag : Nat}

theorem isSome_take? (how : Settlement) : (c.take? tag how).isSome = true ↔ c.Outstanding tag := by
  rw [take?, Option.isSome_map, List.find?_isSome]
  simp only [decide_eq_true_eq, Outstanding]

theorem start_tagged (queue processing deadLetter : String) (prefetch : Nat) :
    (start queue processing deadLetter prefetch).Tagged :=
  ⟨List.nodup_nil, by simp [start], List.nodup_nil, by simp [start], by simp [start]⟩

theorem nodup_tags_concat {deliveries : List Delivery} {last : Nat} (payload : String)
    (h : (deliveries.map (·.tag)).Nodup) (hle : ∀ d ∈ deliveries, d.tag ≤ last) :
    ((deliveries ++ [(⟨last + 1, payload⟩ : Delivery)]).map (·.tag)).Nodup := by
  rw [List.map_append]
  refine List.nodup_append.mpr ⟨h, by simp, ?_⟩
  simp only [List.map_cons, List.map_nil, List.mem_singleton, List.mem_map]
  rintro _ ⟨d, hd, rfl⟩ _ rfl
  have hbelow := hle d hd
  omega

theorem Turn.tagged (h : c.Turn b action c' b') (tagged : c.Tagged) : c'.Tagged := by
  obtain ⟨distinct, tag_le, ordered, buffered_le, same⟩ := tagged
  cases h with
  | @register payload holds =>
    refine ⟨nodup_tags_concat payload distinct tag_le, ?_, nodup_tags_concat payload ordered buffered_le,
      ?_, ?_⟩
    · simp only [List.forall_mem_append, List.forall_mem_singleton]
      exact ⟨fun d hd => Nat.le_succ_of_le (tag_le d hd), Nat.le_refl _⟩
    · simp only [List.forall_mem_append, List.forall_mem_singleton]
      exact ⟨fun d hd => Nat.le_succ_of_le (buffered_le d hd), Nat.le_refl _⟩
    · -- The new tag is beyond all others.
      simp only [List.forall_mem_append, List.forall_mem_singleton]
      refine ⟨fun d hd => ⟨same d hd, fun heq => ?_⟩, fun e he heq => ?_, fun _ => trivial⟩
      · have hbelow := buffered_le d hd
        omega
      · have hbelow := tag_le e he
        omega
  | receive first =>
    rw [first] at ordered buffered_le same
    exact ⟨distinct, tag_le, (List.nodup_cons.mp ordered).2,
      fun d hd => buffered_le d (.tail _ hd), fun d hd => same d (.tail _ hd)⟩
  | take how outstanding =>
    exact ⟨distinct.sublist (List.erase_sublist.map _), fun d hd => tag_le d (List.mem_of_mem_erase hd),
      ordered, buffered_le, fun d hd e he => same d hd e (List.mem_of_mem_erase he)⟩
  | acquire => exact ⟨distinct, tag_le, ordered, buffered_le, same⟩
  | reserve => exact ⟨distinct, tag_le, ordered, buffered_le, same⟩
  | claim => exact ⟨distinct, tag_le, ordered, buffered_le, same⟩
  | tell => exact ⟨distinct, tag_le, ordered, buffered_le, same⟩
  | abandon => exact ⟨distinct, tag_le, ordered, buffered_le, same⟩
  | halt => exact ⟨distinct, tag_le, ordered, buffered_le, same⟩

theorem Turn.lastTag_le (h : c.Turn b action c' b') : c.lastTag ≤ c'.lastTag := by
  cases h with
  | register => exact Nat.le_succ _
  | _ => exact Nat.le_refl _

theorem Tagged.mem_erase (tagged : c.Tagged) {d e : Delivery} (hd : d ∈ c.inFlight)
    (he : e ∈ c.inFlight) : e ∈ c.inFlight.erase d ↔ e.tag ≠ d.tag := by
  have hnodup : c.inFlight.Nodup := List.Nodup.of_map _ tagged.distinct
  rw [hnodup.mem_erase_iff, and_iff_left he]
  exact not_congr ⟨congrArg _, fun h => List.inj_on_of_nodup_map tagged.distinct he hd h⟩

/-- A tag given out so far stays outstanding just if it is not presented. -/
theorem Turn.outstanding (h : c.Turn b action c' b') (tagged : c.Tagged) (hle : tag ≤ c.lastTag) :
    c'.Outstanding tag ↔ c.Outstanding tag ∧ ∀ how, action ≠ .take tag how := by
  cases h with
  | @register payload holds =>
    have hnew : c.lastTag + 1 ≠ tag := by omega
    simp [Outstanding, or_and_right, exists_or, hnew]
  | @take d how outstanding =>
    constructor
    · rintro ⟨e, he, rfl⟩
      have hmem := List.mem_of_mem_erase he
      refine ⟨⟨e, hmem, rfl⟩, fun how' heq => ?_⟩
      exact (tagged.mem_erase outstanding hmem).mp he (Action.take.inj heq).1.symm
    · rintro ⟨⟨e, he, rfl⟩, hother⟩
      refine ⟨e, (tagged.mem_erase outstanding he).mpr fun htag => ?_, rfl⟩
      rw [htag] at hother
      exact hother how rfl
  | acquire => simp [Outstanding]
  | reserve => simp [Outstanding]
  | claim => simp [Outstanding]
  | receive => simp [Outstanding]
  | tell => simp [Outstanding, settled]
  | abandon => simp [Outstanding, settled]
  | halt => simp [Outstanding, stop]

end Consumer

namespace Network
variable {name : String} {n : Network} {index tag : Nat} {c : Consumer}

theorem run_tagged {events : List Event} (h : (run name events).consumers[index]? = some c) :
    c.Tagged :=
  run_consumer (P := fun _ _ c => c.Tagged) (fun _ _ _ _ tagged => tagged)
    (fun _ _ _ _ => Consumer.start_tagged ..) (fun _ _ _ _ _ _ _ turn tagged => turn.tagged tagged)
    events index c h

theorem step_outstanding (hc : n.consumers[index]? = some c) (tagged : c.Tagged)
    (hle : tag ≤ c.lastTag) (event : Event) :
    ∃ c', (n.step name event).consumers[index]? = some c' ∧ c'.Tagged ∧ c.lastTag ≤ c'.lastTag ∧
      (c'.Outstanding tag ↔ c.Outstanding tag ∧ ∀ how, event ≠ .act index (.take tag how)) := by
  rcases step_consumer name hc event with
    ⟨hsame, hidle⟩ | ⟨action, c', b', rfl, hact, hafter, -⟩
  · refine ⟨c, hsame, tagged, Nat.le_refl _, ⟨fun h => ⟨h, ?_⟩, And.left⟩⟩
    -- What is outstanding can be taken.
    rintro how rfl
    obtain ⟨after, htake⟩ := Option.isSome_iff_exists.mp ((Consumer.isSome_take? how).mpr h)
    have hact := hidle _ rfl
    rw [Consumer.act?, htake] at hact
    cases hact
  · have hturn := Consumer.act?_turn hact
    exact ⟨c', hafter, hturn.tagged tagged, hturn.lastTag_le, by simp [hturn.outstanding tagged hle]⟩

theorem foldl_outstanding (hc : n.consumers[index]? = some c) (tagged : c.Tagged)
    (hle : tag ≤ c.lastTag) (events : List Event) :
    ∃ c', (events.foldl (step name) n).consumers[index]? = some c' ∧
      (c'.Outstanding tag ↔ c.Outstanding tag ∧ ∀ how, .act index (.take tag how) ∉ events) := by
  induction events generalizing n c with
  | nil => exact ⟨c, hc, by simp⟩
  | cons event events ih =>
    obtain ⟨c₁, hc₁, htagged, hlast, hstep⟩ := step_outstanding hc tagged hle event
    obtain ⟨c', hc', hrest⟩ := ih hc₁ htagged (Nat.le_trans hle hlast)
    refine ⟨c', hc', ?_⟩
    rw [hrest, hstep, and_assoc, ← forall_and]
    simp only [List.mem_cons, not_or, eq_comm]

end Network
end SandboxWorker.Queue
