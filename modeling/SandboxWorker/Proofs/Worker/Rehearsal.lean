import SandboxWorker.Proofs.Worker.Deadline
import SandboxWorker.Worker.Rehearsal
/-! Rehearsals come to their end. Time on a stage passes only by waiting, so the looks that a worker
may take there are more than fit before any of its deadlines. -/
namespace SandboxWorker
open Worker

namespace Queue.Exchange
variable {x x' : Exchange} {call : BrokerCall}

theorem refuses?_now (h : x.refuses? call = some x') : x'.now = x.now := by
  unfold refuses? at h
  split at h
  · cases h
  · cases h
    rfl

theorem callBroker_now (x : Exchange) (call : BrokerCall) (f : Broker → Broker) :
    (x.callBroker call f).2.now = x.now := by
  unfold callBroker
  split
  · rfl
  · rename_i hrefused
    exact refuses?_now hrefused

theorem runPump_now (id fuel : Nat) (claimDeadline : Option Nat) (x : Exchange) :
    (runPump id fuel claimDeadline x).now = x.now := by
  induction fuel generalizing claimDeadline x with
  | zero => rfl
  | succ fuel ih =>
    rw [runPump]
    split
    · rfl
    · split
      · split
        · rw [ih]
          rfl
        · rfl
      · split
        · rw [ih]
          rfl
        · rfl
      · split
        · rename_i hrefused
          have hnow := refuses?_now hrefused
          exact hnow
        · split
          · rw [ih]
            rfl
          · rfl
      · split
        · rw [ih]
          rfl
        · rfl
      · rfl

theorem wake_now (x : Exchange) (w : Wakeup) : (x.wake w).now = x.now := by
  unfold wake
  split
  · exact runPump_now ..
  · rfl

@[simp] theorem settle_now (x : Exchange) : x.settle.now = x.now := by
  have hwakes : ∀ (ws : List Wakeup) (y : Exchange), (ws.foldl wake y).now = y.now := by
    intro ws
    induction ws with
    | nil => exact fun y => rfl
    | cons w ws ih =>
      intro y
      rw [List.foldl_cons, ih, wake_now]
  exact hwakes x.ready _

theorem advanceTo_now (target fuel : Nat) (x : Exchange) :
    (advanceTo target fuel x).now = target := by
  induction fuel generalizing x with
  | zero => rfl
  | succ fuel ih =>
    rw [advanceTo]
    split
    · split
      · exact ih _
      · rfl
    · rfl

@[simp] theorem advance_now (x : Exchange) (ms : Nat) : (x.advance ms).now = x.now + ms :=
  advanceTo_now ..

theorem publish_now (x : Exchange) (queue payload : String) :
    (x.publish queue payload).2.now = x.now := by
  have hcall := callBroker_now x .publish (·.publish queue payload)
  unfold publish
  split
  · rename_i y heq
    rw [heq] at hcall
    exact hcall
  · exact hcall

theorem finish_now (x : Exchange) (id : Nat) (c : Consumer) (d : Delivery) (how : Settlement) :
    (x.finish id c d how).2.now = x.now := by
  have hcall := callBroker_now x how.call (c.effect d how)
  unfold finish
  dsimp only
  split <;> split <;> exact hcall

theorem settleDelivery_now (x : Exchange) (id tag : Nat) (how : Settlement) :
    (x.settleDelivery id tag how).2.now = x.now := by
  unfold settleDelivery
  split
  · rfl
  · exact finish_now ..

end Queue.Exchange

namespace Rehearsal.Scene

@[simp] theorem pass_now (s : Scene) (ms : Nat) : (s.pass ms).now = s.now + ms := by
  change (s.exchange.settle.advance ms).now = _
  rw [Queue.Exchange.advance_now, Queue.Exchange.settle_now]
  rfl

/-- What a call makes of a stage: it is no earlier there, and the script is the same. -/
structure Onward (s s' : Scene) : Prop where
  time : s.now ≤ s'.now
  script : s'.script = s.script

theorem Onward.refl (s : Scene) : s.Onward s := ⟨Nat.le_refl _, rfl⟩

theorem Onward.trans {s s' s'' : Scene} (h : s.Onward s') (h' : s'.Onward s'') : s.Onward s'' :=
  ⟨Nat.le_trans h.time h'.time, h'.script.trans h.script⟩

theorem pass_onward (s : Scene) (ms : Nat) : s.Onward (s.pass ms) := by
  refine ⟨?_, rfl⟩
  rw [pass_now]
  exact Nat.le_add_right ..

theorem passBefore_onward (s : Scene) (deadline span : Nat) :
    s.Onward (s.passBefore deadline span).2 := by
  unfold passBefore
  split
  · exact .refl s
  · split <;> exact pass_onward ..

theorem passBefore_spends {s : Scene} {deadline span : Nat}
    (h : (s.passBefore deadline span).1 = true) :
    Spends now deadline span s (s.passBefore deadline span).2 := by
  unfold passBefore at h ⊢
  split at h
  · rename_i hzero
    rw [if_pos hzero, hzero]
    exact ⟨fun takes_time => absurd takes_time (Nat.lt_irrefl 0), Nat.le_refl _⟩
  · split at h
    · rename_i hspan hin
      rw [if_neg hspan, if_pos hin]
      exact ⟨fun takes_time => by omega, Nat.le_of_eq (pass_now s span).symm⟩
    · cases h

theorem attempt_onward {s s' : Scene} {duty : Duty} {fails : Bool}
    (h : s.attempt duty = (fails, s')) : s.Onward s' := by
  unfold attempt at h
  cases h
  exact ⟨Nat.le_refl _, rfl⟩

theorem exchanging_onward (s : Scene) (duty : Duty)
    {f : Queue.Exchange → Except Queue.QueueError Unit × Queue.Exchange}
    (hf : ∀ x, (f x).2.now = x.now) : s.Onward (s.exchanging duty f).2 := by
  unfold exchanging
  split
  · rename_i hattempt
    exact attempt_onward hattempt
  · rename_i _ s' hattempt
    have hexchange : s'.Onward { s' with exchange := (f s'.exchange).2 } :=
      ⟨Nat.le_of_eq (hf _).symm, rfl⟩
    exact (attempt_onward hattempt).trans hexchange

theorem upload_onward (s : Scene) (bucket key : String) (content : Bytes) :
    s.Onward (s.upload bucket key content).2 := by
  unfold upload
  split
  · rename_i hattempt
    exact (pass_onward ..).trans (attempt_onward hattempt)
  · rename_i _ s' hattempt
    have hstore : s'.Onward { s' with store := (s'.store.upload bucket (some content) key).2 } :=
      ⟨Nat.le_refl _, rfl⟩
    exact ((pass_onward ..).trans (attempt_onward hattempt)).trans hstore

theorem download_onward (s : Scene) (bucket key : String) :
    s.Onward (s.download bucket key).2 := by
  unfold download
  split
  · rename_i hattempt
    exact (pass_onward ..).trans (attempt_onward hattempt)
  · rename_i hattempt
    exact (pass_onward ..).trans (attempt_onward hattempt)

theorem answer_engineBefore {α : Type} (s : Scene) (deadline : Nat) (e : EngineCall α) :
    let operation := operationOf e
    let span := (s.script.cue operation (s.cued operation)).delay
    ∃ begun : Scene, begun.now = s.now ∧ begun.script = s.script ∧
      (answer (.engineBefore deadline e) s).2 = (begun.passBefore deadline span).2 ∧
      (answer (.engineBefore deadline e) s).1.isSome = (begun.passBefore deadline span).1 := by
  refine ⟨((s.note (some (.of (.engineBefore deadline e)))).nextCue (operationOf e)).2, rfl, rfl,
    ?_, ?_⟩
  · unfold answer
    dsimp only
    split <;> rename_i heq <;> exact (congrArg Prod.snd heq).symm
  · unfold answer
    dsimp only
    split <;> rename_i heq <;> exact (congrArg Prod.fst heq).symm

theorem answer_onward {γ : Type} (c : Call γ) (s : Scene) : s.Onward (answer c s).2 := by
  have hnote : s.Onward (s.note (some (.of c))) := ⟨Nat.le_refl _, rfl⟩
  cases c with
  | clock => exact .refl s
  | time => exact .refl s
  | scratch label => exact .refl s
  | log entry => exact ⟨Nat.le_refl _, rfl⟩
  | restBefore deadline span => exact passBefore_onward s deadline span
  | engine e =>
    have hcued : s.Onward ((s.note (some (.of (.engine e)))).nextCue (operationOf e)).2 :=
      ⟨Nat.le_refl _, rfl⟩
    exact hcued.trans (pass_onward ..)
  | engineBefore deadline e =>
    obtain ⟨begun, hnow, hscript, hafter, -⟩ := s.answer_engineBefore deadline e
    have hbegun : s.Onward begun := ⟨Nat.le_of_eq hnow.symm, hscript⟩
    rw [hafter]
    exact hbegun.trans (passBefore_onward ..)
  | upload bucket key content => exact hnote.trans (upload_onward ..)
  | download bucket key => exact hnote.trans (download_onward ..)
  | send event => exact hnote.trans (exchanging_onward _ _ fun x => x.publish_now ..)
  | acknowledge tag => exact hnote.trans (exchanging_onward _ _ fun x => x.settleDelivery_now ..)
  | reject tag requeue =>
    exact hnote.trans (exchanging_onward _ _ fun x => x.settleDelivery_now ..)

theorem script_of_reaches {s s' : Scene} (h : Reaches answer s s') : s'.script = s.script := by
  induction h with
  | refl s => rfl
  | call c h ih => exact ih.trans (answer_onward c _).script

/-- A stage has a clock that goes on by every rest, and at the pace of its inspections. -/
theorem ticking (s : Scene) {pace : Nat}
    (paced : ∀ number, pace ≤ (s.script.cue .inspect number).delay) :
    Ticking answer now pace s := by
  intro s' hs'
  rw [← script_of_reaches hs'] at paced
  refine ⟨rfl, fun c => (answer_onward c s').time, fun _ _ => passBefore_spends,
    fun deadline container hanswered => ?_⟩
  obtain ⟨begun, hnow, -, hafter, hsome⟩ := s'.answer_engineBefore deadline (.inspect container)
  have hspends := (passBefore_spends (hsome.symm.trans hanswered)).of_longer (paced _)
  rw [hafter]
  exact ⟨fun takes_time => hnow ▸ hspends.begins takes_time, hnow ▸ hspends.passes⟩

theorem ample_greatestLooks (s : Scene) {pace : Nat}
    (takes_time : 0 < pace + s.config.runner.logsPollInterval) :
    Ample s.config s.greatestLooks pace := by
  refine ⟨takes_time, ?_⟩
  have hlooks : max s.config.runner.executionTimeout s.config.runner.killGrace + 1 ≤
      s.greatestLooks := by
    unfold greatestLooks
    omega
  calc max s.config.runner.executionTimeout s.config.runner.killGrace +
        (pace + s.config.runner.logsPollInterval)
      ≤ (max s.config.runner.executionTimeout s.config.runner.killGrace + 1) *
          (pace + s.config.runner.logsPollInterval) := by
        rw [Nat.succ_mul]
        exact Nat.add_le_add_right (Nat.le_mul_of_pos_right _ takes_time) _
    _ ≤ s.greatestLooks * (pace + s.config.runner.logsPollInterval) :=
        Nat.mul_le_mul_right _ hlooks

/-- A rehearsal is never left at work, unless neither inspections nor the rests between them take
any time. -/
theorem rehearsed_handle_ends (s : Scene) {pace : Nat}
    (paced : ∀ number, pace ≤ (s.script.cue .inspect number).delay)
    (takes_time : 0 < pace + s.config.runner.logsPollInterval) (d : Queue.Delivery) :
    ((handle s.config s.greatestLooks d).run answer s).1 = some () := by
  obtain ⟨_, hresult⟩ := Option.ne_none_iff_exists'.mp
    (handle_ends (s.ticking paced) (s.ample_greatestLooks takes_time) d)
  exact hresult

end Rehearsal.Scene
end SandboxWorker
