import SandboxWorker.Proofs.Worker.Work
/-! Programs judged by their history: whether each step is in order after the steps before it, and
whether an end fits all that was done by then. -/
namespace SandboxWorker
open Program
universe u

namespace Program
variable {C : Type → Type u} {α β : Type}

/-- After the steps `past`, each further step of every run is in order when it is made, and the run
ends as it may after all its steps. -/
def Obeys (order : List (Step C) → Step C → Prop) (ends : List (Step C) → Option α → Prop) :
    Program C α → List (Step C) → Prop
  | done a, past => ends past (some a)
  | call c next, past => ∀ answer, order past ⟨c, answer⟩ ∧
      (next answer).Obeys order ends (past ++ [⟨c, answer⟩])
  | unfinished, past => ends past none

namespace Obeys
variable {order : List (Step C) → Step C → Prop} {past : List (Step C)}

theorem of_runs {ends : List (Step C) → Option α → Prop} {p : Program C α} {steps : List (Step C)}
    {result : Option α} (hp : p.Obeys order ends past) (h : p.Runs steps result) :
    (∀ early s late, steps = early ++ s :: late → order (past ++ early) s) ∧
      ends (past ++ steps) result := by
  induction h generalizing past with
  | done a =>
    rw [List.append_nil]
    exact ⟨fun early s late h => by simp at h, hp⟩
  | unfinished =>
    rw [List.append_nil]
    exact ⟨fun early s late h => by simp at h, hp⟩
  | @call γ c next steps result answer _ ih =>
    obtain ⟨horder, hends⟩ := ih (hp answer).2
    rw [List.append_assoc] at hends
    refine ⟨fun early s late h => ?_, hends⟩
    cases early with
    | nil =>
      cases h
      rw [List.append_nil]
      exact (hp answer).1
    | cons first early =>
      cases h
      have hlater := horder early s late rfl
      rw [List.append_assoc] at hlater
      exact hlater

theorem mono {ends ends' : List (Step C) → Option α → Prop} {p : Program C α}
    (h : ∀ now result, ends now result → ends' now result) (hp : p.Obeys order ends past) :
    p.Obeys order ends' past := by
  induction p generalizing past with
  | done a => exact h _ _ hp
  | unfinished => exact h _ _ hp
  | call c next ih => exact fun answer => ⟨(hp answer).1, ih answer (hp answer).2⟩

theorem bind {middle : List (Step C) → Option α → Prop} {ends : List (Step C) → Option β → Prop}
    {p : Program C α} {f : α → Program C β} (hp : p.Obeys order middle past)
    (hf : ∀ now a, middle now (some a) → (f a).Obeys order ends now)
    (hleft : ∀ now, middle now none → ends now none) : (p >>= f).Obeys order ends past := by
  induction p generalizing past with
  | done a => exact hf _ _ hp
  | unfinished => exact hleft _ hp
  | call c next ih => exact fun answer => ⟨(hp answer).1, ih answer (hp answer).2⟩

/-- A program whose steps are in order at any time ends as its own runs do. -/
theorem of_within {P : Step C → Prop} {left : Prop} {p : Program C α} (hp : p.Within P left)
    (horder : ∀ now s, P s → order now s) :
    p.Obeys order
      (fun now result => ∃ more, now = past ++ more ∧ p.Runs more result ∧ ∀ s ∈ more, P s)
      past := by
  induction p generalizing past with
  | done a => exact ⟨[], (List.append_nil _).symm, .done a, by simp⟩
  | unfinished => exact ⟨[], (List.append_nil _).symm, .unfinished, by simp⟩
  | call c next ih =>
    refine fun answer => ⟨horder _ _ (hp answer).1, (ih answer (hp answer).2).mono ?_⟩
    rintro now result ⟨more, rfl, hruns, hmore⟩
    exact ⟨⟨c, answer⟩ :: more, by simp, .call answer hruns,
      List.forall_mem_cons.mpr ⟨(hp answer).1, hmore⟩⟩

end Obeys
end Program

namespace Work
variable {α β γ : Type}

/-- What is to hold of a history, by how the work came to it. -/
def Ends (left failed : List (Step Call) → Prop) (done : α → List (Step Call) → Prop)
    (now : List (Step Call)) : Option (Except Failure α) → Prop
  | some (.ok a) => done a now
  | some (.error _) => failed now
  | none => left now

/-- Work whose steps are in order, and which is left, breaks down and succeeds only after a history
that fits. -/
def Obeys (order : List (Step Call) → Step Call → Prop) (left failed : List (Step Call) → Prop)
    (done : α → List (Step Call) → Prop) (w : Work α) (past : List (Step Call)) : Prop :=
  Program.Obeys order (Ends left failed done) w.run past

namespace Obeys
variable {order : List (Step Call) → Step Call → Prop} {left failed : List (Step Call) → Prop}
variable {done : α → List (Step Call) → Prop} {past : List (Step Call)}

theorem pure {a : α} (h : done a past) : Obeys order left failed done (pure a) past := h

theorem throw {e : Failure} (h : failed past) :
    Obeys order left failed done (throw e : Work α) past := h

theorem unfinished (h : left past) : Obeys order left failed done Work.unfinished past := h

theorem bind {middle : α → List (Step Call) → Prop} {done : β → List (Step Call) → Prop}
    {w : Work α} {f : α → Work β} (hw : w.Obeys order left failed middle past)
    (hf : ∀ a now, middle a now → (f a).Obeys order left failed done now) :
    (w >>= f).Obeys order left failed done past := by
  refine Program.Obeys.bind hw (fun now result h => ?_) fun now h => h
  cases result with
  | ok a => exact hf a now h
  | error e => exact h

theorem mono {left' failed' : List (Step Call) → Prop} {done' : α → List (Step Call) → Prop}
    {w : Work α} (hw : w.Obeys order left failed done past) (hleft : ∀ now, left now → left' now)
    (hfailed : ∀ now, failed now → failed' now) (hdone : ∀ a now, done a now → done' a now) :
    w.Obeys order left' failed' done' past := by
  refine Program.Obeys.mono (fun now result h => ?_) hw
  match result, h with
  | some (.ok a), h => exact hdone a now h
  | some (.error _), h => exact hfailed now h
  | none, h => exact hleft now h

theorem ask {c : Call α}
    (h : ∀ answer, order past ⟨c, answer⟩ ∧ done answer (past ++ [⟨c, answer⟩])) :
    (Work.ask c).Obeys order left failed done past := h

theorem engine {c : EngineCall α} (horder : ∀ answer, order past ⟨.engine c, answer⟩)
    (hok : ∀ a, done a (past ++ [⟨.engine c, .ok a⟩]))
    (herror : ∀ e, failed (past ++ [⟨.engine c, .error e⟩])) :
    (Work.engine c).Obeys order left failed done past := by
  rw [engine_eq]
  intro answer
  refine ⟨horder answer, ?_⟩
  cases answer with
  | ok a => exact hok a
  | error e => exact herror e

theorem send {event : ExecutionEvent} {done : Unit → List (Step Call) → Prop}
    (horder : ∀ answer, order past ⟨.send event, answer⟩)
    (hok : done () (past ++ [⟨.send event, .ok ()⟩]))
    (herror : ∀ e, failed (past ++ [⟨.send event, .error e⟩])) :
    (Work.send event).Obeys order left failed done past := by
  rw [send_eq]
  intro answer
  refine ⟨horder answer, ?_⟩
  cases answer with
  | ok a => exact hok
  | error e => exact herror e

theorem engineBefore {deadline : Nat} {c : EngineCall α}
    {done : Option α → List (Step Call) → Prop}
    (horder : ∀ answer, order past ⟨.engineBefore deadline c, answer⟩)
    (hcut : done none (past ++ [⟨.engineBefore deadline c, none⟩]))
    (hok : ∀ a, done (some a) (past ++ [⟨.engineBefore deadline c, some (.ok a)⟩]))
    (herror : ∀ e, failed (past ++ [⟨.engineBefore deadline c, some (.error e)⟩])) :
    (Work.engineBefore deadline c).Obeys order left failed done past := by
  rw [engineBefore_eq]
  intro answer
  refine ⟨horder answer, ?_⟩
  rcases answer with _ | e | a
  · exact hcut
  · exact herror e
  · exact hok a

theorem ensure {operation : String} {status : Nat} {done : Unit → List (Step Call) → Prop}
    (hok : isSuccess status = true → done () past)
    (hrefused : isSuccess status = false → failed past) :
    (Work.ensure operation status).Obeys order left failed done past := by
  unfold Work.ensure
  cases hstatus : isSuccess status with
  | true => exact hok hstatus
  | false => exact hrefused hstatus

theorem of_within {P : Step Call → Prop} {w : Work α} (hw : w.Within P False)
    (horder : ∀ now s, P s → order now s)
    (hdone : ∀ a more, w.Runs more (some (.ok a)) → (∀ s ∈ more, P s) → done a (past ++ more))
    (hfailed : ∀ more, (∀ s ∈ more, P s) → failed (past ++ more)) :
    w.Obeys order left failed done past := by
  refine Program.Obeys.mono ?_ (Program.Obeys.of_within hw horder)
  rintro now result ⟨more, rfl, hruns, hmore⟩
  rcases result with _ | e | a
  · exact (Program.Within.left_of_runs hw hruns).elim
  · exact hfailed more hmore
  · exact hdone a more hruns hmore

theorem lift {failed' : List (Step Call) → Prop} {w : Work α}
    (hw : w.Obeys order left failed done past) :
    Obeys order left failed' (fun outcome now => Ends left failed done now (some outcome))
      (ExceptT.lift w.run : Work (Except Failure α)) past := by
  refine Program.Obeys.bind hw (fun now result h => ?_) fun now h => h
  cases result with
  | ok a => exact h
  | error e => exact h

end Obeys
end Work
end SandboxWorker
