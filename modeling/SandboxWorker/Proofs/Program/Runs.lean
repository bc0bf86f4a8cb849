import SandboxWorker.Worker.Program
/-! The runs of a program: every list of calls and answers that its tree allows, with the result at
its end. A claim about all runs is a claim about all surroundings, since each answer is free. -/
namespace SandboxWorker.Program
universe u v
structure Step (C : Type → Type u) : Type (max 1 u) where
  {γ : Type}
  call : C γ
  answer : γ

/-- A run makes these steps and has this result; none if the program was left before its end. -/
inductive Runs {C : Type → Type u} {α : Type} : Program C α → List (Step C) → Option α → Prop where
  | done (a : α) : Runs (done a) [] (some a)
  | unfinished : Runs unfinished [] none
  | call {γ : Type} {c : C γ} {next : γ → Program C α} {steps : List (Step C)} {result : Option α}
      (answer : γ) (rest : Runs (next answer) steps result) :
      Runs (call c next) (⟨c, answer⟩ :: steps) result

variable {C : Type → Type u} {α β γ : Type}

section Runs
variable {steps : List (Step C)}

@[simp] theorem runs_done {a : α} {result : Option α} :
    Runs (done a : Program C α) steps result ↔ steps = [] ∧ result = some a := by
  constructor
  · intro h
    cases h
    exact ⟨rfl, rfl⟩
  · rintro ⟨rfl, rfl⟩
    exact .done a

@[simp] theorem runs_unfinished {result : Option α} :
    Runs (unfinished : Program C α) steps result ↔ steps = [] ∧ result = none := by
  constructor
  · intro h
    cases h
    exact ⟨rfl, rfl⟩
  · rintro ⟨rfl, rfl⟩
    exact .unfinished

theorem runs_call {c : C γ} {next : γ → Program C α} {result : Option α} :
    Runs (call c next) steps result ↔
      ∃ b rest, steps = ⟨c, b⟩ :: rest ∧ Runs (next b) rest result := by
  constructor
  · intro h
    cases h with
    | call b rest => exact ⟨b, _, rfl, rest⟩
  · rintro ⟨b, rest, rfl, h⟩
    exact .call b h

theorem runs_ask {c : C α} {result : Option α} :
    Runs (ask c) steps result ↔ ∃ a, steps = [⟨c, a⟩] ∧ result = some a := by
  rw [ask, runs_call]
  constructor
  · rintro ⟨a, rest, rfl, h⟩
    obtain ⟨rfl, rfl⟩ := runs_done.mp h
    exact ⟨a, rfl, rfl⟩
  · rintro ⟨a, rfl, rfl⟩
    exact ⟨a, [], rfl, .done a⟩

theorem runs_ask_bind {c : C α} {f : α → Program C β} {result : Option β} :
    Runs (ask c >>= f) steps result ↔
      ∃ answer rest, steps = ⟨c, answer⟩ :: rest ∧ Runs (f answer) rest result := by
  rw [ask_bind, runs_call]

theorem runs_bind {p : Program C α} {f : α → Program C β} {result : Option β} :
    Runs (p >>= f) steps result ↔
      (∃ a first second, steps = first ++ second ∧ Runs p first (some a) ∧
        Runs (f a) second result) ∨
      (result = none ∧ Runs p steps none) := by
  constructor
  · intro h
    induction p generalizing steps with
    | done a => exact .inl ⟨a, [], steps, rfl, .done a, h⟩
    | unfinished =>
      obtain ⟨rfl, rfl⟩ := runs_unfinished.mp h
      exact .inr ⟨rfl, .unfinished⟩
    | call c next ih =>
      obtain ⟨b, rest, rfl, hb⟩ := runs_call.mp h
      rcases ih b hb with ⟨a, first, second, rfl, hp, hf⟩ | ⟨rfl, hp⟩
      · exact .inl ⟨a, ⟨c, b⟩ :: first, second, rfl, .call b hp, hf⟩
      · exact .inr ⟨rfl, .call b hp⟩
  · rintro (⟨a, first, second, rfl, hp, hf⟩ | ⟨rfl, hp⟩)
    · induction p generalizing first with
      | done a' =>
        obtain ⟨rfl, h⟩ := runs_done.mp hp
        cases h
        exact hf
      | unfinished => simp at hp
      | call c next ih =>
        obtain ⟨b, rest, rfl, hb⟩ := runs_call.mp hp
        exact .call b (ih b rest hb)
    · induction p generalizing steps with
      | done a => simp at hp
      | unfinished =>
        obtain ⟨rfl, -⟩ := runs_unfinished.mp hp
        exact .unfinished
      | call c next ih =>
        obtain ⟨b, rest, rfl, hb⟩ := runs_call.mp hp
        exact .call b (ih b hb)

end Runs

/-- Every step of every run is one of these, and the program is left only where that may be. -/
def Within (P : Step C → Prop) (left : Prop) : Program C α → Prop
  | done _ => True
  | call c next => ∀ answer, P ⟨c, answer⟩ ∧ (next answer).Within P left
  | unfinished => left

namespace Within
variable {P : Step C → Prop} {left : Prop}

theorem mono {Q : Step C → Prop} {p : Program C α} (h : ∀ s, P s → Q s) (hp : p.Within P left) :
    p.Within Q left := by
  induction p with
  | done a => trivial
  | unfinished => exact hp
  | call c next ih => exact fun answer => ⟨h _ (hp answer).1, ih answer (hp answer).2⟩

theorem bind {p : Program C α} {f : α → Program C β} (hp : p.Within P left)
    (hf : ∀ a, (f a).Within P left) : (p >>= f).Within P left := by
  induction p with
  | done a => exact hf a
  | unfinished => exact hp
  | call c next ih => exact fun answer => ⟨(hp answer).1, ih answer (hp answer).2⟩

theorem of_runs {p : Program C α} {steps : List (Step C)} {result : Option α}
    (hp : p.Within P left) (h : p.Runs steps result) : ∀ s ∈ steps, P s := by
  induction h with
  | done a => simp
  | unfinished => simp
  | call answer _ ih =>
    intro s hs
    rcases List.mem_cons.mp hs with rfl | hs
    · exact (hp answer).1
    · exact ih (hp answer).2 s hs

theorem left_of_runs {p : Program C α} {steps : List (Step C)} (hp : p.Within P left)
    (h : p.Runs steps none) : left := by
  generalize hr : (none : Option α) = result at h
  induction h with
  | done a => cases hr
  | unfinished => exact hp
  | call answer _ ih => exact ih (hp answer).2 hr

end Within

/-! ### Surroundings -/

section Surroundings
variable {σ : Type v} (answer : {β : Type} → C β → σ → β × σ)

def trace : Program C α → σ → List (Step C)
  | done _, _ => []
  | call c next, s => ⟨c, (answer c s).1⟩ :: (next (answer c s).1).trace (answer c s).2
  | unfinished, _ => []

theorem runs_trace (p : Program C α) (s : σ) :
    p.Runs (p.trace answer s) (p.run answer s).1 := by
  induction p generalizing s with
  | done a => exact .done a
  | unfinished => exact .unfinished
  | call c next ih => exact .call _ (ih _ _)

theorem run_bind (p : Program C α) (f : α → Program C β) (s : σ) :
    (p >>= f).run answer s =
      match p.run answer s with
      | (some a, s') => (f a).run answer s'
      | (none, s') => (none, s') := by
  induction p generalizing s with
  | done a => rfl
  | unfinished => rfl
  | call c next ih => exact ih _ _

end Surroundings
end SandboxWorker.Program
