/-! Programs that talk to their surroundings. A program makes a call, gets one answer to it, and
goes on from there; what it does under every behaviour of the surroundings is read off its tree of
calls. -/
namespace SandboxWorker
universe u v

inductive Program (C : Type → Type u) (α : Type) : Type (max 1 u) where
  | done (result : α)
  | call {β : Type} (c : C β) (next : β → Program C α)
  /-- The program was left before its end. -/
  | unfinished

namespace Program
variable {C : Type → Type u} {α β γ : Type}

def bind : Program C α → (α → Program C β) → Program C β
  | done a, f => f a
  | call c next, f => call c fun b => (next b).bind f
  | unfinished, _ => unfinished

instance : Monad (Program C) where
  pure := done
  bind := bind

@[simp] theorem pure_eq (a : α) : (pure a : Program C α) = done a := rfl

@[simp] theorem done_bind (a : α) (f : α → Program C β) : done a >>= f = f a := rfl

@[simp] theorem call_bind (c : C γ) (next : γ → Program C α) (f : α → Program C β) :
    call c next >>= f = call c fun b => next b >>= f := rfl

@[simp] theorem unfinished_bind (f : α → Program C β) : unfinished >>= f = unfinished := rfl

theorem bind_done (p : Program C α) : p >>= done = p := by
  induction p with
  | done a => rfl
  | call c next ih => simp [ih]
  | unfinished => rfl

theorem bind_assoc (p : Program C α) (f : α → Program C β) (g : β → Program C γ) :
    p >>= f >>= g = p >>= fun a => f a >>= g := by
  induction p with
  | done a => rfl
  | call c next ih => simp [ih]
  | unfinished => rfl

instance : LawfulMonad (Program C) := LawfulMonad.mk' _
  bind_done
  (fun _ _ => rfl)
  bind_assoc

def ask (c : C α) : Program C α := call c done

@[simp] theorem ask_bind (c : C α) (f : α → Program C β) : ask c >>= f = call c f := rfl

/-- Runs a program in surroundings that answer each call and change with it. -/
def run {σ : Type v} (answer : {β : Type} → C β → σ → β × σ) : Program C α → σ → Option α × σ
  | done a, s => (some a, s)
  | call c next, s => (next (answer c s).1).run answer (answer c s).2
  | unfinished, s => (none, s)

end Program
end SandboxWorker
