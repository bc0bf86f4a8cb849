import SandboxWorker.Proofs.Program.Runs
import SandboxWorker.Worker.Call
/-! The runs of work that may break down. Every part of it is one call whose answer decides whether
it succeeds, so runs are taken apart call by call. -/
namespace SandboxWorker.Work
open Program
variable {α β γ : Type}

def once (c : Call γ) (outcome : γ → Except Failure α) : Work α :=
  ExceptT.mk (.call c fun answer => .done (outcome answer))

theorem ask_eq (c : Call α) : ask c = once c .ok := rfl

theorem log_eq (level : Level) (message : String) (fields : List (String × String)) :
    log level message fields = once (.log ⟨level, message, fields⟩) .ok := rfl

theorem ask_ofExcept_eq {ε : Type} (c : Call (Except ε α)) (failure : ε → Failure) :
    ask c >>= ofExcept failure = once c (·.mapError failure) := by
  show ExceptT.mk (Program.call c _) = _
  unfold once
  congr 2
  funext answer
  cases answer <;> rfl

theorem engine_eq (c : EngineCall α) : engine c = once (.engine c) (·.mapError .engine) :=
  ask_ofExcept_eq _ _

theorem upload_eq (bucket key : String) (content : Bytes) :
    upload bucket key content = once (.upload bucket key content) (·.mapError .store) :=
  ask_ofExcept_eq _ _

theorem download_eq (bucket key : String) :
    download bucket key = once (.download bucket key) (·.mapError .store) :=
  ask_ofExcept_eq _ _

theorem send_eq (event : ExecutionEvent) :
    send event = once (.send event) (·.mapError .queue) :=
  ask_ofExcept_eq _ _

def beforeDeadline : Option (Except EngineError α) → Except Failure (Option α)
  | none => .ok none
  | some (.ok a) => .ok (some a)
  | some (.error e) => .error (.engine e)

theorem engineBefore_eq (deadline : Nat) (c : EngineCall α) :
    engineBefore deadline c = once (.engineBefore deadline c) beforeDeadline := by
  show ExceptT.mk (Program.call _ _) = _
  unfold once
  congr 2
  funext answer
  rcases answer with _ | _ | _ <;> rfl

def scratchMade (made : Bool) : Except Failure Unit := if made then .ok () else .error .scratch

theorem scratch_eq (label : String) : scratch label = once (.scratch label) scratchMade := by
  show ExceptT.mk (Program.call _ _) = _
  unfold once
  congr 2
  funext made
  cases made <;> rfl

/-! ### Runs -/

/-- A run of work: it succeeds, breaks down, or is left before its end. -/
def Runs (w : Work α) (steps : List (Step Call)) (result : Option (Except Failure α)) : Prop :=
  Program.Runs w.run steps result

section Runs
variable {steps : List (Step Call)}

theorem runs_pure {a : α} {result : Option (Except Failure α)} :
    Runs (pure a) steps result ↔ steps = [] ∧ result = some (.ok a) := runs_done

theorem runs_throw {e : Failure} {result : Option (Except Failure α)} :
    Runs (throw e) steps result ↔ steps = [] ∧ result = some (.error e) := runs_done

theorem runs_unfinished {result : Option (Except Failure α)} :
    Runs Work.unfinished steps result ↔ steps = [] ∧ result = none := Program.runs_unfinished

theorem runs_once {c : Call γ} {outcome : γ → Except Failure α}
    {result : Option (Except Failure α)} :
    Runs (once c outcome) steps result ↔
      ∃ answer, steps = [⟨c, answer⟩] ∧ result = some (outcome answer) := by
  unfold Runs once
  rw [ExceptT.run_mk, runs_call]
  constructor
  · intro ⟨answer, rest, hsteps, h⟩
    obtain ⟨rfl, rfl⟩ := runs_done.mp h
    exact ⟨answer, hsteps, rfl⟩
  · intro ⟨answer, hsteps, hresult⟩
    exact ⟨answer, [], hsteps, runs_done.mpr ⟨rfl, hresult⟩⟩

theorem runs_lift {p : Program Call α} {result : Option (Except Failure α)} :
    Runs (ExceptT.lift p) steps result ↔
      ∃ inner, Program.Runs p steps inner ∧ result = inner.map .ok := by
  show Program.Runs (p >>= fun a => done (Except.ok a)) steps result ↔ _
  rw [Program.runs_bind]
  constructor
  · rintro (⟨a, first, second, rfl, hp, h⟩ | ⟨rfl, hp⟩)
    · obtain ⟨rfl, rfl⟩ := runs_done.mp h
      exact ⟨some a, by simpa using hp, rfl⟩
    · exact ⟨none, hp, rfl⟩
  · rintro ⟨inner, hp, rfl⟩
    cases inner with
    | none => exact .inr ⟨rfl, hp⟩
    | some a => exact .inl ⟨a, steps, [], by simp, hp, .done _⟩

theorem runs_bind {w : Work α} {f : α → Work β} {result : Option (Except Failure β)} :
    Runs (w >>= f) steps result ↔
      (∃ a first second, steps = first ++ second ∧ Runs w first (some (.ok a)) ∧
        Runs (f a) second result) ∨
      (∃ e, result = some (.error e) ∧ Runs w steps (some (.error e))) ∨
      (result = none ∧ Runs w steps none) := by
  unfold Runs
  rw [ExceptT.run_bind, Program.runs_bind]
  constructor
  · rintro (⟨a | a, first, second, rfl, hw, hf⟩ | h)
    · obtain ⟨rfl, rfl⟩ := runs_done.mp hf
      exact .inr (.inl ⟨a, rfl, by simpa using hw⟩)
    · exact .inl ⟨a, first, second, rfl, hw, hf⟩
    · exact .inr (.inr h)
  · rintro (⟨a, first, second, rfl, hw, hf⟩ | ⟨e, rfl, hw⟩ | h)
    · exact .inl ⟨.ok a, first, second, rfl, hw, hf⟩
    · exact .inl ⟨.error e, steps, [], by simp, hw, .done _⟩
    · exact .inr h

theorem runs_bind_ok {w : Work α} {f : α → Work β} {b : β} :
    Runs (w >>= f) steps (some (.ok b)) ↔
      ∃ a first second, steps = first ++ second ∧ Runs w first (some (.ok a)) ∧
        Runs (f a) second (some (.ok b)) := by
  simp [runs_bind]

theorem runs_once_bind {c : Call γ} {outcome : γ → Except Failure α} {f : α → Work β}
    {result : Option (Except Failure β)} :
    Runs (once c outcome >>= f) steps result ↔
      ∃ answer rest, steps = ⟨c, answer⟩ :: rest ∧
        ((∃ a, outcome answer = .ok a ∧ Runs (f a) rest result) ∨
          ∃ e, outcome answer = .error e ∧ rest = [] ∧ result = some (.error e)) := by
  rw [runs_bind]
  simp only [runs_once]
  constructor
  · rintro (⟨a, first, second, rfl, ⟨answer, rfl, ha⟩, hf⟩ | ⟨e, rfl, answer, rfl, he⟩ |
      ⟨-, _, -, h⟩)
    · exact ⟨answer, second, rfl, .inl ⟨a, (Option.some.inj ha).symm, hf⟩⟩
    · exact ⟨answer, [], rfl, .inr ⟨e, (Option.some.inj he).symm, rfl, rfl⟩⟩
    · cases h
  · rintro ⟨answer, rest, rfl, ⟨a, ha, hf⟩ | ⟨e, he, rfl, rfl⟩⟩
    · exact .inl ⟨a, [⟨c, answer⟩], rest, rfl, ⟨answer, rfl, by rw [ha]⟩, hf⟩
    · exact .inr (.inl ⟨e, rfl, answer, rfl, by rw [he]⟩)

theorem runs_once_bind_ok {c : Call γ} {outcome : γ → Except Failure α} {f : α → Work β} {b : β} :
    Runs (once c outcome >>= f) steps (some (.ok b)) ↔
      ∃ answer a rest, steps = ⟨c, answer⟩ :: rest ∧ outcome answer = .ok a ∧
        Runs (f a) rest (some (.ok b)) := by
  rw [runs_once_bind]
  constructor
  · intro ⟨answer, rest, hsteps, h⟩
    rcases h with ⟨a, ha, hf⟩ | ⟨e, -, -, he⟩
    · exact ⟨answer, a, rest, hsteps, ha, hf⟩
    · cases he
  · intro ⟨answer, a, rest, hsteps, ha, hf⟩
    exact ⟨answer, rest, hsteps, .inl ⟨a, ha, hf⟩⟩

theorem runs_ask_bind {c : Call α} {f : α → Work β} {result : Option (Except Failure β)} :
    Runs (ask c >>= f) steps result ↔
      ∃ answer rest, steps = ⟨c, answer⟩ :: rest ∧ Runs (f answer) rest result := by
  rw [ask_eq, runs_once_bind]
  simp

theorem runs_log_bind {level : Level} {message : String} {fields : List (String × String)}
    {f : Unit → Work β} {result : Option (Except Failure β)} :
    Runs (log level message fields >>= f) steps result ↔
      ∃ rest, steps = ⟨.log ⟨level, message, fields⟩, ()⟩ :: rest ∧ Runs (f ()) rest result := by
  rw [log, runs_ask_bind]
  constructor
  · intro ⟨_, rest, hsteps, h⟩
    exact ⟨rest, hsteps, h⟩
  · intro ⟨rest, hsteps, h⟩
    exact ⟨(), rest, hsteps, h⟩

theorem runs_ensure_bind {operation : String} {status : Nat} {f : Unit → Work β}
    {result : Option (Except Failure β)} :
    Runs (ensure operation status >>= f) steps result ↔
      (isSuccess status = true ∧ Runs (f ()) steps result) ∨
      (isSuccess status = false ∧ steps = [] ∧
        result = some (.error (.refused operation status))) := by
  unfold ensure
  cases isSuccess status with
  | true =>
    show Runs (f ()) steps result ↔ _
    simp
  | false =>
    show Runs (throw (Failure.refused operation status)) steps result ↔ _
    rw [runs_throw]
    simp

end Runs

@[simp] theorem mapError_eq_ok {ε ε' : Type} {failure : ε → ε'} {answer : Except ε α} {a : α} :
    answer.mapError failure = .ok a ↔ answer = .ok a := by
  constructor
  · intro h
    cases answer with
    | error e => cases h
    | ok a => cases h; rfl
  · intro h
    rw [h]
    rfl

@[simp] theorem mapError_eq_error {ε ε' : Type} {failure : ε → ε'} {answer : Except ε α} {e : ε'} :
    answer.mapError failure = .error e ↔ ∃ reason, answer = .error reason ∧ failure reason = e := by
  constructor
  · intro h
    cases answer with
    | error reason => exact ⟨reason, rfl, Except.error.inj h⟩
    | ok a => cases h
  · intro ⟨reason, hanswer, hreason⟩
    rw [hanswer, ← hreason]
    rfl

/-! ### Runs that succeed -/

section Success
variable {steps : List (Step Call)} {f : α → Work β} {b : β}

theorem runs_mapError_bind_ok {ε : Type} {c : Call (Except ε α)} {failure : ε → Failure} :
    Runs (once c (·.mapError failure) >>= f) steps (some (.ok b)) ↔
      ∃ a rest, steps = ⟨c, .ok a⟩ :: rest ∧ Runs (f a) rest (some (.ok b)) := by
  rw [runs_once_bind_ok]
  constructor
  · intro ⟨answer, a, rest, hsteps, ha, hf⟩
    rw [mapError_eq_ok.mp ha] at hsteps
    exact ⟨a, rest, hsteps, hf⟩
  · intro ⟨a, rest, hsteps, hf⟩
    exact ⟨.ok a, a, rest, hsteps, rfl, hf⟩

theorem runs_engine_bind_ok {c : EngineCall α} :
    Runs (engine c >>= f) steps (some (.ok b)) ↔
      ∃ a rest, steps = ⟨.engine c, .ok a⟩ :: rest ∧ Runs (f a) rest (some (.ok b)) := by
  rw [engine_eq, runs_mapError_bind_ok]

theorem runs_download_bind_ok {bucket key : String} {f : Bytes → Work β} :
    Runs (download bucket key >>= f) steps (some (.ok b)) ↔
      ∃ content rest, steps = ⟨.download bucket key, .ok content⟩ :: rest ∧
        Runs (f content) rest (some (.ok b)) := by
  rw [download_eq, runs_mapError_bind_ok]

theorem runs_upload_bind_ok {bucket key : String} {content : Bytes} {f : Unit → Work β} :
    Runs (upload bucket key content >>= f) steps (some (.ok b)) ↔
      ∃ (u : Unit) (rest : List (Step Call)),
        steps = ⟨.upload bucket key content, .ok u⟩ :: rest ∧ Runs (f u) rest (some (.ok b)) := by
  rw [upload_eq, runs_mapError_bind_ok]

theorem runs_send_bind_ok {event : ExecutionEvent} {f : Unit → Work β} :
    Runs (send event >>= f) steps (some (.ok b)) ↔
      ∃ (u : Unit) (rest : List (Step Call)),
        steps = ⟨.send event, .ok u⟩ :: rest ∧ Runs (f u) rest (some (.ok b)) := by
  rw [send_eq, runs_mapError_bind_ok]

theorem runs_engineBefore_bind_ok {deadline : Nat} {c : EngineCall α} {f : Option α → Work β} :
    Runs (engineBefore deadline c >>= f) steps (some (.ok b)) ↔
      ∃ (a : Option α) (rest : List (Step Call)),
        steps = ⟨.engineBefore deadline c, a.map .ok⟩ :: rest ∧ Runs (f a) rest (some (.ok b)) := by
  rw [engineBefore_eq, runs_once_bind_ok]
  constructor
  · intro ⟨answer, a, rest, hsteps, ha, hf⟩
    refine ⟨a, rest, ?_, hf⟩
    rcases answer with _ | _ | _ <;> cases ha <;> exact hsteps
  · intro ⟨a, rest, hsteps, hf⟩
    refine ⟨a.map .ok, a, rest, hsteps, ?_, hf⟩
    cases a <;> rfl

theorem runs_scratch_bind_ok {label : String} {f : Unit → Work β} :
    Runs (scratch label >>= f) steps (some (.ok b)) ↔
      ∃ rest, steps = ⟨.scratch label, true⟩ :: rest ∧ Runs (f ()) rest (some (.ok b)) := by
  rw [scratch_eq, runs_once_bind_ok]
  constructor
  · intro ⟨made, _, rest, hsteps, ha, hf⟩
    cases made with
    | true => exact ⟨rest, hsteps, hf⟩
    | false => cases ha
  · intro ⟨rest, hsteps, hf⟩
    exact ⟨true, (), rest, hsteps, rfl, hf⟩

theorem runs_ensure_bind_ok {operation : String} {status : Nat} {f : Unit → Work β} :
    Runs (ensure operation status >>= f) steps (some (.ok b)) ↔
      isSuccess status = true ∧ Runs (f ()) steps (some (.ok b)) := by
  rw [runs_ensure_bind]
  simp

end Success

/-! ### What work asks for -/

def Within (P : Step Call → Prop) (left : Prop) (w : Work α) : Prop := Program.Within P left w.run

namespace Within
variable {P : Step Call → Prop} {left : Prop}

theorem of_runs {w : Work α} {steps : List (Step Call)} {result : Option (Except Failure α)}
    (hw : w.Within P left) (h : w.Runs steps result) : ∀ s ∈ steps, P s :=
  Program.Within.of_runs hw h

theorem left_of_runs {w : Work α} {steps : List (Step Call)} (hw : w.Within P left)
    (h : w.Runs steps none) : left :=
  Program.Within.left_of_runs hw h

theorem mono {Q : Step Call → Prop} {w : Work α} (h : ∀ s, P s → Q s) (hw : w.Within P left) :
    w.Within Q left := Program.Within.mono h hw

theorem pure (a : α) : Within P left (pure a) := trivial

theorem throw (e : Failure) : Within P left (throw e : Work α) := trivial

theorem bind {w : Work α} {f : α → Work β} (hw : Within P left w)
    (hf : ∀ a, Within P left (f a)) : Within P left (w >>= f) := by
  refine Program.Within.bind hw fun result => ?_
  cases result with
  | ok a => exact hf a
  | error e => trivial

theorem once {c : Call γ} (h : ∀ answer, P ⟨c, answer⟩) (outcome : γ → Except Failure α) :
    Within P left (once c outcome) :=
  fun answer => ⟨h answer, trivial⟩

theorem ask {c : Call α} (h : ∀ answer, P ⟨c, answer⟩) : Within P left (ask c) :=
  once h _

theorem log {level : Level} {message : String} {fields : List (String × String)}
    (h : P ⟨.log ⟨level, message, fields⟩, ()⟩) : Within P left (log level message fields) :=
  once (fun _ => h) _

theorem engine {c : EngineCall α} (h : ∀ answer, P ⟨.engine c, answer⟩) :
    Within P left (engine c) :=
  engine_eq c ▸ once h _

theorem engineBefore {deadline : Nat} {c : EngineCall α}
    (h : ∀ answer, P ⟨.engineBefore deadline c, answer⟩) :
    Within P left (engineBefore deadline c) :=
  engineBefore_eq deadline c ▸ once h _

theorem scratch {label : String} (h : ∀ made, P ⟨.scratch label, made⟩) :
    Within P left (scratch label) :=
  scratch_eq label ▸ once h _

theorem upload {bucket key : String} {content : Bytes}
    (h : ∀ answer, P ⟨.upload bucket key content, answer⟩) :
    Within P left (upload bucket key content) :=
  upload_eq bucket key content ▸ once h _

theorem download {bucket key : String} (h : ∀ answer, P ⟨.download bucket key, answer⟩) :
    Within P left (download bucket key) :=
  download_eq bucket key ▸ once h _

theorem send {event : ExecutionEvent} (h : ∀ answer, P ⟨.send event, answer⟩) :
    Within P left (send event) :=
  send_eq event ▸ once h _

theorem ensure (operation : String) (status : Nat) : Within P left (ensure operation status) := by
  unfold Work.ensure
  split <;> trivial

theorem lift {p : Program Call α} (h : Program.Within P left p) :
    Within P left (ExceptT.lift p) :=
  Program.Within.bind h fun _ => trivial

theorem forM {xs : List β} {f : β → Work Unit} (h : ∀ x ∈ xs, Within P left (f x)) :
    Within P left (xs.forM f) := by
  induction xs with
  | nil => exact pure _
  | cons x xs ih =>
    show Within P left (f x >>= fun _ => xs.forM f)
    exact bind (h x List.mem_cons_self) fun _ => ih fun y hy => h y (List.mem_cons_of_mem x hy)

end Within
end SandboxWorker.Work
