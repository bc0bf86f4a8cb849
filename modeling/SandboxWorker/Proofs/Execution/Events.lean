import SandboxWorker.Execution.Wire
import SandboxWorker.Proofs.Instant.Reading
import SandboxWorker.Proofs.Json.Direct
import SandboxWorker.Proofs.Json.Tags
import SandboxWorker.Proofs.Text.Hex
/-! Events are read back from their text. -/
namespace SandboxWorker
open Json

variable {depth : Nat}

theorem Uuid.exact_wire : Uuid.wire.Exact depth :=
  Wire.exact_ofText fun u => by rw [ofChars?_text]

theorem Instant.exact_wire : Instant.wire.Exact depth :=
  Wire.exact_ofText fun t => by rw [lenient_text]

theorem Language.exact_wire : Language.wire.Exact depth :=
  Wire.exact_choice fun l => by cases l; rfl

theorem Compiler.exact_wire : Compiler.wire.Exact depth :=
  Wire.exact_choice fun c => by cases c; rfl

theorem Stage.exact_wire : Stage.wire.Exact depth :=
  Wire.exact_choice fun s => by cases s <;> rfl

theorem FailureReason.exact_wire : FailureReason.wire.Exact depth :=
  Wire.exact_choice fun r => by cases r <;> rfl

theorem LogsPath.exact_wire : LogsPath.wire.Exact (depth + 1) :=
  have fields := (Wire.exact_string.field "allPath" _).pair
    ((Wire.exact_string.field "stdoutPath" _).pair (Wire.exact_string.field "stderrPath" _)
      (by decide)) (by decide)
  fields.wire.refine fun _ => rfl

theorem RequestedEvent.exact_wire : RequestedEvent.wire.Exact (depth + 1) :=
  have fields := (Uuid.exact_wire.field "id" _).pair
    ((Instant.exact_wire.field "createdAt" _).pair
      ((Language.exact_wire.field "language" _).pair
        ((Compiler.exact_wire.field "compiler" _).pair
          (Wire.exact_string.field "sourceCodePath" _) (by decide))
        (by decide)) (by decide)) (by decide)
  fields.wire.refine fun _ => rfl

theorem StartedEvent.exact_wire : StartedEvent.wire.Exact (depth + 2) :=
  have fields := (Uuid.exact_wire.field "id" _).pair
    ((Instant.exact_wire.field "createdAt" _).pair
      (LogsPath.exact_wire.field "logsPath" _) (by decide)) (by decide)
  fields.wire.refine fun _ => rfl

theorem FinishedEvent.new_self (e : FinishedEvent) :
    new e.id e.createdAt e.stage e.exitCode e.failureReason = .ok e := by
  rw [new, dif_pos e.final, dif_pos e.reason_none_iff]

theorem FinishedEvent.exact_wire : FinishedEvent.wire.Exact (depth + 1) :=
  have fields := (Uuid.exact_wire.field "id" _).pair
    ((Instant.exact_wire.field "createdAt" _).pair
      ((Stage.exact_wire.field "state" _).pair
        ((Wire.exact_int64.field "exitCode" _).pair
          (FailureReason.exact_wire.field "failureReason" _) (by decide))
        (by decide)) (by decide)) (by decide)
  fields.wire.refine fun e => by simp only [new_self, ofDomain]

namespace ExecutionEvent

theorem find?_kind (kind : EventKind) : EventKind.all.find? (·.name == kind.name) = some kind := by
  cases kind <;> rfl

theorem ofJson_body (e : ExecutionEvent) : ofJson e.kind e.body = .ok e := by
  cases e with
  | requested e =>
    have hread := (RequestedEvent.exact_wire : RequestedEvent.wire.Exact 1).lawful.buffered e
    rw [kind, body, ofJson, hread]
    rfl
  | started e =>
    have hread := (StartedEvent.exact_wire : StartedEvent.wire.Exact 2).lawful.buffered e
    rw [kind, body, ofJson, hread]
    rfl
  | finished e =>
    have hread := (FinishedEvent.exact_wire : FinishedEvent.wire.Exact 1).lawful.buffered e
    rw [kind, body, ofJson, hread]
    rfl

theorem ne_kindField {members : List (String × Json)} (names : List String)
    (hnames : members.map Prod.fst = names) (hkind : kindField ∉ names) :
    ∀ m ∈ members, m.1 ≠ kindField := by
  intro m hm h
  exact hkind (h ▸ hnames ▸ List.mem_map_of_mem hm)

theorem body_obj (e : ExecutionEvent) : ∃ members, e.body = .obj members ∧
    (∀ m ∈ members, m.1 ≠ kindField) ∧ ∀ m ∈ members, Readable (maxDepth - 1) m.2 := by
  cases e with
  | requested e =>
    exact ⟨_, rfl, ne_kindField ["id", "createdAt", "language", "compiler", "sourceCodePath"] rfl
      (by decide), (RequestedEvent.exact_wire.lawful.readable e).member⟩
  | started e =>
    exact ⟨_, rfl, ne_kindField ["id", "createdAt", "logsPath"] rfl (by decide),
      (StartedEvent.exact_wire.lawful.readable e).member⟩
  | finished e =>
    exact ⟨_, rfl, ne_kindField ["id", "createdAt", "state", "exitCode", "failureReason"] rfl
      (by decide), (FinishedEvent.exact_wire.lawful.readable e).member⟩

theorem decode_text (e : ExecutionEvent) : decode e.encode = lift (ofJson e.kind e.body) := by
  obtain ⟨members, hbody, hother, hreadable⟩ := e.body_obj
  have hjson : e.toJson = .obj ((kindField, .str e.kind.name) :: members) := by
    rw [toJson, hbody]
  rw [decode, encode, encode_toString, hjson,
    ← List.append_nil (Json.bytes _), tagged_bytes (find?_kind e.kind) hother hreadable, hbody]
  simp only [bind, Except.bind]
  cases ofJson e.kind (.obj members) <;> rfl

/-- Every event is read back from its text. -/
theorem decode_encode (e : ExecutionEvent) : decode e.encode = .ok e := by
  rw [decode_text, ofJson_body]
  rfl

end ExecutionEvent
end SandboxWorker
