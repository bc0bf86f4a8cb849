import SandboxWorker.Proofs.Execution.Events
import SandboxWorker.Proofs.Execution.Replay
/-! Executions are read back from their text, and a text is an execution just if it is a valid
record. -/
namespace SandboxWorker
open Json

variable {depth : Nat}

theorem ExecutionRecord.exact_wire : ExecutionRecord.wire.Exact (depth + 2) :=
  have finishedAt := Instant.exact_wire.optional fun _ h => nomatch h
  have exitCode := Wire.exact_int64.optional fun _ h => nomatch h
  have logsPath := LogsPath.exact_wire.optional fun _ h => nomatch h
  have fields := (Uuid.exact_wire.field "id" _).pair
    ((Instant.exact_wire.field "createdAt" _).pair
      ((Stage.exact_wire.field "state" _).pair
        ((Wire.exact_string.field "sourceCodePath" _).pair
          ((Language.exact_wire.field "language" _).pair
            ((Compiler.exact_wire.field "compiler" _).pair
              ((finishedAt.field "finishedAt" _).pair
                ((exitCode.field "exitCode" _).pair
                  ((logsPath.field "logsPath" _).pair
                    (FailureReason.exact_wire.field "failureReason" _) (by decide))
                  (by decide)) (by decide)) (by decide)) (by decide)) (by decide)) (by decide))
      (by decide)) (by decide)
  fields.wire.refine fun _ => rfl

def ExecutionRecord.decode (content : String) : Except Json.Error ExecutionRecord :=
  wire.read (Utf8.encode content)

namespace Execution

theorem ofRecord_eq_ok {r : ExecutionRecord} {x : Execution} :
    ofRecord r = .ok x ↔ r = x.record := by
  constructor
  · intro h
    unfold ofRecord at h
    split at h
    · cases h
      rfl
    · cases h
  · rintro rfl
    exact ofRecord_of_valid x.valid

theorem ofDomain_eq_ok {α : Type} {read : Except DomainError α} {a : α} :
    ofDomain read = .ok a ↔ read = .ok a := by
  cases read <;> simp [ofDomain]

theorem exact_wire : Execution.wire.Exact (depth + 2) :=
  ExecutionRecord.exact_wire.refine fun _ => ofDomain_eq_ok.mpr (ofRecord_eq_ok.mpr rfl)

theorem decode_eq_ok {content : String} {x : Execution} :
    decode content = .ok x ↔ ExecutionRecord.decode content = .ok x.record := by
  rw [decode, wire, Wire.read_refine_eq_ok]
  simp only [ofDomain_eq_ok, ofRecord_eq_ok, exists_eq_right, ExecutionRecord.decode]

theorem read_encode (x : Execution) : decode (encode x) = .ok x := by
  rw [decode, encode, encode_toString]
  exact (exact_wire : Execution.wire.Exact 2).read_bytes x

/-- Every execution is read back from its text, and the texts of executions are those of valid
records. -/
theorem encode_decode_exact :
    (∀ x, decode (encode x) = .ok x) ∧
    ∀ content,
      ((∃ x, decode content = .ok x) ↔
        ∃ r, ExecutionRecord.decode content = .ok r ∧ r.validate = .ok ()) ∧
      ∀ x, decode content = .ok x ↔ ExecutionRecord.decode content = .ok x.record := by
  refine ⟨read_encode, fun content => ⟨⟨?_, ?_⟩, fun x => decode_eq_ok⟩⟩
  · rintro ⟨x, hx⟩
    exact ⟨x.record, decode_eq_ok.mp hx, x.valid⟩
  · rintro ⟨r, hr, valid⟩
    exact ⟨⟨r, valid⟩, decode_eq_ok.mpr hr⟩

end Execution
end SandboxWorker
