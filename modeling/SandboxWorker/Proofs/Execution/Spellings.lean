import SandboxWorker.Proofs.Execution.Records
import SandboxWorker.Proofs.Json.Writing
/-! Events and executions are what their texts stand for: blanks, escapes and the order of members
make no difference, and members that no record knows are passed over. -/
namespace SandboxWorker
open Json

theorem Uuid.steady_wire : Uuid.wire.Steady .value := Wire.steady_ofText _ _

theorem Instant.steady_wire : Instant.wire.Steady .value := Wire.steady_ofText _ _

theorem Language.steady_wire : Language.wire.Steady .value := Wire.steady_choice _ _

theorem Compiler.steady_wire : Compiler.wire.Steady .value := Wire.steady_choice _ _

theorem Stage.steady_wire : Stage.wire.Steady .value := Wire.steady_choice _ _

theorem FailureReason.steady_wire : FailureReason.wire.Steady .value := Wire.steady_choice _ _

def LogsPath.layout : Layout :=
  .record [("allPath", .value), ("stdoutPath", .value), ("stderrPath", .value)]

theorem LogsPath.steady_wire : LogsPath.wire.Steady layout :=
  have fields := (Wire.steady_string.field "allPath" _).pair
    ((Wire.steady_string.field "stdoutPath" _).pair (Wire.steady_string.field "stderrPath" _))
  (fields.wire rfl).refine _ _

/-! ### Events -/

namespace EventKind

def fields : EventKind → List (String × Layout)
  | .requested =>
    [("id", .value), ("createdAt", .value), ("language", .value), ("compiler", .value),
      ("sourceCodePath", .value)]
  | .started => [("id", .value), ("createdAt", .value), ("logsPath", LogsPath.layout)]
  | .finished =>
    [("id", .value), ("createdAt", .value), ("state", .value), ("exitCode", .value),
      ("failureReason", .value)]

def layout (kind : EventKind) : Layout :=
  .record ((ExecutionEvent.kindField, .value) :: kind.fields)

end EventKind

theorem RequestedEvent.steady_wire :
    RequestedEvent.wire.Steady (.record EventKind.requested.fields) :=
  have fields := (Uuid.steady_wire.field "id" _).pair
    ((Instant.steady_wire.field "createdAt" _).pair
      ((Language.steady_wire.field "language" _).pair
        ((Compiler.steady_wire.field "compiler" _).pair
          (Wire.steady_string.field "sourceCodePath" _))))
  (fields.wire rfl).refine _ _

theorem StartedEvent.steady_wire : StartedEvent.wire.Steady (.record EventKind.started.fields) :=
  have fields := (Uuid.steady_wire.field "id" _).pair
    ((Instant.steady_wire.field "createdAt" _).pair (LogsPath.steady_wire.field "logsPath" _))
  (fields.wire rfl).refine _ _

theorem FinishedEvent.steady_wire : FinishedEvent.wire.Steady (.record EventKind.finished.fields) :=
  have fields := (Uuid.steady_wire.field "id" _).pair
    ((Instant.steady_wire.field "createdAt" _).pair
      ((Stage.steady_wire.field "state" _).pair
        ((Wire.steady_int64.field "exitCode" _).pair
          (FailureReason.steady_wire.field "failureReason" _))))
  (fields.wire rfl).refine _ _

namespace ExecutionEvent

theorem ofJson_eq_ok {kind : EventKind} {body : Json} {e : ExecutionEvent} :
    ofJson kind body = .ok e ↔
      (∃ a, kind = .requested ∧ RequestedEvent.wire.buffered body = .ok a ∧ e = .requested a) ∨
      (∃ a, kind = .started ∧ StartedEvent.wire.buffered body = .ok a ∧ e = .started a) ∨
      (∃ a, kind = .finished ∧ FinishedEvent.wire.buffered body = .ok a ∧ e = .finished a) := by
  cases kind with
  | requested =>
    rw [ofJson, bind_eq_ok]
    simp [pure, Except.pure, eq_comm]
  | started =>
    rw [ofJson, bind_eq_ok]
    simp [pure, Except.pure, eq_comm]
  | finished =>
    rw [ofJson, bind_eq_ok]
    simp [pure, Except.pure, eq_comm]

theorem kind_ofJson {kind : EventKind} {body : Json} {e : ExecutionEvent}
    (h : ofJson kind body = .ok e) : e.kind = kind := by
  rcases ofJson_eq_ok.mp h with ⟨a, rfl, -, rfl⟩ | ⟨a, rfl, -, rfl⟩ | ⟨a, rfl, -, rfl⟩ <;> rfl

theorem ofJson_widens {kind : EventKind} {body body' : Json} {e : ExecutionEvent}
    (hwidens : Json.Widens (.record kind.fields) body body') (h : ofJson kind body = .ok e) :
    ofJson kind body' = .ok e := by
  rw [ofJson_eq_ok] at h ⊢
  rcases h with ⟨a, rfl, ha, rfl⟩ | ⟨a, rfl, ha, rfl⟩ | ⟨a, rfl, ha, rfl⟩
  · exact .inl ⟨a, rfl, RequestedEvent.steady_wire.tolerates.widens hwidens ha, rfl⟩
  · exact .inr (.inl ⟨a, rfl, StartedEvent.steady_wire.tolerates.widens hwidens ha, rfl⟩)
  · exact .inr (.inr ⟨a, rfl, FinishedEvent.steady_wire.tolerates.widens hwidens ha, rfl⟩)

def ofTree? (j : Json) : Option ExecutionEvent :=
  (untagged kindField EventKind.all EventKind.name j).bind fun p => (ofJson p.1 p.2).toOption

theorem ofTree?_widens {j j' : Json} {e : ExecutionEvent} (hwidens : Json.Widens e.kind.layout j j')
    (h : ofTree? j = some e) : ofTree? j' = some e := by
  obtain ⟨⟨kind, body⟩, htagged, hread⟩ := Option.bind_eq_some_iff.mp h
  rw [toOption_eq_some] at hread
  rw [kind_ofJson hread] at hwidens
  obtain ⟨body', htagged', hbody⟩ := untagged_widens hwidens htagged
  exact Option.bind_eq_some_iff.mpr ⟨_, htagged', toOption_eq_some.mpr (ofJson_widens hbody hread)⟩

theorem decode_denotes {content : String} {d : Datum} (h : Denotes content d) :
    (decode content).toOption = (d.tree? maxDepth).bind ofTree? := by
  obtain ⟨back, hread⟩ := Datum.Reads.read_denotes
    (reads_tagged kindField EventKind.all EventKind.name) h
  rw [decode, toOption_bind, hread]
  cases d.tree? maxDepth with
  | none => rfl
  | some j =>
    rw [Option.bind_some, Option.bind_some, ofTree?]
    cases untagged kindField EventKind.all EventKind.name j with
    | none => rfl
    | some p =>
      obtain ⟨kind, body⟩ := p
      rw [Option.map_some, Option.bind_some, Option.bind_some]
      simp only [endText_gap]
      cases ofJson kind body <;> rfl

theorem decode_widens {content content' : String} {d d' : Datum} (hd : Denotes content d)
    (hd' : Denotes content' d') {accepts : Nat → Datum → Prop}
    (haccepts : ∀ depth d, accepts depth d → d.fits depth = true) {e : ExecutionEvent}
    (hwidens : d.Widens accepts e.kind.layout d') (h : decode content = .ok e) :
    decode content' = .ok e := by
  rw [← toOption_eq_some, decode_denotes hd, Datum.tree?] at h
  rw [← toOption_eq_some, decode_denotes hd', Datum.tree?]
  cases hfits : d.fits maxDepth with
  | false =>
    rw [hfits] at h
    cases h
  | true =>
    rw [hfits, if_pos rfl, Option.bind_some] at h
    rw [hwidens.fits haccepts hfits, if_pos rfl, Option.bind_some]
    clear hd hd' hfits
    induction hwidens with
    | refl => exact h
    | tail _ hstep ih => exact ofTree?_widens (hstep.tree (.inl rfl)) ih

theorem decode_same {content content' : String} {d d' : Datum} (hd : Denotes content d)
    (hd' : Denotes content' d') (hsame : d.Same d') :
    (decode content).toOption = (decode content').toOption := by
  have hnone : ∀ depth d, (fun _ _ => False : Nat → Datum → Prop) depth d →
      d.fits depth = true := nofun
  refine Option.ext fun e => ?_
  rw [toOption_eq_some, toOption_eq_some]
  exact ⟨decode_widens hd hd' hnone hsame.widens, decode_widens hd' hd hnone hsame.symm.widens⟩

end ExecutionEvent

/-! ### Executions -/

namespace Execution

def layout : Layout :=
  .record [("id", .value), ("createdAt", .value), ("state", .value), ("sourceCodePath", .value),
    ("language", .value), ("compiler", .value), ("finishedAt", .value), ("exitCode", .value),
    ("logsPath", LogsPath.layout), ("failureReason", .value)]

theorem steady_wire : wire.Steady layout :=
  have finishedAt := Instant.steady_wire.optional
  have exitCode := Wire.steady_int64.optional
  have logsPath := LogsPath.steady_wire.optional
  have fields := (Uuid.steady_wire.field "id" _).pair
    ((Instant.steady_wire.field "createdAt" _).pair
      ((Stage.steady_wire.field "state" _).pair
        ((Wire.steady_string.field "sourceCodePath" _).pair
          ((Language.steady_wire.field "language" _).pair
            ((Compiler.steady_wire.field "compiler" _).pair
              ((finishedAt.field "finishedAt" _).pair
                ((exitCode.field "exitCode" _).pair
                  ((logsPath.field "logsPath" _).pair
                    (FailureReason.steady_wire.field "failureReason" _)))))))))
  ((fields.wire rfl).refine _ _).refine _ _

end Execution

/-- Events and executions are read from whatever stands for the same data, and from data with
members that the records do not know. -/
theorem decode_spellings :
    (∀ {content content' : String} {d d' : Datum}, Denotes content d → Denotes content' d' →
      d.Same d' →
        (ExecutionEvent.decode content).toOption = (ExecutionEvent.decode content').toOption ∧
        (Execution.decode content).toOption = (Execution.decode content').toOption) ∧
    (∀ {content content' : String} {d d' : Datum} {e : ExecutionEvent}, Denotes content d →
      Denotes content' d' → d.Widens Datum.Accepted e.kind.layout d' →
        ExecutionEvent.decode content = .ok e → ExecutionEvent.decode content' = .ok e) ∧
    (∀ {content content' : String} {d d' : Datum} {x : Execution}, Denotes content d →
      Denotes content' d' → d.Widens (fun _ _ => True) Execution.layout d' →
        Execution.decode content = .ok x → Execution.decode content' = .ok x) := by
  refine ⟨fun hd hd' hsame => ⟨ExecutionEvent.decode_same hd hd' hsame, ?_⟩,
    fun hd hd' => ExecutionEvent.decode_widens hd hd' fun _ _ => Datum.Accepted.fits,
    fun hd hd' hwidens => Execution.steady_wire.read_widens hd hd' hwidens⟩
  exact Execution.steady_wire.read_same hd hd' hsame

/-! ### Some texts -/

namespace ExecutionEvent

/-- A member whose name is no text is refused, known or not. -/
theorem decode_unnamed {content : String} {members : List (Units × Datum)}
    (h : Denotes content (.object members)) {m : Units × Datum} (hm : m ∈ members)
    (hname : string? m.1 = none) : (decode content).toOption = none := by
  have hfits : (Datum.object members).fits maxDepth = false := by
    rw [Bool.eq_false_iff, maxDepth, Datum.fits, ne_eq, Datum.membersFit_iff]
    intro hall
    have hsome := (hall m hm).1
    rw [hname] at hsome
    cases hsome
  rw [decode_denotes h, Datum.tree?, hfits]
  rfl

end ExecutionEvent

def announced : ExecutionEvent :=
  .started
    { id := ⟨7⟩, createdAt := ⟨1600000042, 500000000, by decide, by decide, by decide, by decide⟩
      logsPath := .forExecution ⟨7⟩ }

def awaited : Execution where
  record :=
    { id := ⟨7⟩, createdAt := ⟨1600000042, 500000000, by decide, by decide, by decide, by decide⟩
      stage := .created, sourceCodePath := sourcePath ⟨7⟩, language := .cSharp, compiler := .mono
      finishedAt := none, exitCode := none, logsPath := none, failureReason := .none }
  valid := rfl

def announcedMembers : List (String × Json) :=
  match announced.toJson with
  | .obj members => members
  | _ => []

def awaitedMembers : List (String × Json) :=
  match Execution.wire.write awaited with
  | .obj members => members
  | _ => []

theorem announcedMembers_eq : ∃ members,
    announcedMembers = (ExecutionEvent.kindField, .str announced.kind.name) :: members ∧
      ∀ m ∈ members, Readable (maxDepth - 1) m.2 := by
  obtain ⟨members, hbody, -, hreadable⟩ := announced.body_obj
  exact ⟨members, by rw [announcedMembers, ExecutionEvent.toJson, hbody], hreadable⟩

theorem announced_readable : ∀ m ∈ announcedMembers, Readable (maxDepth - 1) m.2 := by
  obtain ⟨members, hmembers, hreadable⟩ := announcedMembers_eq
  rw [hmembers, List.forall_mem_cons]
  exact ⟨.str _, hreadable⟩

theorem awaited_readable : ∀ m ∈ awaitedMembers, Readable (maxDepth - 1) m.2 :=
  (Execution.exact_wire.lawful.readable awaited).member

theorem announced_text : announced.encode = (Json.obj announcedMembers).toString := rfl

theorem announced_read : ExecutionEvent.decode announced.encode = .ok announced := by
  rw [ExecutionEvent.decode_text, ExecutionEvent.ofJson_body]
  rfl

theorem awaited_text : awaited.encode = (Json.obj awaitedMembers).toString := rfl

/-- The tag and the fields may come in the reverse order, and something else in front of them. -/
theorem decode_spellings_reverse :
    ExecutionEvent.decode (Json.obj announcedMembers.reverse).toString = .ok announced ∧
    ExecutionEvent.decode (Json.obj (("attempt", .arr [.null]) :: announcedMembers)).toString =
      .ok announced ∧
    Execution.decode (Json.obj awaitedMembers.reverse).toString = .ok awaited ∧
    Execution.decode (Json.obj (("attempt", .arr [.null]) :: awaitedMembers)).toString =
      .ok awaited := by
  obtain ⟨hsame, hevent, hexecution⟩ := decode_spellings
  have htext {members : List (String × Json)} (h : ∀ m ∈ members, Readable (maxDepth - 1) m.2) :
      Denotes (Json.obj members).toString (.ofJson (.obj members)) := denotes_toString (.obj h)
  have hadded : Readable (maxDepth - 1) (.arr [.null]) :=
    .arr (List.forall_mem_singleton.mpr .null)
  have hannounced := announced_read
  have hawaited := awaited.read_encode
  rw [announced_text] at hannounced
  rw [awaited_text] at hawaited
  refine ⟨?_, ?_, ?_, ?_⟩
  · have hboth := (hsame (htext announced_readable)
      (htext fun m hm => announced_readable m (List.mem_reverse.mp hm))
      (ofJson_perm (List.reverse_perm _).symm)).1
    rwa [hannounced, eq_comm, toOption_ok, toOption_eq_some] at hboth
  · refine hevent (htext announced_readable)
      (htext (List.forall_mem_cons.mpr ⟨hadded, announced_readable⟩)) ?_ hannounced
    exact ofJson_unknown (by decide) (accepted_ofJson hadded) announcedMembers
  · have hboth := (hsame (htext awaited_readable)
      (htext fun m hm => awaited_readable m (List.mem_reverse.mp hm))
      (ofJson_perm (List.reverse_perm _).symm)).2
    rwa [hawaited, eq_comm, toOption_ok, toOption_eq_some] at hboth
  · refine hexecution (htext awaited_readable)
      (htext (List.forall_mem_cons.mpr ⟨hadded, awaited_readable⟩)) ?_ hawaited
    exact ofJson_unknown (by decide) trivial awaitedMembers

def halfEntry : Entry :=
  { Datum.entryOf ("", .null) with
    name := [0xD800], nameText := ['\\', 'u', 'd', '8', '0', '0'] }

def halfNamed (members : List (String × Json)) : String :=
  String.ofList ('\x7b' :: (Datum.entryText halfEntry ++ ',' :: Json.membersText members))

theorem denotes_halfNamed {depth : Nat} (m : String × Json) (members : List (String × Json))
    (h : ∀ n ∈ m :: members, Readable depth n.2) : Denotes (halfNamed (m :: members))
      (.object (([0xD800], .null) :: Datum.ofMembers (m :: members))) := by
  have hname : Spells halfEntry.name halfEntry.nameText :=
    .code (a := 'd') (b := '8') (c := '0') (d := '0') (w := 13) (x := 8) (y := 0) (z := 0)
      (by decide) (by decide) (by decide) (by decide) .nil
  have hnames : ∀ e ∈ halfEntry :: (m :: members).map Datum.entryOf, Spells e.name e.nameText :=
    List.forall_mem_cons.mpr ⟨hname, Datum.spells_entryOf (m :: members)⟩
  have hnull : halfEntry.datum.Text halfEntry.text := .null
  have htext := Datum.Text.object hnames
    (List.forall_mem_cons.mpr ⟨hnull, Datum.text_entryOf h⟩) Gap.none
  rw [List.map_cons, Datum.member_entryOf] at htext
  refine ⟨.none, .none, _, htext, ?_⟩
  rw [halfNamed, String.toList_ofList, Datum.membersText_cons, List.map_cons, Datum.entriesText,
    Datum.entriesText]
  simp [halfEntry, Datum.entryOf, Datum.itemOf, Datum.separatorText, Gap.none]

/-- A member that no event has is refused all the same if its name is half of a pair. -/
theorem half_named_refused : ¬ ∀ {content content' : String} {members : List (Units × Datum)}
    {us : Units} {d : Datum} {e : ExecutionEvent}, Denotes content (.object members) →
      Denotes content' (.object ((us, d) :: members)) →
        (∀ name ∈ ExecutionEvent.kindField :: e.kind.fields.map Prod.fst, us ≠ unitsOfString name) →
          d.Accepted (maxDepth - 1) → ExecutionEvent.decode content = .ok e →
            ExecutionEvent.decode content' = .ok e := by
  intro h
  have htext : Denotes announced.encode (.object (Datum.ofMembers announcedMembers)) :=
    denotes_toString (.obj announced_readable)
  have hhalf : Denotes (halfNamed announcedMembers)
      (.object (([0xD800], .null) :: Datum.ofMembers announcedMembers)) := by
    have hreadable := announced_readable
    obtain ⟨members, hmembers, -⟩ := announcedMembers_eq
    rw [hmembers] at hreadable ⊢
    exact denotes_halfNamed _ members hreadable
  have hread := h htext hhalf (by decide) (accepted_ofJson .null) announced_read
  have hnone := ExecutionEvent.decode_unnamed hhalf List.mem_cons_self (by decide)
  rw [hread] at hnone
  cases hnone

end SandboxWorker
