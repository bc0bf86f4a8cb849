import SandboxWorker.Proofs.Execution.Events
import SandboxWorker.Proofs.Storage.Neighbours
import SandboxWorker.Proofs.Worker.Belongings
/-! Executions do not meet in a store. Each keeps to a directory of its own, so whatever two workers
do in turns, each finds and leaves there what it would find and leave alone. -/
namespace SandboxWorker
universe u

/-- One list of two, each in its order. -/
inductive Merges {α : Type u} : List α → List α → List α → Prop where
  | nil : Merges [] [] []
  | left (a : α) {as bs cs : List α} (h : Merges as bs cs) : Merges (a :: as) bs (a :: cs)
  | right (b : α) {as bs cs : List α} (h : Merges as bs cs) : Merges as (b :: bs) (b :: cs)

namespace Merges
variable {α : Type u} {as bs cs : List α}

theorem swap (h : Merges as bs cs) : Merges bs as cs := by
  induction h with
  | nil => exact .nil
  | left a _ ih => exact .right a ih
  | right b _ ih => exact .left b ih

theorem nil_left (bs : List α) : Merges [] bs bs := by
  induction bs with
  | nil => exact .nil
  | cons b bs ih => exact .right b ih

theorem subset_left (h : Merges as bs cs) : as ⊆ cs := by
  induction h with
  | nil => exact List.Subset.refl _
  | left a _ ih => exact List.cons_subset_cons a ih
  | right b _ ih => exact List.subset_cons_of_subset b ih

def inTurns : List α → List α → List α
  | [], bs => bs
  | a :: as, [] => a :: as
  | a :: as, b :: bs => a :: b :: inTurns as bs

theorem of_turns (as bs : List α) : Merges as bs (inTurns as bs) := by
  induction as generalizing bs with
  | nil => exact nil_left bs
  | cons a as ih =>
    cases bs with
    | nil => exact (nil_left (a :: as)).swap
    | cons b bs => exact .left a (.right b (ih bs))

end Merges

namespace Worker
open Program Storage

/-! ### Step by step -/

/-- A file system can have the directory of this execution. -/
def Possible (bucket : String) (id : ExecutionId) : Prop :=
  ∀ names, checked bucket = .ok names → ∀ n ∈ names ++ [id.toString], Tree.isImpossible n = false

theorem possible_objectNames : ∀ name ∈ objectNames, Tree.isImpossible name = false := by
  decide +kernel

theorem Answers.rooted {store next : Store} {γ : Type} {c : Call γ} {answer : γ}
    (h : Answers store next c answer) (hrooted : store.tree.Rooted) : next.tree.Rooted := by
  cases c with
  | upload bucket key content =>
    have hnext : (store.upload bucket (some content) key).2.tree.Rooted :=
      Store.upload_rooted hrooted _
    rwa [h] at hnext
  | download bucket key => rwa [h.2]
  | _ =>
    change next = store at h
    rwa [h]

theorem possible_of_stored {bucket key : String} {content : Bytes} {id : ExecutionId}
    {store last : Store} {steps : List (Step Call)} (h : Stored store steps last)
    (hrooted : store.tree.Rooted) (hkey : key ∈ objectsOf id)
    (hmem : (⟨.upload bucket key content, .ok ()⟩ : Step Call) ∈ steps) : Possible bucket id := by
  induction h with
  | nil store => cases hmem
  | cons hanswers more ih =>
    rcases List.mem_cons.mp hmem with heq | hmem
    · cases heq
      intro names hbucket n hn
      obtain ⟨name, -, -, hname⟩ := checked_object hkey
      refine Store.possible_of_upload hrooted hanswers (objectPath_of_checked hbucket hname) n ?_
      rw [List.mem_append, List.mem_singleton] at hn
      rw [List.mem_append, List.mem_cons]
      exact hn.imp_right .inl
    · exact ih (hanswers.rooted hrooted) hmem

section Steps
variable {bucket : String} {x y : ExecutionId} {alone shared next : Store} {s : Step Call}

theorem own_step (h : Store.Alike bucket x.toString alone shared)
    (own : Own bucket (.forExecution x) (sourcePath x) s)
    (hpossible : isDownload s.call = true → Possible bucket x)
    (hanswers : Answers shared next s.call s.answer) :
    ∃ next', Answers alone next' s.call s.answer ∧ Store.Alike bucket x.toString next' next := by
  obtain ⟨c, answer⟩ := s
  cases c with
  | upload b key content =>
    obtain ⟨rfl, hkey⟩ := own
    obtain ⟨name, -, -, hname⟩ := checked_object (List.mem_cons_of_mem (sourcePath x) hkey)
    obtain ⟨hanswer, hnext⟩ := h.upload hname content
    rw [show shared.upload b (some content) key = (answer, next) from hanswers] at hanswer hnext
    exact ⟨(alone.upload b (some content) key).2, Prod.ext hanswer.symm rfl, hnext⟩
  | download b key =>
    obtain ⟨rfl, hkey⟩ := own
    obtain ⟨name, hmem, -, hname⟩ := checked_object hkey
    obtain ⟨hanswer, rfl⟩ := hanswers
    refine ⟨alone, ⟨?_, rfl⟩, h⟩
    rw [← hanswer, h.download hname fun names hbucket n hn => ?_]
    rw [List.append_cons] at hn
    rcases List.mem_append.mp hn with hn | hn
    · exact hpossible rfl names hbucket n hn
    · rw [List.mem_singleton.mp hn]
      exact possible_objectNames name hmem
  | _ =>
    change next = shared at hanswers
    exact ⟨alone, rfl, hanswers ▸ h⟩

theorem other_step (h : Store.Alike bucket x.toString alone shared) (hne : x ≠ y)
    (own : Own bucket (.forExecution y) (sourcePath y) s)
    (hanswers : Answers shared next s.call s.answer) :
    Store.Alike bucket x.toString alone next := by
  obtain ⟨c, answer⟩ := s
  cases c with
  | upload b key content =>
    obtain ⟨rfl, hkey⟩ := own
    obtain ⟨name, -, -, hname⟩ := checked_object (List.mem_cons_of_mem (sourcePath y) hkey)
    have hnext := h.upload_beside (fun heq => hne (Uuid.toString_inj heq)) hname content
    rwa [show shared.upload b (some content) key = (answer, next) from hanswers] at hnext
  | download b key =>
    obtain ⟨-, rfl⟩ := hanswers
    exact h
  | _ =>
    change next = shared at hanswers
    exact hanswers ▸ h

end Steps

/-! ### Run by run -/

/-- The steps of one execution, out of all that were answered, are answered alone as well. -/
theorem stored_alone {bucket : String} {x y : ExecutionId} (hne : x ≠ y)
    {a b steps : List (Step Call)} (hmerge : Merges a b steps)
    (hx : ∀ s ∈ a, Own bucket (.forExecution x) (sourcePath x) s)
    (hy : ∀ s ∈ b, Own bucket (.forExecution y) (sourcePath y) s)
    (hpossible : ∀ s ∈ a, isDownload s.call = true → Possible bucket x)
    {alone shared last : Store} (h : Store.Alike bucket x.toString alone shared)
    (hstored : Stored shared steps last) :
    ∃ final, Stored alone a final ∧ Store.Alike bucket x.toString final last := by
  induction hmerge generalizing alone shared with
  | nil =>
    cases hstored
    exact ⟨alone, .nil alone, h⟩
  | left s _ ih =>
    cases hstored with
    | cons hanswers more =>
      obtain ⟨next', hnext', halike⟩ := own_step h (hx _ List.mem_cons_self)
        (hpossible _ List.mem_cons_self) hanswers
      obtain ⟨final, hfinal, hlast⟩ := ih (fun t ht => hx t (List.mem_cons_of_mem _ ht)) hy
        (fun t ht => hpossible t (List.mem_cons_of_mem _ ht)) halike more
      exact ⟨final, .cons hnext' hfinal, hlast⟩
  | right s _ ih =>
    cases hstored with
    | cons hanswers more =>
      exact ih hx (fun t ht => hy t (List.mem_cons_of_mem _ ht)) hpossible
        (other_step h hne (hy _ List.mem_cons_self) hanswers) more

/-- A worker at a request of this execution, for the source that is its own. -/
structure Engaged (bucket : String) (id : ExecutionId) where
  config : WorkerConfig
  looks : Nat
  delivery : Queue.Delivery
  request : RequestedEvent
  bucket_eq : config.storage.bucket = bucket
  decoded : requestOf delivery.content = some request
  id_eq : request.id = id
  source_eq : request.sourceCodePath = sourcePath id

namespace Engaged
variable {bucket : String} {id : ExecutionId} (w : Engaged bucket id)

def program : Program Call Unit := handle w.config w.looks w.delivery

variable {steps : List (Step Call)} {result : Option Unit} (h : w.program.Runs steps result)
include h

theorem own : ∀ s ∈ steps, Own bucket (.forExecution id) (sourcePath id) s := by
  have hown := (handle_own w.decoded).of_runs h
  rwa [w.bucket_eq, w.id_eq, w.source_eq] at hown

/-- Nothing is read in a directory that is not possible, since nothing could be stored there. -/
theorem possible {store last : Store} {all : List (Step Call)} (hall : steps ⊆ all)
    (hstored : Stored store all last) (hrooted : store.tree.Rooted) :
    ∀ s ∈ steps, isDownload s.call = true → Possible bucket id := by
  intro s hs hread
  have hmem := hall (handle_stores_first w.decoded h hs hread)
  rw [w.bucket_eq, w.id_eq] at hmem
  refine possible_of_stored hstored hrooted ?_ hmem
  simp [objectsOf, LogsPath.toList]

end Engaged

/-- What was done in the company of others is what would have been done alone: the store answers it
all in the same way, and has the same of these objects at the end. With these answers of all others
than the store, nothing else can be done alone. -/
structure SameAlone (p : Program Call Unit) (bucket : String) (keys : List String)
    (store last : Store) (steps : List (Step Call)) (result : Option Unit) : Prop where
  stored : ∃ final, Stored store steps final ∧ ∀ key ∈ keys,
    (last.download bucket key true).toOption = (final.download bucket key true).toOption
  only : ∀ steps' result' final, p.Runs steps' result' → Stored store steps' final →
    elsewhere steps' = elsewhere steps → steps' = steps ∧ result' = result

theorem Engaged.sameAlone {bucket : String} {x y : ExecutionId} (hne : x ≠ y)
    (v : Engaged bucket x) (w : Engaged bucket y) {store last : Store}
    (hrooted : store.tree.Rooted) {a b steps : List (Step Call)} {r r' : Option Unit}
    (ha : v.program.Runs a r) (hb : w.program.Runs b r') (hmerge : Merges a b steps)
    (hstored : Stored store steps last) :
    SameAlone v.program bucket (objectsOf x) store last a r := by
  obtain ⟨final, hfinal, halike⟩ := stored_alone hne hmerge (v.own ha) (w.own hb)
    (v.possible ha hmerge.subset_left hstored hrooted) (.refl bucket _ hrooted) hstored
  refine ⟨⟨final, hfinal, fun key hkey => ?_⟩, fun a' r'' final' ha' hstored' helse => ?_⟩
  · obtain ⟨name, -, -, hname⟩ := checked_object hkey
    exact halike.content_eq hname
  · exact runs_unique ha hfinal ha' hstored' helse

/-- Executions are apart. Whatever is stored for one are its logs; the objects of two of them are
different ones, none below another; and two workers at them, in whichever order they take turns at
one store, do and leave there what each would alone. -/
theorem executions_apart {x y : ExecutionId} (hne : x ≠ y) :
    (∀ config looks d steps result, (handle config looks d).Runs steps result →
      ∀ s ∈ steps, ∀ bucket key, storedAt? s.call = some (bucket, key) →
        ∃ request, requestOf d.content = some request ∧ bucket = config.storage.bucket ∧
          key ∈ (LogsPath.forExecution request.id).toList) ∧
    ((objectsOf x ++ objectsOf y).Nodup ∧
      (∀ key ∈ objectsOf x ++ objectsOf y, ∃ path, checked key = .ok path) ∧
      ∀ bucket names, checked bucket = .ok names →
        ∀ key ∈ objectsOf x ++ objectsOf y, ∀ key' ∈ objectsOf x ++ objectsOf y, key ≠ key' →
          ∃ path path', objectPath bucket key = .ok path ∧ objectPath bucket key' = .ok path' ∧
            ¬path <+: path') ∧
    ∀ bucket (v : Engaged bucket x) (w : Engaged bucket y) (store last : Store),
      store.tree.Rooted → ∀ a b steps r r', v.program.Runs a r → w.program.Runs b r' →
        Merges a b steps → Stored store steps last →
          SameAlone v.program bucket (objectsOf x) store last a r ∧
          SameAlone w.program bucket (objectsOf y) store last b r' := by
  have hkeys : ∀ key ∈ objectsOf x ++ objectsOf y, ∃ id, key ∈ objectsOf id := fun key hkey =>
    (List.mem_append.mp hkey).elim (⟨x, ·⟩) (⟨y, ·⟩)
  refine ⟨?_, ⟨nodup_objects hne, ?_, ?_⟩, ?_⟩
  · intro config looks d steps result h s hs bucket key hstored
    exact handle_stores h hs hstored
  · intro key hkey
    obtain ⟨id, hid⟩ := hkeys key hkey
    obtain ⟨name, -, -, hname⟩ := checked_object hid
    exact ⟨_, hname⟩
  · intro bucket names hbucket key hkey key' hkey' hdiffer
    obtain ⟨id, hid⟩ := hkeys key hkey
    obtain ⟨id', hid'⟩ := hkeys key' hkey'
    exact objects_apart hbucket hid hid' hdiffer
  · intro bucket v w store last hrooted a b steps r r' ha hb hmerge hstored
    exact ⟨v.sameAlone hne w hrooted ha hb hmerge hstored,
      w.sameAlone hne.symm v hrooted hb ha hmerge.swap hstored⟩

theorem requestOf_encode (r : RequestedEvent) :
    requestOf (ExecutionEvent.requested r).encode = some r := by
  rw [requestOf, ExecutionEvent.decode_text, ExecutionEvent.ofJson_body]
  rfl

def secondDay : Instant := (Instant.ofSecond? 86400 0).get (by decide)

def ownRequest (id : ExecutionId) : RequestedEvent :=
  ⟨id, secondDay, .cSharp, .mono, sourcePath id⟩

def engaged (id : ExecutionId) : Engaged "b" id where
  config := { WorkerConfig.ofLookup fun _ => none with storage := ⟨"/", "b", none⟩ }
  looks := 1
  delivery := ⟨1, (ExecutionEvent.requested (ownRequest id)).encode⟩
  request := ownRequest id
  bucket_eq := rfl
  decoded := requestOf_encode _
  id_eq := rfl
  source_eq := rfl

def withSource (store : Store) (id : ExecutionId) : Store :=
  (store.upload "b" (some []) (sourcePath id)).2

theorem withSource_rooted {store : Store} (h : store.tree.Rooted) (id : ExecutionId) :
    (withSource store id).tree.Rooted := by
  unfold withSource
  exact @Store.upload_rooted store "b" (sourcePath id) h (some [])

def bothSources : Store := withSource (withSource (.empty "/") ⟨0⟩) ⟨1⟩

theorem bothSources_rooted : bothSources.tree.Rooted := by
  unfold bothSources
  exact withSource_rooted (withSource_rooted Tree.rooted_empty _) _

/-- An engine whose containers write their names and exit. The state counts them. -/
def naming {γ : Type} : Call γ → Nat → γ × Nat
  | .engine .ping, n => (.ok 200, n)
  | .engine (.create _), n => (.ok ⟨201, some (if n = 0 then "x" else "y")⟩, n + 1)
  | .engine (.start _), n => (.ok 204, n)
  | .engine (.copy ..), n => (.ok 200, n)
  | .engine (.logs _ _), n => (.error .transport, n)
  | .engine (.inspect _), n => (.error .transport, n)
  | .engine (.kill _), n => (.ok 204, n)
  | .engine (.remove _), n => (.ok 204, n)
  | .engineBefore _ (.inspect _), n => (some (.ok ⟨200, some .exited, some 0⟩), n)
  | .engineBefore _ (.logs container since), n =>
    (some (.ok ⟨200, .ofFrames since [⟨.stdout, secondDay, Utf8.encode container⟩]⟩), n)
  | .engineBefore _ _, n => (none, n)
  | .restBefore .., n => (false, n)
  | .clock, n => (0, n)
  | .time, n => (secondDay, n)
  | .scratch _, n => (true, n)
  | .upload .., n => (.error .io, n)
  | .download .., n => (.error .io, n)
  | .send _, n => (.ok (), n)
  | .acknowledge _, n => (.ok (), n)
  | .reject .., n => (.ok (), n)
  | .log _, n => ((), n)

/-- Two programs that take turns, call by call; where one is at its end, the other goes on alone. -/
def runInTurns {σ : Type u} (answer : {γ : Type} → Call γ → σ → γ × σ) :
    Program Call Unit → Program Call Unit → σ → σ
  | .done _, q, s => (q.run answer s).2
  | .unfinished, q, s => (q.run answer s).2
  | .call c next, .call c' next', s =>
    let (a, s) := answer c s
    let (b, s) := answer c' s
    runInTurns answer (next a) (next' b) s
  | .call c next, .done _, s => ((Program.call c next).run answer s).2
  | .call c next, .unfinished, s => ((Program.call c next).run answer s).2

theorem exists_inTurns {σ : Type u} (others : {γ : Type} → Call γ → σ → γ × σ)
    (p q : Program Call Unit) (s : σ × Store) :
    ∃ a b r r', p.Runs a r ∧ q.Runs b r' ∧
      Stored s.2 (Merges.inTurns a b) (runInTurns (withStore others) p q s).2 := by
  induction p generalizing q s with
  | done u =>
    exact ⟨[], _, _, _, .done u, runs_trace (withStore others) q s, stored_trace others q s⟩
  | unfinished =>
    exact ⟨[], _, _, _, .unfinished, runs_trace (withStore others) q s, stored_trace others q s⟩
  | call c next ih =>
    have halone := stored_trace others (.call c next) s
    have hruns := runs_trace (withStore others) (.call c next) s
    cases q with
    | done u => exact ⟨_, [], _, _, hruns, .done u, halone⟩
    | unfinished => exact ⟨_, [], _, _, hruns, .unfinished, halone⟩
    | call c' next' =>
      obtain ⟨a, b, r, r', ha, hb, hstored⟩ := ih (withStore others c s).1
        (next' (withStore others c' (withStore others c s).2).1)
        (withStore others c' (withStore others c s).2).2
      exact ⟨_, _, r, r', .call _ ha, .call _ hb, .cons (answers_withStore others c s)
        (.cons (answers_withStore others c' _) hstored)⟩

def attend (id : ExecutionId) : Program Call Unit :=
  (process (engaged id).config 1 (ownRequest id)).run >>= conclude 1 id

theorem engaged_program (id : ExecutionId) : (engaged id).program = attend id :=
  handle_of_request (requestOf_encode (ownRequest id))

def afterBoth (store : Store) : Store :=
  (runInTurns (withStore naming) (attend ⟨0⟩) (attend ⟨1⟩) (0, store)).2

theorem stored_afterBoth (store : Store) : ∃ a b r r',
    (engaged ⟨0⟩).program.Runs a r ∧ (engaged ⟨1⟩).program.Runs b r' ∧
      Stored store (Merges.inTurns a b) (afterBoth store) := by
  rw [engaged_program, engaged_program]
  exact exists_inTurns naming (attend ⟨0⟩) (attend ⟨1⟩) (0, store)

def outputOf (id : ExecutionId) : Option Bytes :=
  ((afterBoth bothSources).download "b" (LogsPath.forExecution id).stdout true).toOption

theorem outputs_inTurns :
    outputOf ⟨0⟩ = some (Utf8.encode "x") ∧ outputOf ⟨1⟩ = some (Utf8.encode "y") := by
  decide +kernel

/-- Two runs step by step in turns, each with what its container wrote in its log. -/
theorem executions_apart_inTurns :
    (⟨0⟩ : ExecutionId) ≠ ⟨1⟩ ∧ outputOf ⟨0⟩ = some (Utf8.encode "x") ∧
    outputOf ⟨1⟩ = some (Utf8.encode "y") ∧ bothSources.tree.Rooted ∧ ∃ a b r r',
      (engaged ⟨0⟩).program.Runs a r ∧ (engaged ⟨1⟩).program.Runs b r' ∧
      Stored bothSources (Merges.inTurns a b) (afterBoth bothSources) ∧
      SameAlone (engaged ⟨0⟩).program "b" (objectsOf ⟨0⟩) bothSources (afterBoth bothSources)
        a r ∧
      SameAlone (engaged ⟨1⟩).program "b" (objectsOf ⟨1⟩) bothSources (afterBoth bothSources)
        b r' := by
  have hne : (⟨0⟩ : ExecutionId) ≠ ⟨1⟩ := by decide
  obtain ⟨a, b, r, r', ha, hb, hstored⟩ := stored_afterBoth bothSources
  exact ⟨hne, outputs_inTurns.1, outputs_inTurns.2, bothSources_rooted, a, b, r, r', ha, hb,
    hstored, (executions_apart hne).2.2 "b" (engaged ⟨0⟩) (engaged ⟨1⟩) _ _ bothSources_rooted
      _ _ _ _ _ ha hb (.of_turns a b) hstored⟩

end Worker
end SandboxWorker
