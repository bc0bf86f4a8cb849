import SandboxWorker.Proofs.Storage.Confinement
import SandboxWorker.Proofs.Storage.Growth
import SandboxWorker.Proofs.Success
/-! What a store holds in the course of its use: at every path the content that was stored there
last, however the directories around it came about. -/
namespace SandboxWorker.Storage
open Tree Path

namespace Action

/-- The path of the object that an action is about. -/
def object? : Action → Option (List String)
  | upload bucket _ key | download bucket key .. => (objectPath bucket key).toOption
  | _ => none

def bucket? : Action → Option (List String)
  | createBucket bucket | upload bucket .. | download bucket .. => (checked bucket).toOption
  | edit .. => none

end Action

namespace Desk

def stores? (d : Desk) : Action → Option (List String × Bytes)
  | .upload bucket file key =>
    match (d.perform (.upload bucket file key)).1, objectPath bucket key, d.files file with
    | .ok (), .ok path, some content => some (path, content)
    | _, _, _ => none
  | _ => none

def log (d : Desk) : List Action → List (List String × Bytes)
  | [] => []
  | a :: rest => (d.stores? a).toList ++ (d.perform a).2.log rest

theorem run_concat (d : Desk) (past : List Action) (a : Action) :
    d.run (past ++ [a]) = ((d.run past).perform a).2 := by
  rw [run, List.foldl_append]
  rfl

theorem log_concat (d : Desk) (past : List Action) (a : Action) :
    d.log (past ++ [a]) = d.log past ++ ((d.run past).stores? a).toList := by
  induction past generalizing d with
  | nil => simp [log, run]
  | cons b past ih =>
    rw [List.cons_append, log, ih, log, List.append_assoc]
    rfl

end Desk

/-- What was stored last at a path. -/
def latest (log : List (List String × Bytes)) (path : List String) : Option Bytes :=
  log.reverse.lookup path

theorem latest_concat (log : List (List String × Bytes)) (path q : List String) (content : Bytes) :
    latest (log ++ [(path, content)]) q = if q = path then some content else latest log q := by
  rw [latest, List.reverse_concat, List.lookup_cons]
  by_cases h : q = path
  · simp [h]
  · rw [beq_eq_false_iff_ne.mpr h, if_neg h]
    rfl

theorem mem_of_latest {log : List (List String × Bytes)} {path : List String} {content : Bytes}
    (h : latest log path = some content) : (path, content) ∈ log := by
  obtain ⟨front, rest, hsplit, -⟩ := List.lookup_eq_some_iff.mp h
  rw [← List.mem_reverse, hsplit]
  simp

/-- Spelled out, no object lies on the way to another one or to a bucket. -/
structure Orderly (actions : List Action) : Prop where
  plain : ∀ a ∈ actions, ∀ name ∈ a.names, Plain name
  apart : ∀ a ∈ actions, ∀ b ∈ actions, ∀ p ∈ a.object?, ∀ q ∈ b.object?, p <+: q → p = q
  clear : ∀ a ∈ actions, ∀ b ∈ actions, ∀ p ∈ a.object?, ∀ q ∈ b.bucket?, ¬p <+: q

instance (actions : List Action) : Decidable (Orderly actions) :=
  decidable_of_iff
    ((∀ a ∈ actions, ∀ name ∈ a.names, Plain name) ∧
      (∀ a ∈ actions, ∀ b ∈ actions, ∀ p ∈ a.object?, ∀ q ∈ b.object?, p <+: q → p = q) ∧
      ∀ a ∈ actions, ∀ b ∈ actions, ∀ p ∈ a.object?, ∀ q ∈ b.bucket?, ¬p <+: q)
    ⟨fun ⟨hplain, hapart, hclear⟩ => ⟨hplain, hapart, hclear⟩,
      fun h => ⟨h.plain, h.apart, h.clear⟩⟩

theorem Orderly.of_append {past more : List Action} (h : Orderly (past ++ more)) :
    Orderly past := by
  have hmem : ∀ a ∈ past, a ∈ past ++ more := fun a ha => List.mem_append_left _ ha
  exact ⟨fun a ha => h.plain a (hmem a ha),
    fun a ha b hb => h.apart a (hmem a ha) b (hmem b hb),
    fun a ha b hb => h.clear a (hmem a ha) b (hmem b hb)⟩

/-- Whether a file system can have this path below a root. -/
structure Feasible (root : String) (path : List String) : Prop where
  no_null : hasNull path = false
  possible : ∀ name ∈ path, isImpossible name = false
  short : (join root ("/".intercalate path)).utf8ByteSize ≤ maxPath

structure Holds (s : Store) (root : String) (past : List Action)
    (log : List (List String × Bytes)) : Prop where
  root_eq : s.root = root
  rooted : s.tree.Rooted
  files : ∀ path content, s.tree.find? path = some (.file content) ↔ latest log path = some content
  directories : ∀ path, path ≠ [] → s.tree.find? path = some .directory →
    (∃ a ∈ past, ∃ q, a.bucket? = some q ∧ path <+: q) ∨
    ∃ a ∈ past, ∃ q, a.object? = some q ∧ path <+: q.dropLast
  reached : ∀ path content, (path, content) ∈ log → ∃ bucket file key,
    .upload bucket file key ∈ past ∧ objectPath bucket key = .ok path ∧
    s.reaches (join bucket key) = true

namespace Holds
variable {s : Store} {root : String} {past : List Action} {log : List (List String × Bytes)}

theorem start (root : String) : Holds (.empty root) root [] [] where
  root_eq := rfl
  rooted := rooted_empty
  files path content := by
    by_cases hpath : path = []
    · subst hpath
      exact ⟨nofun, nofun⟩
    · rw [show (Store.empty root).tree = Tree.empty from rfl, find?_empty hpath]
      exact ⟨nofun, nofun⟩
  directories path hpath h := by
    rw [show (Store.empty root).tree = Tree.empty from rfl, find?_empty hpath] at h
    cases h
  reached _ _ h := by cases h

theorem past_concat (h : Holds s root past log) (a : Action) : Holds s root (past ++ [a]) log where
  root_eq := h.root_eq
  rooted := h.rooted
  files := h.files
  directories path hpath hfound := by
    rcases h.directories path hpath hfound with ⟨b, hb, hq⟩ | ⟨b, hb, hq⟩
    · exact .inl ⟨b, List.mem_append_left _ hb, hq⟩
    · exact .inr ⟨b, List.mem_append_left _ hb, hq⟩
  reached path content hmem := by
    obtain ⟨bucket, file, key, hpast, hpath, hreaches⟩ := h.reached path content hmem
    exact ⟨bucket, file, key, List.mem_append_left _ hpast, hpath, hreaches⟩

theorem grow (h : Holds s root past log) {tree : Tree} {path : List String} {a : Action}
    (hgrows : s.tree.Grows tree path)
    (hpath : (∃ q, a.bucket? = some q ∧ path <+: q) ∨
      ∃ q, a.object? = some q ∧ path <+: q.dropLast) :
    Holds ⟨s.root, tree⟩ root (past ++ [a]) log := by
  have hmore := h.past_concat a
  refine ⟨h.root_eq, hgrows.rooted h.rooted, fun q content => ?_, fun q hq hfound => ?_,
    hmore.reached⟩
  · rw [← h.files]
    refine ⟨fun hfound => ?_, fun hfound => hgrows.kept q _ trivial hfound⟩
    rcases hgrows.made q _ hfound with hold | ⟨hmade, -⟩
    · exact hold
    · cases hmade
  · have ha : a ∈ past ++ [a] := by simp
    rcases hgrows.made q _ hfound with hold | ⟨-, hmade⟩
    · exact hmore.directories q hq hold
    · rcases hpath with ⟨p, hp, hpath⟩ | ⟨p, hp, hpath⟩
      · exact .inl ⟨a, ha, p, hp, hmade.trans hpath⟩
      · exact .inr ⟨a, ha, p, hp, hmade.trans hpath⟩

/-- Nothing but the object itself changes when one is put into its directory. -/
theorem put (h : Holds s root past log) {bucket file key : String} {directory : List String}
    {name : String} (content : Bytes) (hpast : .upload bucket file key ∈ past)
    (hpath : objectPath bucket key = .ok (directory ++ [name]))
    (hreaches : s.reaches (join bucket key) = true) (himpossible : isImpossible name = false)
    (hnull : hasNull [name] = false) (hdirectory : s.tree.find? directory = some .directory)
    (hfree : s.tree.find? (directory ++ [name]) ≠ some .directory) :
    Holds ⟨s.root, s.tree.put (directory ++ [name]) (.file content)⟩ root past
      (log ++ [(directory ++ [name], content)]) := by
  have hne : directory ++ [name] ≠ [] := by simp
  refine ⟨h.root_eq, put_rooted h.rooted himpossible hnull hdirectory (.inr hfree),
    fun q c => ?_, fun q hq hfound => ?_, fun q c hmem => ?_⟩
  · rw [find?_put _ hne, latest_concat]
    split
    · simp
    · exact h.files q c
  · rw [find?_put _ hne] at hfound
    split at hfound
    · cases hfound
    · exact h.directories q hq hfound
  · rcases List.mem_append.mp hmem with hmem | hmem
    · exact h.reached q c hmem
    · obtain ⟨rfl, rfl⟩ := Prod.mk.inj (List.mem_singleton.mp hmem)
      exact ⟨bucket, file, key, hpast, hpath, hreaches⟩

end Holds

theorem Desk.stores?_of_fails {d : Desk} {bucket file key : String} {e : StoreError}
    (h : (d.perform (.upload bucket file key)).1 = .error e) :
    d.stores? (.upload bucket file key) = none := by
  rw [stores?, h]

theorem Desk.stores?_of_ok {d : Desk} {bucket file key : String} {path : List String}
    {content : Bytes} (h : (d.perform (.upload bucket file key)).1 = .ok ())
    (hpath : objectPath bucket key = .ok path) (hfile : d.files file = some content) :
    d.stores? (.upload bucket file key) = some (path, content) := by
  simp only [stores?, h, hpath, hfile]

theorem Desk.perform_holds {d : Desk} {root : String} {past : List Action}
    {log : List (List String × Bytes)} (h : Holds d.store root past log) (a : Action) :
    Holds (d.perform a).2.store root (past ++ [a]) (log ++ (d.stores? a).toList) := by
  cases a with
  | createBucket bucket =>
    simp only [stores?, Option.toList_none, List.append_nil]
    rcases d.store.createBucket_grows bucket with hsame | ⟨path, tree, hpath, hgrows, hstore⟩
    · simp only [perform, hsame]
      exact h.past_concat _
    · simp only [perform, hstore]
      exact h.grow hgrows (.inl ⟨path, toOption_eq_some.mpr hpath, List.prefix_refl _⟩)
  | upload bucket file key =>
    cases hupload : d.store.upload bucket (d.files file) key with
    | mk answer next =>
      cases answer with
      | error e =>
        simp only [stores?, perform, hupload, Option.toList_none, List.append_nil]
        rcases Store.upload_fails hupload with rfl | ⟨path, tree, hpath, hgrows, rfl⟩
        · exact h.past_concat _
        · exact h.grow hgrows (.inr ⟨path, toOption_eq_some.mpr hpath, List.prefix_refl _⟩)
      | ok u =>
        obtain ⟨directory, name, content, tree, hfile, hpath, hreaches, hgrows, himpossible, hnull,
          hdirectory, hfree, rfl⟩ := Store.upload_succeeds hupload
        have hok : (d.perform (.upload bucket file key)).1 = .ok () := by rw [perform, hupload]
        have hstored := Desk.stores?_of_ok hok hpath hfile
        have hobject : (Action.upload bucket file key).object? = some (directory ++ [name]) :=
          toOption_eq_some.mpr hpath
        have hway : directory <+: (directory ++ [name]).dropLast := by simp
        have hpast : Action.upload bucket file key ∈ past ++ [.upload bucket file key] := by simp
        rw [hstored, Option.toList_some]
        simp only [perform, hupload]
        exact (h.grow hgrows (.inr ⟨_, hobject, hway⟩)).put content hpast hpath hreaches
          himpossible hnull hdirectory hfree
  | download bucket key file writable =>
    simp only [stores?, Option.toList_none, List.append_nil]
    simp only [perform]
    split <;> exact h.past_concat _
  | edit file content =>
    simp only [stores?, Option.toList_none, List.append_nil]
    exact h.past_concat _

theorem Desk.run_holds (root : String) (files : String → Option Bytes) (past : List Action) :
    Holds ((Desk.mk (.empty root) files).run past).store root past
      ((Desk.mk (.empty root) files).log past) := by
  induction past using List.reverseRecOn with
  | nil => exact .start root
  | append_singleton past a ih =>
    rw [Desk.run_concat, Desk.log_concat]
    exact perform_holds ih a

/-! ### Looking objects up -/

/-- The way to a path that is free, past no file, ends where nothing is. -/
theorem Tree.walk_eq_missing {t : Tree} {directory rest : List String}
    (hpossible : ∀ name ∈ rest, isImpossible name = false)
    (hclear : ∀ front back, rest = front ++ back → back ≠ [] →
      ∀ content, t.find? (directory ++ front) ≠ some (.file content))
    (hfree : t.find? (directory ++ rest) = none) (hrest : rest ≠ []) :
    t.walk directory rest = .missing := by
  induction rest generalizing directory with
  | nil => exact absurd rfl hrest
  | cons name rest ih =>
    rw [walk, hpossible name List.mem_cons_self, if_neg Bool.false_ne_true]
    cases hfound : t.find? (directory ++ [name]) with
    | none => rfl
    | some e =>
      have hmore : rest ≠ [] := by
        rintro rfl
        rw [hfound] at hfree
        cases hfree
      cases e with
      | file content => exact absurd hfound (hclear [name] rest rfl hmore content)
      | directory =>
        refine ih (fun n hn => hpossible n (List.mem_cons_of_mem _ hn)) ?_ (by simpa using hfree)
          hmore
        rintro front back rfl hback content
        simpa using hclear (name :: front) back rfl hback content

def Store.object? (s : Store) (path : List String) : Option Bytes :=
  match s.tree.place path false with
  | .file content => some content
  | _ => none

theorem Store.object?_eq_some {s : Store} {path : List String} {content : Bytes} :
    s.object? path = some content ↔ s.tree.place path false = .file content := by
  unfold object?
  split
  · rename_i stored hplace
    rw [hplace, Option.some_inj, Place.file.injEq]
  · rename_i hplace
    exact ⟨nofun, fun h => absurd h (hplace content)⟩

namespace Holds
variable {s : Store} {root : String} {past : List Action} {log : List (List String × Bytes)}

theorem object?_eq (h : Holds s root past log) (path : List String) :
    s.object? path = latest log path := by
  ext content
  rw [Store.object?_eq_some, h.rooted.place_eq_file_iff, h.files]

theorem walk_eq_missing (h : Holds s root past log) {bucket key file : String} {writable : Bool}
    {path : List String} (horderly : Orderly (past ++ [.download bucket key file writable]))
    (hpath : objectPath bucket key = .ok path)
    (hpossible : ∀ name ∈ path, isImpossible name = false) (hnone : latest log path = none) :
    s.tree.walk [] path = .missing := by
  have hnow : Action.download bucket key file writable ∈
      past ++ [.download bucket key file writable] := by simp
  have hobject : path ∈ (Action.download bucket key file writable).object? :=
    toOption_eq_some.mpr hpath
  have hne : path ≠ [] := by
    obtain ⟨-, hkey, rfl⟩ := objectPath_eq_ok.mp hpath
    exact List.append_ne_nil_of_right_ne_nil _ hkey.ordinary_ne_nil
  refine Tree.walk_eq_missing hpossible (fun front back hsplit hback content hfound => ?_) ?_ hne
  · rw [List.nil_append, h.files] at hfound
    obtain ⟨b, f, k, hmem, hfront, -⟩ := h.reached front content (mem_of_latest hfound)
    have heq := horderly.apart _ (List.mem_append_left _ hmem) _ hnow front
      (toOption_eq_some.mpr hfront) path hobject (hsplit ▸ List.prefix_append _ _)
    rw [heq] at hsplit
    exact hback (List.self_eq_append_right.mp hsplit)
  · rw [List.nil_append]
    cases hfound : s.tree.find? path with
    | none => rfl
    | some e =>
      cases e with
      | file content =>
        rw [(h.files path content).mp hfound] at hnone
        cases hnone
      | directory =>
        rcases h.directories path hne hfound with ⟨b, hb, q, hq, hway⟩ | ⟨b, hb, q, hq, hway⟩
        · exact absurd hway (horderly.clear _ hnow _ (List.mem_append_left _ hb) path hobject q hq)
        · have heq := horderly.apart _ hnow _ (List.mem_append_left _ hb) path hobject q hq
            (hway.trans (List.dropLast_prefix q))
          have hlength := hway.length_le
          rw [← heq, List.length_dropLast] at hlength
          have hpositive := List.length_pos_iff.mpr hne
          omega

theorem reaches_of_latest (h : Holds s root past log) {bucket key : String}
    {path : List String} {content : Bytes} (hplain : ∀ a ∈ past, ∀ name ∈ a.names, Plain name)
    (hbucket : Plain bucket) (hkey : Plain key) (hpath : objectPath bucket key = .ok path)
    (hlatest : latest log path = some content) : s.reaches (join bucket key) = true := by
  obtain ⟨b, f, k, hmem, hb, hreaches⟩ := h.reached path content (mem_of_latest hlatest)
  have hnames := hplain _ hmem
  rw [(hnames b (by simp [Action.names])).join_eq (hnames k (by simp [Action.names]))] at hreaches
  rw [hbucket.join_eq hkey, ← (objectPath_eq_ok.mp hpath).2.2, (objectPath_eq_ok.mp hb).2.2]
  exact hreaches

theorem download_stored (h : Holds s root past log) {bucket key : String} {path : List String}
    {content : Bytes} (hplain : ∀ a ∈ past, ∀ name ∈ a.names, Plain name)
    (hbucket : Plain bucket) (hkey : Plain key) (hpath : objectPath bucket key = .ok path)
    (hlatest : latest log path = some content) : s.download bucket key true = .ok content := by
  have hreaches := h.reaches_of_latest hplain hbucket hkey hpath hlatest
  have hplace := h.rooted.place_eq_file_iff.mpr ((h.files path content).mpr hlatest)
  rw [Store.download, hpath]
  simp only [bind, Except.bind, hreaches, hkey.asksDirectory_eq, hplace, pure, Except.pure]
  rfl

/-- Where nothing was stored a download finds nothing, unless it cannot look. -/
theorem download_missing (h : Holds s root past log) {bucket key file : String}
    {path : List String} (horderly : Orderly (past ++ [.download bucket key file true]))
    (hpath : objectPath bucket key = .ok path) (hnone : latest log path = none) :
    ∃ e, s.download bucket key true = .error e ∧
      (e = .notFound bucket key ∨ e = .io ∧ ¬Feasible root path) := by
  have hnow : Action.download bucket key file true ∈ past ++ [.download bucket key file true] := by
    simp
  have hkey := horderly.plain _ hnow key (by simp [Action.names])
  have htext : join bucket key = "/".intercalate path := by
    rw [(horderly.plain _ hnow bucket (by simp [Action.names])).join_eq hkey,
      (objectPath_eq_ok.mp hpath).2.2]
  have hnofile : ∀ content, s.tree.place path false ≠ .file content := by
    intro content hplace
    rw [(h.files path content).mp (h.rooted.place_eq_file_iff.mp hplace)] at hnone
    cases hnone
  rw [Store.download, hpath]
  simp only [bind, Except.bind, hkey.asksDirectory_eq]
  by_cases hfeasible : Feasible root path
  · have hreaches : s.reaches (join bucket key) = true := by
      rw [Store.reaches, h.root_eq, htext]
      exact decide_eq_true hfeasible.short
    have hwalk := h.walk_eq_missing horderly hpath hfeasible.possible hnone
    refine ⟨.notFound bucket key, ?_, .inl rfl⟩
    simp [hreaches, Tree.place, hfeasible.no_null, hwalk, throw, throwThe, MonadExceptOf.throw]
  · cases hreaches : s.reaches (join bucket key) with
    | false => exact ⟨.io, rfl, .inr ⟨rfl, hfeasible⟩⟩
    | true =>
      cases hplace : s.tree.place path false with
      | missing => exact ⟨_, rfl, .inl rfl⟩
      | blocked => exact ⟨.io, rfl, .inr ⟨rfl, hfeasible⟩⟩
      | directory => exact ⟨.io, rfl, .inr ⟨rfl, hfeasible⟩⟩
      | file content => exact absurd hplace (hnofile content)

end Holds

theorem Desk.stores?_of_succeeds {d : Desk} {bucket file key : String} {path : List String}
    (h : (d.perform (.upload bucket file key)).1 = .ok ())
    (hpath : objectPath bucket key = .ok path) :
    ∃ content, d.stores? (.upload bucket file key) = some (path, content) := by
  cases hfile : d.files file with
  | none =>
    obtain ⟨e, he⟩ := Store.upload_none_fails d.store bucket key
    rw [perform, hfile, he] at h
    cases h
  | some content =>
    exact ⟨content, stores?_of_ok h hpath hfile⟩

/-- Over a run in which no object lies on the way to another one, a store works as a map: an object
that was stored is found as it was stored last, and one that was not is not found, unless its path
is not one for a file system. -/
theorem objects_as_stored (root : String) (files : String → Option Bytes) (past : List Action)
    (a : Action) (horderly : Orderly (past ++ [a])) :
    let d := (Desk.mk (.empty root) files).run past
    let stored := latest ((Desk.mk (.empty root) files).log past)
    (∀ bucket key file, a = .download bucket key file true →
      ∃ path, objectPath bucket key = .ok path ∧
        (∀ content, stored path = some content →
          d.perform a = (.ok (), d.write file (some content))) ∧
        (stored path = none → ∃ e, d.perform a = (.error e, d) ∧
          (e = .notFound bucket key ∨ e = .io ∧ ¬Feasible root path))) ∧
    (∀ bucket file key, a = .upload bucket file key → d.files file = none →
      (∃ e, (d.perform a).1 = .error e) ∧
        ∀ q, (d.perform a).2.store.object? q = d.store.object? q) ∧
    ∀ bucket file key path, a = .upload bucket file key → objectPath bucket key = .ok path →
      (d.perform a).1 = .ok () →
        ∀ q, q ≠ path → (d.perform a).2.store.object? q = d.store.object? q := by
  intro d stored
  have hbefore : Holds d.store root past ((Desk.mk (.empty root) files).log past) :=
    Desk.run_holds root files past
  have hafter := Desk.perform_holds hbefore a
  refine ⟨?_, ?_, ?_⟩
  · rintro bucket key file rfl
    have hplain := horderly.plain (.download bucket key file true) (by simp)
    have hbucket := hplain bucket (by simp [Action.names])
    have hkey := hplain key (by simp [Action.names])
    have hpath := objectPath_eq_ok.mpr ⟨hbucket.toInward, hkey.toInward, rfl⟩
    refine ⟨_, hpath, fun content hstored => ?_, fun hstored => ?_⟩
    · have hfound := hbefore.download_stored horderly.of_append.plain hbucket hkey hpath hstored
      simp only [Desk.perform, hfound]
    · obtain ⟨e, he, hkind⟩ := hbefore.download_missing horderly hpath hstored
      exact ⟨e, by simp only [Desk.perform, he], hkind⟩
  · rintro bucket file key rfl hfile
    have hfails : ∃ e, (d.perform (.upload bucket file key)).1 = .error e := by
      rw [Desk.perform, hfile]
      exact d.store.upload_none_fails bucket key
    refine ⟨hfails, fun q => ?_⟩
    obtain ⟨e, he⟩ := hfails
    rw [hafter.object?_eq, hbefore.object?_eq, Desk.stores?_of_fails he, Option.toList_none,
      List.append_nil]
  · rintro bucket file key path rfl hpath hok q hq
    obtain ⟨content, hstores⟩ := Desk.stores?_of_succeeds hok hpath
    rw [hafter.object?_eq, hbefore.object?_eq, hstores, Option.toList_some, latest_concat,
      if_neg hq]

theorem object_replaced :
    let past := [Action.edit "in" (some [1]), .createBucket "b", .upload "b" "in" "k/l",
      .edit "in" (some [2]), .upload "b" "in" "k/l"]
    let a := Action.download "b" "k/l" "out" true
    let d := (Desk.mk (.empty "/r") fun _ => none).run past
    Orderly (past ++ [a]) ∧ d.perform a = (.ok (), d.write "out" (some [2])) := by
  intro past a d
  have horderly : Orderly (past ++ [a]) := by decide +kernel
  obtain ⟨path, hpath, hstored, -⟩ :=
    (objects_as_stored "/r" (fun _ => none) past a horderly).1 "b" "k/l" "out" rfl
  have hnames : objectPath "b" "k/l" = .ok ["b", "k", "l"] := by decide +kernel
  cases hnames.symm.trans hpath
  exact ⟨horderly, hstored [2] (by decide +kernel)⟩

/-- No file system looks up a name with a null character, so its absence is not told. -/
theorem null_name_unanswered :
    let start := Desk.mk (.empty "/r") fun _ => none
    Orderly [.createBucket "b", .download "b" "k\x00" "out" true] ∧
    objectPath "b" "k\x00" = .ok ["b", "k\x00"] ∧
    latest (start.log [.createBucket "b"]) ["b", "k\x00"] = none ∧
    ((start.run [.createBucket "b"]).perform (.download "b" "k\x00" "out" true)).1 = .error .io ∧
    Except.error StoreError.io ≠ (.error (.notFound "b" "k\x00") : Except StoreError Unit) := by
  decide +kernel

end SandboxWorker.Storage
