import Mathlib.Data.List.Induction
import SandboxWorker.Proofs.Storage.Objects
/-! What the operations of a store do to its tree. Directories are made where there is nothing, and
a file takes the place of nothing or of a file, so every entry always lies in a directory. -/
namespace SandboxWorker.Storage
namespace Tree

/-- Every entry has a possible name and lies in a directory. -/
def Rooted (t : Tree) : Prop :=
  ∀ directory name e, t.find? (directory ++ [name]) = some e →
    isImpossible name = false ∧ hasNull [name] = false ∧ t.find? directory = some .directory

@[simp] theorem find?_nil (t : Tree) : t.find? [] = some .directory := rfl

theorem find?_empty {path : List String} (h : path ≠ []) : empty.find? path = none := by
  rw [find?, if_neg h]
  rfl

theorem rooted_empty : empty.Rooted := by
  intro directory name e h
  rw [find?_empty (by simp)] at h
  cases h

theorem hasNull_append (a b : List String) : hasNull (a ++ b) = (hasNull a || hasNull b) :=
  List.any_append

theorem put_rooted {t : Tree} (h : t.Rooted) {directory : List String} {name : String} {e : Entry}
    (himpossible : isImpossible name = false) (hnull : hasNull [name] = false)
    (hdirectory : t.find? directory = some .directory)
    (hfree : e = .directory ∨ t.find? (directory ++ [name]) ≠ some .directory) :
    (t.put (directory ++ [name]) e).Rooted := by
  have hne : directory ++ [name] ≠ [] := by simp
  intro d n entry hentry
  rw [find?_put t hne] at hentry
  have hother : isImpossible n = false ∧ hasNull [n] = false ∧ t.find? d = some .directory := by
    split at hentry
    · rename_i heq
      obtain ⟨rfl, rfl⟩ := List.append_inj' heq rfl |>.imp id (List.cons.inj · |>.1)
      exact ⟨himpossible, hnull, hdirectory⟩
    · exact h d n entry hentry
  refine ⟨hother.1, hother.2.1, ?_⟩
  rw [find?_put t hne]
  split
  · rename_i heq
    rcases hfree with rfl | hfree
    · rfl
    · exact absurd (heq ▸ hother.2.2) hfree
  · exact hother.2.2

/-! ### Making directories -/

/-- One tree comes from another by directories made on the way down a path. -/
structure Grows (t t' : Tree) (path : List String) : Prop where
  kept : t.Keeps t' fun _ => True
  made : ∀ q e, t'.find? q = some e → t.find? q = some e ∨ e = .directory ∧ q <+: path
  rooted : t.Rooted → t'.Rooted

theorem Grows.refl (t : Tree) (path : List String) : t.Grows t path :=
  ⟨fun _ _ _ h => h, fun _ _ h => .inl h, id⟩

theorem Grows.find?_cases {t t' : Tree} {path : List String} (h : t.Grows t' path)
    (q : List String) : t'.find? q = t.find? q ∨
      t.find? q = none ∧ t'.find? q = some .directory ∧ q <+: path := by
  cases hold : t.find? q with
  | some e => exact .inl (h.kept q e trivial hold)
  | none =>
    cases hnew : t'.find? q with
    | none => exact .inl rfl
    | some e =>
      rcases h.made q e hnew with hfound | ⟨rfl, hway⟩
      · rw [hold] at hfound
        cases hfound
      · exact .inr ⟨rfl, rfl, hway⟩

theorem makeBelow_made (t : Tree) {directory rest : List String} {q : List String} {e : Entry}
    (h : (t.makeBelow directory rest).1.find? q = some e) :
    t.find? q = some e ∨ e = .directory ∧ q <+: directory ++ rest := by
  induction rest generalizing t directory with
  | nil => exact .inl h
  | cons name rest ih =>
    rw [makeBelow] at h
    rw [List.append_cons]
    split at h
    · exact .inl h
    · split at h
      · rcases ih _ h with hfound | hmade
        · rw [find?_put t (by simp)] at hfound
          split at hfound
          · rename_i heq
            cases hfound
            exact .inr ⟨rfl, heq ▸ List.prefix_append _ _⟩
          · exact .inl hfound
        · exact .inr hmade
      · exact ih _ h
      · exact .inl h

theorem makeBelow_rooted {t : Tree} (h : t.Rooted) {directory rest : List String}
    (hnull : hasNull rest = false) (hdirectory : t.find? directory = some .directory) :
    (t.makeBelow directory rest).1.Rooted := by
  induction rest generalizing t directory with
  | nil => exact h
  | cons name rest ih =>
    have hnames : hasNull [name] = false ∧ hasNull rest = false := by
      rwa [← List.singleton_append, hasNull_append, Bool.or_eq_false_iff] at hnull
    rw [makeBelow]
    split
    · exact h
    · rename_i himpossible
      split
      · refine ih (put_rooted h (by simpa using himpossible) hnames.1 hdirectory (.inl rfl))
          hnames.2 ?_
        rw [find?_put t (by simp), if_pos rfl]
      · rename_i hfound
        exact ih h hnames.2 hfound
      · exact h

theorem makeDirectory_grows (t : Tree) (path : List String) :
    t.Grows (t.makeDirectory path).1 path := by
  refine ⟨t.makeDirectory_keeps path, fun q e hfound => ?_, fun h => ?_⟩
  · rw [makeDirectory] at hfound
    split at hfound
    · exact .inl hfound
    · exact makeBelow_made t hfound
  · rw [makeDirectory]
    split
    · exact h
    · rename_i hnull
      exact makeBelow_rooted h (by simpa using hnull) rfl

/-! ### Finding and walking -/

theorem find?_of_walk_directory {t : Tree} {directory rest : List String}
    (hdirectory : t.find? directory = some .directory)
    (h : t.walk directory rest = .directory) : t.find? (directory ++ rest) = some .directory := by
  induction rest generalizing directory with
  | nil => rwa [List.append_nil]
  | cons name rest ih =>
    rw [walk] at h
    rw [List.append_cons]
    split at h
    · cases h
    · split at h
      · cases h
      · rename_i hfound
        exact ih hfound h
      · split at h <;> cases h

theorem find?_of_walk_file {t : Tree} {directory rest : List String} {content : Bytes}
    (h : t.walk directory rest = .file content) :
    t.find? (directory ++ rest) = some (.file content) := by
  induction rest generalizing directory with
  | nil => cases h
  | cons name rest ih =>
    rw [walk] at h
    rw [List.append_cons]
    split at h
    · cases h
    · split at h
      · cases h
      · exact ih h
      · rename_i hfound
        split at h
        · rename_i hrest
          cases h
          rw [hrest, List.append_nil, hfound]
        · cases h

theorem free_of_walk {t : Tree} {directory : List String} {name : String}
    (h : (t.walk directory [name]).IsFree) :
    isImpossible name = false ∧ t.find? (directory ++ [name]) ≠ some .directory := by
  rw [walk] at h
  split at h
  · exact h.elim
  · rename_i himpossible
    refine ⟨by simpa using himpossible, fun hfound => ?_⟩
    simp only [hfound] at h
    exact h

def Entry.place : Entry → Place
  | .directory => .directory
  | .file content => .file content

theorem Rooted.walk_of_find? {t : Tree} (h : t.Rooted) {path : List String} {e : Entry}
    (hfound : t.find? path = some e) : t.walk [] path = Entry.place e := by
  induction path using List.reverseRecOn generalizing e with
  | nil =>
    cases hfound
    rfl
  | append_singleton front name ih =>
    obtain ⟨himpossible, -, hdirectory⟩ := h front name e hfound
    rw [walk_append t [name] (ih hdirectory), List.nil_append, walk, himpossible]
    simp only [hfound]
    cases e <;> rfl

theorem Rooted.hasNull_of_find? {t : Tree} (h : t.Rooted) {path : List String} {e : Entry}
    (hfound : t.find? path = some e) : hasNull path = false := by
  induction path using List.reverseRecOn generalizing e with
  | nil => rfl
  | append_singleton front name ih =>
    obtain ⟨-, hnull, hdirectory⟩ := h front name e hfound
    rw [hasNull_append, ih hdirectory, hnull]
    rfl

theorem Rooted.possible_of_find? {t : Tree} (h : t.Rooted) {path : List String} {e : Entry}
    (hfound : t.find? path = some e) : ∀ n ∈ path, isImpossible n = false := by
  induction path using List.reverseRecOn generalizing e with
  | nil => exact nofun
  | append_singleton front name ih =>
    obtain ⟨himpossible, -, hdirectory⟩ := h front name e hfound
    intro n hn
    rcases List.mem_append.mp hn with hn | hn
    · exact ih hdirectory n hn
    · rwa [List.mem_singleton.mp hn]

theorem Rooted.place_eq_file_iff {t : Tree} (h : t.Rooted) {path : List String} {content : Bytes} :
    t.place path false = .file content ↔ t.find? path = some (.file content) := by
  rw [place_eq_file]
  constructor
  · rintro ⟨-, -, hwalk⟩
    simpa using find?_of_walk_file hwalk
  · intro hfound
    exact ⟨h.hasNull_of_find? hfound, rfl, h.walk_of_find? hfound⟩

end Tree

namespace Store
open Tree
variable {s s' : Store} {bucket key : String}

theorem createBucket_grows (s : Store) (bucket : String) :
    (s.createBucket bucket).2 = s ∨
      ∃ path tree, checked bucket = .ok path ∧ s.tree.Grows tree path ∧
        (s.createBucket bucket).2 = ⟨s.root, tree⟩ := by
  unfold createBucket
  cases hpath : checked bucket with
  | error e => exact .inl rfl
  | ok path =>
    dsimp only
    split
    · exact .inl rfl
    · split
      · split
        · exact .inl rfl
        · have hgrows := s.tree.makeDirectory_grows path.dropLast
          refine .inr ⟨path, _, rfl, ⟨hgrows.kept, fun q e h => ?_, hgrows.rooted⟩, rfl⟩
          exact (hgrows.made q e h).imp_right fun hmade =>
            ⟨hmade.1, hmade.2.trans (List.dropLast_prefix path)⟩
      · exact .inr ⟨path, _, rfl, s.tree.makeDirectory_grows path, rfl⟩

/-- A failed upload leaves the directories behind that lead to its object, as far as they could be
made. -/
theorem upload_fails {content : Option Bytes} {e : StoreError}
    (h : s.upload bucket content key = (.error e, s')) :
    s' = s ∨ ∃ path tree, objectPath bucket key = .ok path ∧ s.tree.Grows tree path.dropLast ∧
      s' = ⟨s.root, tree⟩ := by
  unfold upload at h
  split at h
  · cases h
    exact .inl rfl
  · rename_i path hpath
    have hgrows := s.tree.makeDirectory_grows path.dropLast
    dsimp only at h
    split at h
    · cases h
      exact .inl rfl
    · refine .inr ⟨path, _, hpath, hgrows, ?_⟩
      split at h
      · cases h
        rfl
      · split at h
        · split at h <;> cases h <;> rfl
        · cases h
          rfl

theorem upload_none_fails (s : Store) (bucket key : String) :
    ∃ e, (s.upload bucket none key).1 = .error e := by
  unfold upload
  split
  · exact ⟨_, rfl⟩
  · dsimp only
    split
    · exact ⟨_, rfl⟩
    · exact ⟨_, rfl⟩

/-- An object that was stored stands in a directory, in the place of nothing or of a file. -/
theorem upload_succeeds {content : Option Bytes}
    (h : s.upload bucket content key = (.ok (), s')) :
    ∃ directory name stored tree, content = some stored ∧
      objectPath bucket key = .ok (directory ++ [name]) ∧
      s.reaches (Path.join bucket key) = true ∧ s.tree.Grows tree directory ∧
      isImpossible name = false ∧ hasNull [name] = false ∧
      tree.find? directory = some .directory ∧
      tree.find? (directory ++ [name]) ≠ some .directory ∧
      s' = ⟨s.root, tree.put (directory ++ [name]) (.file stored)⟩ := by
  cases content with
  | none =>
    obtain ⟨e, he⟩ := upload_none_fails s bucket key
    rw [h] at he
    cases he
  | some stored =>
    obtain ⟨path, hpath, hreaches, -, hmade, hplace, rfl⟩ := upload_eq_ok h
    have hgrows := s.tree.makeDirectory_grows path.dropLast
    have hwalk := s.tree.makeDirectory_walk hmade
    generalize (s.tree.makeDirectory path.dropLast).1 = tree at hgrows hwalk hplace
    obtain ⟨hnull, hfree⟩ := place_free hplace
    obtain ⟨directory, name, rfl⟩ := hfree.exists_last
    rw [List.dropLast_concat] at hgrows hwalk
    rw [walk_append tree [name] hwalk, List.nil_append] at hfree
    obtain ⟨himpossible, hother⟩ := free_of_walk hfree
    have hdirectory : tree.find? directory = some .directory := find?_of_walk_directory rfl hwalk
    rw [hasNull_append, Bool.or_eq_false_iff] at hnull
    exact ⟨directory, name, stored, tree, rfl, hpath, hreaches, hgrows, himpossible, hnull.2,
      hdirectory, hother, rfl⟩

theorem upload_rooted (h : s.tree.Rooted) (content : Option Bytes) :
    (s.upload bucket content key).2.tree.Rooted := by
  cases hupload : s.upload bucket content key with
  | mk answer next =>
    cases answer with
    | error e =>
      rcases upload_fails hupload with hsame | ⟨path, tree, -, hgrows, hstore⟩
      · rwa [hsame]
      · rw [hstore]
        exact hgrows.rooted h
    | ok u =>
      obtain ⟨directory, name, stored, tree, -, -, -, hgrows, himpossible, hnull, hdirectory, hfree,
        hstore⟩ := upload_succeeds hupload
      rw [hstore]
      exact put_rooted (hgrows.rooted h) himpossible hnull hdirectory (.inr hfree)

/-! ### What is found afterwards -/

theorem createBucket_find? (s : Store) {path : List String} (hpath : checked bucket = .ok path)
    (q : List String) : (s.createBucket bucket).2.tree.find? q = s.tree.find? q ∨
      (q <+: path ∧ s.tree.find? q = none ∧
        (s.createBucket bucket).2.tree.find? q = some .directory) := by
  rcases s.createBucket_grows bucket with hsame | ⟨path', tree, hpath', hgrows, hafter⟩
  · exact .inl (by rw [hsame])
  · cases hpath.symm.trans hpath'
    rw [hafter]
    exact (hgrows.find?_cases q).imp_right fun ⟨hnone, hmade, hway⟩ => ⟨hway, hnone, hmade⟩

theorem createBucket_made {path : List String} (hpath : checked bucket = .ok path)
    (h : (s.createBucket bucket).1 = .ok ()) :
    (s.createBucket bucket).2.tree.find? path = some .directory := by
  unfold createBucket at h ⊢
  rw [hpath] at h ⊢
  dsimp only at h ⊢
  split at h
  · cases h
  · rename_i hreaches
    rw [if_neg hreaches]
    split at h
    · rename_i hdot
      rw [if_pos hdot]
      split at h
      · simp at h
      · rename_i hnull
        rw [if_neg hnull]
        split at h
        · rename_i hmade
          exact find?_of_walk_directory rfl (walk_of_place_directory hmade.2)
        · cases h
    · rename_i hdot
      rw [if_neg hdot]
      split at h
      · rename_i hmade
        exact find?_of_walk_directory rfl (s.tree.makeDirectory_walk hmade)
      · cases h

theorem upload_find? (s : Store) {path : List String} (hpath : objectPath bucket key = .ok path)
    (content : Option Bytes) (q : List String) :
    (s.upload bucket content key).2.tree.find? q = s.tree.find? q ∨
      (q <+: path ∧ s.tree.find? q = none ∧
        (s.upload bucket content key).2.tree.find? q = some .directory) ∨
      (q = path ∧ (s.upload bucket content key).1 = .ok ()) := by
  cases hupload : s.upload bucket content key with
  | mk answer next =>
    cases answer with
    | error e =>
      rcases upload_fails hupload with hsame | ⟨path', tree, hpath', hgrows, hafter⟩
      · exact .inl (by rw [hsame])
      · cases hpath.symm.trans hpath'
        rw [hafter]
        exact (hgrows.find?_cases q).imp_right fun ⟨hnone, hmade, hway⟩ =>
          .inl ⟨hway.trans (List.dropLast_prefix path), hnone, hmade⟩
    | ok u =>
      obtain ⟨directory, name, stored, tree, -, hpath', -, hgrows, -, -, -, -, hafter⟩ :=
        upload_succeeds hupload
      cases hpath.symm.trans hpath'
      by_cases hq : q = directory ++ [name]
      · exact .inr (.inr ⟨hq, rfl⟩)
      · rw [hafter]
        dsimp only
        rw [find?_put _ (by simp), if_neg hq]
        exact (hgrows.find?_cases q).imp_right fun ⟨hnone, hmade, hway⟩ =>
          .inl ⟨hway.trans (List.prefix_append _ _), hnone, hmade⟩

theorem upload_made {content : Option Bytes} {path : List String}
    (h : s.upload bucket content key = (.ok (), s')) (hpath : objectPath bucket key = .ok path) :
    ∃ stored, content = some stored ∧ s'.tree.find? path = some (.file stored) := by
  obtain ⟨directory, name, stored, tree, hcontent, hpath', -, -, -, -, -, -, rfl⟩ :=
    upload_succeeds h
  cases hpath.symm.trans hpath'
  exact ⟨stored, hcontent, by rw [find?_put _ (by simp), if_pos rfl]⟩

theorem possible_of_upload (h : s.tree.Rooted) {content : Option Bytes}
    (hupload : s.upload bucket content key = (.ok (), s')) {path : List String}
    (hpath : objectPath bucket key = .ok path) : ∀ n ∈ path, isImpossible n = false := by
  have hrooted : (s.upload bucket content key).2.tree.Rooted := upload_rooted h content
  rw [hupload] at hrooted
  obtain ⟨stored, -, hfound⟩ := upload_made hupload hpath
  exact hrooted.possible_of_find? hfound

theorem download_found {path : List String} {content : Bytes} {writable : Bool}
    (hpath : objectPath bucket key = .ok path)
    (h : s.download bucket key writable = .ok content) :
    s.tree.find? path = some (.file content) := by
  obtain ⟨path', hpath', -, hplace⟩ := download_eq_ok.mp (download_of_writable h)
  cases hpath.symm.trans hpath'
  simpa using find?_of_walk_file (place_eq_file.mp hplace).2.2

end Store
end SandboxWorker.Storage
