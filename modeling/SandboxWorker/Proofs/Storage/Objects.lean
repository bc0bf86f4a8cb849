import SandboxWorker.Proofs.Storage.Tree
import SandboxWorker.Storage.Store
/-! An object that was stored is what is read next, and storing one leaves all others alone. -/
namespace SandboxWorker.Storage
open Tree

theorem Tree.makeDirectory_keeps (t : Tree) (path : List String) :
    t.Keeps (t.makeDirectory path).1 fun _ => True := by
  unfold makeDirectory
  split
  · exact fun q e _ h => h
  · exact makeBelow_keeps t [] path

theorem Tree.makeDirectory_walk (t : Tree) {path : List String}
    (h : (t.makeDirectory path).2 = true) :
    (t.makeDirectory path).1.walk [] path = .directory := by
  unfold makeDirectory at h ⊢
  split
  · rename_i hnull
    rw [if_pos hnull] at h
    cases h
  · rename_i hnull
    rw [if_neg hnull] at h
    exact makeBelow_walk t h

theorem Tree.place_eq_file {t : Tree} {path : List String} {asDirectory : Bool} {content : Bytes} :
    t.place path asDirectory = .file content ↔
      hasNull path = false ∧ asDirectory = false ∧ t.walk [] path = .file content := by
  unfold place
  cases hasNull path with
  | true => simp
  | false =>
    rw [if_neg Bool.false_ne_true]
    cases t.walk [] path <;> cases asDirectory <;> simp

theorem Tree.walk_of_place_directory {t : Tree} {path : List String} {asDirectory : Bool}
    (h : t.place path asDirectory = .directory) : t.walk [] path = .directory := by
  unfold place at h
  split at h
  · cases h
  · split at h
    · split at h <;> cases h
    · exact h

def Tree.Place.IsFree : Place → Prop
  | .missing | .file _ => True
  | .blocked | .directory => False

theorem Tree.Place.IsFree.ne_nil {t : Tree} {path : List String}
    (h : (t.walk [] path).IsFree) : path ≠ [] := by
  rintro rfl
  exact h

theorem Tree.Place.IsFree.exists_last {t : Tree} {path : List String}
    (h : (t.walk [] path).IsFree) : ∃ directory name, path = directory ++ [name] :=
  ⟨path.dropLast, path.getLast h.ne_nil, (List.dropLast_concat_getLast h.ne_nil).symm⟩

theorem Tree.place_free {t : Tree} {path : List String}
    (h : t.place path false = .missing ∨ ∃ old, t.place path false = .file old) :
    hasNull path = false ∧ (t.walk [] path).IsFree := by
  unfold place at h
  cases hnull : hasNull path with
  | true => simp [hnull] at h
  | false =>
    refine ⟨rfl, ?_⟩
    rw [hnull, if_neg Bool.false_ne_true] at h
    cases hwalk : t.walk [] path with
    | missing => trivial
    | file content => trivial
    | blocked => simp [hwalk] at h
    | directory => simp [hwalk] at h

theorem Tree.walk_put {t : Tree} {front : List String} {name : String}
    (hdirectory : t.walk [] front = .directory) (hfree : (t.walk [] (front ++ [name])).IsFree)
    (content : Bytes) :
    (t.put (front ++ [name]) (.file content)).walk [] (front ++ [name]) = .file content := by
  have hkept : (t.put (front ++ [name]) (.file content)).walk [] front = t.walk [] front := by
    refine walk_of_keeps (put_keeps t (by simp) _) (fun a b heq ha hpath => ?_) (.inl hdirectory)
    have hlength := congrArg List.length heq
    rw [List.nil_append] at hpath
    rw [hpath, List.length_append, List.length_append, List.length_singleton] at hlength
    omega
  rw [walk_append _ _ (hkept.trans hdirectory)]
  rw [walk_append _ _ hdirectory] at hfree
  rw [walk] at hfree ⊢
  split
  · rename_i himpossible
    rw [if_pos himpossible] at hfree
    exact hfree.elim
  · rw [find?_put t (by simp), List.nil_append, if_pos rfl]
    rfl

theorem Tree.walk_put_of_ne {t : Tree} {path path' : List String} {content old : Bytes}
    (hne : path' ≠ path) (hfree : (t.walk [] path).IsFree)
    (h : t.walk [] path' = .file old) :
    (t.put path (.file content)).walk [] path' = .file old := by
  rw [← h]
  refine walk_of_keeps (put_keeps t hfree.ne_nil _) (fun a b heq ha hprefix => ?_) (.inr ⟨old, h⟩)
  rw [List.nil_append] at hprefix
  subst hprefix
  by_cases hb : b = []
  · exact hne (by rw [heq, hb, List.append_nil])
  · rw [heq] at h
    rw [walk_of_append t hb h] at hfree
    exact hfree

namespace Store
variable {s s' : Store} {bucket key : String} {content : Bytes}

theorem upload_eq (s : Store) {path : List String} (hpath : objectPath bucket key = .ok path)
    (content : Bytes) :
    s.upload bucket (some content) key =
      if !s.reaches (Path.parent (Path.join bucket key)) then (.error .io, s)
      else if (s.tree.makeDirectory path.dropLast).2 ∧ s.reaches (Path.join bucket key) ∧
          !Path.asksDirectory key then
        match (s.tree.makeDirectory path.dropLast).1.place path false with
        | .missing | .file _ =>
          (.ok (), ⟨s.root, (s.tree.makeDirectory path.dropLast).1.put path (.file content)⟩)
        | .blocked | .directory => (.error .io, ⟨s.root, (s.tree.makeDirectory path.dropLast).1⟩)
      else (.error .io, ⟨s.root, (s.tree.makeDirectory path.dropLast).1⟩) := by
  rw [upload, hpath]
  rfl

theorem upload_eq_ok (h : s.upload bucket (some content) key = (.ok (), s')) :
    ∃ path, objectPath bucket key = .ok path ∧ s.reaches (Path.join bucket key) = true ∧
      Path.asksDirectory key = false ∧ (s.tree.makeDirectory path.dropLast).2 = true ∧
      ((s.tree.makeDirectory path.dropLast).1.place path false = .missing ∨
        ∃ old, (s.tree.makeDirectory path.dropLast).1.place path false = .file old) ∧
      s' = ⟨s.root, (s.tree.makeDirectory path.dropLast).1.put path (.file content)⟩ := by
  unfold upload at h
  split at h
  · cases h
  · rename_i path hpath
    dsimp only at h
    split at h
    · cases h
    · split at h
      · rename_i hcan
        obtain ⟨hmade, hreaches, hasks⟩ := hcan
        refine ⟨path, hpath, hreaches, by simpa using hasks, hmade, ?_⟩
        split at h
        · rename_i hplace
          cases h
          exact ⟨.inl hplace, rfl⟩
        · rename_i old hplace
          cases h
          exact ⟨.inr ⟨old, hplace⟩, rfl⟩
        · cases h
        · cases h
      · cases h

theorem download_eq_ok : s.download bucket key true = .ok content ↔
    ∃ path, objectPath bucket key = .ok path ∧ s.reaches (Path.join bucket key) = true ∧
      s.tree.place path (Path.asksDirectory key) = .file content := by
  unfold download
  cases hpath : objectPath bucket key with
  | error e => simp [bind, Except.bind]
  | ok path =>
    cases hreaches : s.reaches (Path.join bucket key) with
    | false => simp [bind, Except.bind, throw, throwThe, MonadExceptOf.throw]
    | true =>
      cases hplace : s.tree.place path (Path.asksDirectory key) <;>
        simp [bind, Except.bind, throw, throwThe, MonadExceptOf.throw, pure, Except.pure, hplace]

theorem download_of_writable {writable : Bool}
    (h : s.download bucket key writable = .ok content) : s.download bucket key true = .ok content := by
  cases writable with
  | true => exact h
  | false =>
    unfold download at h
    cases hpath : objectPath bucket key with
    | error e => simp [hpath, bind, Except.bind] at h
    | ok path =>
      cases hreaches : s.reaches (Path.join bucket key) <;>
        cases hplace : s.tree.place path (Path.asksDirectory key) <;>
          simp [hpath, hreaches, hplace, bind, Except.bind, throw, throwThe,
            MonadExceptOf.throw] at h

theorem download_upload (h : s.upload bucket (some content) key = (.ok (), s')) :
    s'.download bucket key true = .ok content := by
  obtain ⟨path, hpath, hreaches, hasks, hmade, hplace, rfl⟩ := upload_eq_ok h
  have hdirectory := s.tree.makeDirectory_walk hmade
  generalize (s.tree.makeDirectory path.dropLast).1 = t at hdirectory hplace
  obtain ⟨hnull, hfree⟩ := place_free hplace
  refine download_eq_ok.mpr ⟨path, hpath, hreaches, place_eq_file.mpr ⟨hnull, hasks, ?_⟩⟩
  obtain ⟨front, name, rfl⟩ := hfree.exists_last
  rw [List.dropLast_concat] at hdirectory
  exact walk_put hdirectory hfree content

theorem download_upload_of_ne {bucket' key' : String} {old : Bytes}
    (hne : ∀ path, objectPath bucket key = .ok path → objectPath bucket' key' ≠ .ok path)
    (h : s.upload bucket (some content) key = (.ok (), s'))
    (hold : s.download bucket' key' true = .ok old) : s'.download bucket' key' true = .ok old := by
  obtain ⟨path, hpath, -, -, hmade, hplace, rfl⟩ := upload_eq_ok h
  obtain ⟨path', hpath', hreaches', hplace'⟩ := download_eq_ok.mp hold
  obtain ⟨hnull', hasks', hwalk'⟩ := place_eq_file.mp hplace'
  refine download_eq_ok.mpr ⟨path', hpath', hreaches', place_eq_file.mpr ⟨hnull', hasks', ?_⟩⟩
  have hdiffer : path' ≠ path := fun heq => hne path hpath (heq ▸ hpath')
  have hmadeWalk := walk_of_keeps (s.tree.makeDirectory_keeps path.dropLast)
    (fun _ _ _ _ => trivial) (.inr ⟨old, hwalk'⟩)
  exact walk_put_of_ne hdiffer (place_free hplace).2 (hmadeWalk.trans hwalk')

end Store
end SandboxWorker.Storage
