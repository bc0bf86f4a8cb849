import SandboxWorker.Proofs.Storage.Confinement
import SandboxWorker.Proofs.Storage.Growth
import SandboxWorker.Proofs.Success
/-! Two stores that hold the same in one directory of a bucket, while in one of them others are at
work beside it: whoever keeps to that directory cannot tell the stores apart. -/
namespace SandboxWorker.Storage

namespace Tree

/-- One directory of a bucket holds the same in both trees. In the shared one there may be more
directories on the way to the bucket. -/
structure Alike (bucket : List String) (own : String) (alone shared : Tree) : Prop where
  rooted_alone : alone.Rooted
  rooted_shared : shared.Rooted
  inside : ∀ rest, shared.find? (bucket ++ own :: rest) = alone.find? (bucket ++ own :: rest)
  above : ∀ front, front <+: bucket → shared.find? front = alone.find? front ∨
    (alone.find? front = none ∧ shared.find? front = some .directory)

theorem on_way {bucket front back : List String} {own : String} {rest : List String}
    (h : front ++ back = bucket ++ own :: rest) :
    front <+: bucket ∨ ∃ more, front = bucket ++ own :: more := by
  rcases List.append_eq_append_iff.mp h with ⟨more, hbucket, -⟩ | ⟨more, hfront, hmore⟩
  · exact .inl ⟨more, hbucket.symm⟩
  · cases more with
    | nil =>
      rw [List.append_nil] at hfront
      exact .inl (hfront ▸ List.prefix_refl _)
    | cons first more =>
      rw [List.cons_append, List.cons.injEq] at hmore
      exact .inr ⟨more, by rw [hfront, hmore.1]⟩

namespace Alike
variable {bucket : List String} {own : String} {alone shared : Tree}

theorem on_way (h : Alike bucket own alone shared) {front back rest : List String}
    (hpath : front ++ back = bucket ++ own :: rest) :
    shared.find? front = alone.find? front ∨
      (front <+: bucket ∧ alone.find? front = none ∧ shared.find? front = some .directory) := by
  rcases Tree.on_way hpath with hfront | ⟨more, rfl⟩
  · exact (h.above front hfront).imp_right fun hmore => ⟨hfront, hmore⟩
  · exact .inl (h.inside more)

theorem put_both (h : Alike bucket own alone shared) {path : List String} (hne : path ≠ [])
    {e : Entry} (halone : (alone.put path e).Rooted) (hshared : (shared.put path e).Rooted) :
    Alike bucket own (alone.put path e) (shared.put path e) := by
  refine ⟨halone, hshared, fun rest => ?_, fun front hfront => ?_⟩
  · rw [find?_put _ hne, find?_put _ hne, h.inside]
  · rw [find?_put _ hne, find?_put _ hne]
    split
    · exact .inl rfl
    · exact h.above front hfront

theorem put_alone (h : Alike bucket own alone shared) {front : List String} (hne : front ≠ [])
    (hfront : front <+: bucket) (hshared : shared.find? front = some .directory)
    (hrooted : (alone.put front .directory).Rooted) :
    Alike bucket own (alone.put front .directory) shared := by
  refine ⟨hrooted, h.rooted_shared, fun rest => ?_, fun q hq => ?_⟩
  · have hinside : bucket ++ own :: rest ≠ front := by
      rintro rfl
      have hlength := hfront.length_le
      rw [List.length_append, List.length_cons] at hlength
      omega
    rw [find?_put _ hne, if_neg hinside, h.inside]
  · rw [find?_put _ hne]
    split
    · rename_i heq
      exact .inl (heq ▸ hshared)
    · exact h.above q hq

/-- Making the directory itself comes out the same, however far it was made before. -/
theorem makeBelow (h : Alike bucket own alone shared) {directory rest : List String}
    (hpath : directory ++ rest = bucket ++ [own]) (hnull : hasNull rest = false)
    (halone : alone.find? directory = some .directory)
    (hshared : shared.find? directory = some .directory) :
    (shared.makeBelow directory rest).2 = (alone.makeBelow directory rest).2 ∧
      Alike bucket own (alone.makeBelow directory rest).1 (shared.makeBelow directory rest).1 := by
  induction rest generalizing alone shared directory with
  | nil => exact ⟨rfl, h⟩
  | cons name rest ih =>
    have hsplit : directory ++ [name] ++ rest = bucket ++ [own] := by
      rw [← List.append_cons, hpath]
    have hnames : hasNull [name] = false ∧ hasNull rest = false := by
      rwa [← List.singleton_append, hasNull_append, Bool.or_eq_false_iff] at hnull
    have hne : directory ++ [name] ≠ [] := by simp
    have hmade (t : Tree) : (t.put (directory ++ [name]) .directory).find? (directory ++ [name]) =
        some .directory := by rw [find?_put t hne, if_pos rfl]
    rw [Tree.makeBelow, Tree.makeBelow]
    split
    · exact ⟨rfl, h⟩
    · rename_i himpossible
      rw [Bool.not_eq_true] at himpossible
      have hput {t : Tree} (ht : t.Rooted) (hd : t.find? directory = some .directory) :
          (t.put (directory ++ [name]) .directory).Rooted :=
        put_rooted ht himpossible hnames.1 hd (.inl rfl)
      rcases h.on_way hsplit with heq | ⟨hfront, hnone, hfound⟩
      · rw [heq]
        cases hfound : alone.find? (directory ++ [name]) with
        | none =>
          exact ih (h.put_both hne (hput h.rooted_alone halone) (hput h.rooted_shared hshared))
            hsplit hnames.2 (hmade alone) (hmade shared)
        | some e =>
          cases e with
          | directory => exact ih h hsplit hnames.2 hfound (heq.trans hfound)
          | file content => exact ⟨rfl, h⟩
      · rw [hnone, hfound]
        exact ih (h.put_alone hne hfront hfound (hput h.rooted_alone halone)) hsplit hnames.2
          (hmade alone) hfound

theorem makeDirectory (h : Alike bucket own alone shared) :
    (shared.makeDirectory (bucket ++ [own])).2 = (alone.makeDirectory (bucket ++ [own])).2 ∧
      Alike bucket own (alone.makeDirectory (bucket ++ [own])).1
        (shared.makeDirectory (bucket ++ [own])).1 := by
  unfold Tree.makeDirectory
  split
  · exact ⟨rfl, h⟩
  · rename_i hnull
    exact h.makeBelow rfl (by simpa using hnull) rfl rfl

theorem grow (h : Alike bucket own alone shared) {other : String} (hother : own ≠ other)
    {tree : Tree} (hgrows : shared.Grows tree (bucket ++ [other])) :
    Alike bucket own alone tree := by
  refine ⟨h.rooted_alone, hgrows.rooted h.rooted_shared, fun rest => ?_, fun front hfront => ?_⟩
  · rcases hgrows.find?_cases (bucket ++ own :: rest) with heq | ⟨-, -, hmade⟩
    · rw [heq, h.inside]
    · rw [List.prefix_append_right_inj, List.cons_prefix_cons] at hmade
      exact absurd hmade.1 hother
  · rcases hgrows.find?_cases front with heq | ⟨hnone, hmade, -⟩
    · rw [heq]
      exact h.above front hfront
    · rcases h.above front hfront with heq | ⟨hnone', -⟩
      · exact .inr ⟨heq.symm.trans hnone, hmade⟩
      · exact .inr ⟨hnone', hmade⟩

theorem put_beside (h : Alike bucket own alone shared) {other : String} (hother : own ≠ other)
    {rest : List String} {e : Entry} (hrooted : (shared.put (bucket ++ other :: rest) e).Rooted) :
    Alike bucket own alone (shared.put (bucket ++ other :: rest) e) := by
  have hne : bucket ++ other :: rest ≠ [] := by simp
  refine ⟨h.rooted_alone, hrooted, fun more => ?_, fun front hfront => ?_⟩
  · have hdiffer : bucket ++ own :: more ≠ bucket ++ other :: rest := by
      intro heq
      exact hother (List.cons.inj (List.append_cancel_left heq)).1
    rw [find?_put _ hne, if_neg hdiffer, h.inside]
  · have hdiffer : front ≠ bucket ++ other :: rest := by
      rintro rfl
      have hlength := hfront.length_le
      rw [List.length_append, List.length_cons] at hlength
      omega
    rw [find?_put _ hne, if_neg hdiffer]
    exact h.above front hfront

/-! ### Looking into the directory -/

theorem walk_missing (h : Alike bucket own alone shared) {directory back rest : List String}
    (hpath : directory ++ back = bucket ++ own :: rest) (hdirectory : directory <+: bucket)
    (hnone : alone.find? directory = none) (hpossible : ∀ n ∈ back, isImpossible n = false) :
    shared.walk directory back = .missing := by
  induction back generalizing directory with
  | nil =>
    rw [List.append_nil] at hpath
    have hlength := hdirectory.length_le
    rw [hpath, List.length_append, List.length_cons] at hlength
    omega
  | cons name back ih =>
    have hsplit : directory ++ [name] ++ back = bucket ++ own :: rest := by
      rw [← List.append_cons, hpath]
    have hbelow : alone.find? (directory ++ [name]) = none := by
      cases hfound : alone.find? (directory ++ [name]) with
      | none => rfl
      | some e =>
        rw [(h.rooted_alone directory name e hfound).2.2] at hnone
        cases hnone
    rw [walk, hpossible name List.mem_cons_self, if_neg Bool.false_ne_true]
    rcases h.on_way hsplit with heq | ⟨hfront, -, hfound⟩
    · rw [heq, hbelow]
    · rw [hfound]
      exact ih hsplit hfront hbelow fun n hn => hpossible n (List.mem_cons_of_mem _ hn)

/-- Where the lone tree has no bucket, the shared one has nothing in it. -/
theorem walk_eq (h : Alike bucket own alone shared) {directory back rest : List String}
    (hpath : directory ++ back = bucket ++ own :: rest)
    (hpossible : ∀ n ∈ back, isImpossible n = false) :
    shared.walk directory back = alone.walk directory back := by
  induction back generalizing directory with
  | nil => rfl
  | cons name back ih =>
    have hsplit : directory ++ [name] ++ back = bucket ++ own :: rest := by
      rw [← List.append_cons, hpath]
    have hmore : ∀ n ∈ back, isImpossible n = false :=
      fun n hn => hpossible n (List.mem_cons_of_mem _ hn)
    rw [walk, walk, hpossible name List.mem_cons_self, if_neg Bool.false_ne_true,
      if_neg Bool.false_ne_true]
    rcases h.on_way hsplit with heq | ⟨hfront, hnone, hfound⟩
    · rw [heq]
      cases alone.find? (directory ++ [name]) with
      | none => rfl
      | some e =>
        cases e with
        | directory => exact ih hsplit hmore
        | file content => rfl
    · rw [hnone, hfound]
      exact h.walk_missing hsplit hfront hnone hmore

theorem place_eq (h : Alike bucket own alone shared) {rest : List String}
    (hpossible : ∀ n ∈ bucket ++ own :: rest, isImpossible n = false) (asDirectory : Bool) :
    shared.place (bucket ++ own :: rest) asDirectory =
      alone.place (bucket ++ own :: rest) asDirectory := by
  unfold place
  rw [h.walk_eq (List.nil_append _) hpossible]

theorem place_eq_of_made (h : Alike bucket own alone shared)
    (halone : alone.walk [] (bucket ++ [own]) = .directory)
    (hshared : shared.walk [] (bucket ++ [own]) = .directory) (name : String) :
    shared.place (bucket ++ [own, name]) false = alone.place (bucket ++ [own, name]) false := by
  have hsplit : bucket ++ [own, name] = bucket ++ [own] ++ [name] := by simp
  have hname : shared.find? (bucket ++ [own] ++ [name]) =
      alone.find? (bucket ++ [own] ++ [name]) := by
    rw [← hsplit]
    exact h.inside [name]
  have hwalk : shared.walk (bucket ++ [own]) [name] = alone.walk (bucket ++ [own]) [name] := by
    rw [walk, hname, walk]
    rfl
  unfold place
  rw [hsplit, walk_append _ _ halone, walk_append _ _ hshared, List.nil_append, hwalk]

end Alike
end Tree

/-! ### Stores -/

structure Store.Alike (bucket own : String) (alone shared : Store) : Prop where
  root_eq : shared.root = alone.root
  rooted_alone : alone.tree.Rooted
  rooted_shared : shared.tree.Rooted
  trees : ∀ names, checked bucket = .ok names → Tree.Alike names own alone.tree shared.tree

namespace Store.Alike
variable {bucket own key name : String} {alone shared : Store}

theorem refl (bucket own : String) {s : Store} (h : s.tree.Rooted) : Alike bucket own s s where
  root_eq := rfl
  rooted_alone := h
  rooted_shared := h
  trees _ _ := ⟨h, h, fun _ => rfl, fun _ _ => .inl rfl⟩

theorem of_trees (h : Alike bucket own alone shared) {names : List String} {t t' : Tree}
    (hbucket : checked bucket = .ok names) (htrees : Tree.Alike names own t t') :
    Alike bucket own ⟨alone.root, t⟩ ⟨shared.root, t'⟩ where
  root_eq := h.root_eq
  rooted_alone := htrees.rooted_alone
  rooted_shared := htrees.rooted_shared
  trees names' hnames' := by
    cases hbucket.symm.trans hnames'
    exact htrees

/-- What is stored in the directory comes out the same in both, and they stay alike. -/
theorem upload (h : Alike bucket own alone shared) (hkey : checked key = .ok [own, name])
    (content : Bytes) :
    (shared.upload bucket (some content) key).1 = (alone.upload bucket (some content) key).1 ∧
      Alike bucket own (alone.upload bucket (some content) key).2
        (shared.upload bucket (some content) key).2 := by
  cases hbucket : checked bucket with
  | error e =>
    rw [Store.upload, Store.upload, objectPath_of_refused hbucket]
    exact ⟨rfl, h⟩
  | ok names =>
    have hpath := objectPath_of_checked hbucket hkey
    have hfront : (names ++ [own, name]).dropLast = names ++ [own] := by
      rw [List.dropLast_append_cons]
      rfl
    have hreaches (path : String) : shared.reaches path = alone.reaches path := by
      rw [reaches, reaches, h.root_eq]
    obtain ⟨hmade, htrees⟩ := (h.trees names hbucket).makeDirectory
    have halone := alone.upload_eq hpath content
    have hshared := shared.upload_eq hpath content
    rw [hfront] at halone hshared
    rw [hreaches, hreaches, hmade] at hshared
    by_cases hparent : (!alone.reaches (Path.parent (Path.join bucket key))) = true
    · rw [if_pos hparent] at halone hshared
      rw [halone, hshared]
      exact ⟨rfl, h⟩
    rw [if_neg hparent] at halone hshared
    by_cases hcan : (alone.tree.makeDirectory (names ++ [own])).2 = true ∧
        alone.reaches (Path.join bucket key) = true ∧ (!Path.asksDirectory key) = true
    · rw [if_pos hcan] at halone hshared
      rw [htrees.place_eq_of_made (alone.tree.makeDirectory_walk hcan.1)
        (shared.tree.makeDirectory_walk (hmade.trans hcan.1))] at hshared
      have hrooted : (alone.upload bucket (some content) key).2.tree.Rooted :=
        upload_rooted h.rooted_alone _
      have hrooted' : (shared.upload bucket (some content) key).2.tree.Rooted :=
        upload_rooted h.rooted_shared _
      have hne : names ++ [own, name] ≠ [] := by simp
      cases hplace : (alone.tree.makeDirectory (names ++ [own])).1.place (names ++ [own, name])
        false with
      | missing | file _ =>
        rw [hplace] at halone hshared
        rw [halone] at hrooted ⊢
        rw [hshared] at hrooted' ⊢
        exact ⟨rfl, h.of_trees hbucket (htrees.put_both hne hrooted hrooted')⟩
      | blocked | directory =>
        rw [hplace] at halone hshared
        rw [halone, hshared]
        exact ⟨rfl, h.of_trees hbucket htrees⟩
    · rw [if_neg hcan] at halone hshared
      rw [halone, hshared]
      exact ⟨rfl, h.of_trees hbucket htrees⟩

theorem upload_beside (h : Alike bucket own alone shared) {other : String} (hother : own ≠ other)
    (hkey : checked key = .ok [other, name]) (content : Bytes) :
    Alike bucket own alone (shared.upload bucket (some content) key).2 := by
  cases hbucket : checked bucket with
  | error e =>
    rw [Store.upload, objectPath_of_refused hbucket]
    exact h
  | ok names =>
    have hpath := objectPath_of_checked hbucket hkey
    have hfront : (names ++ [other, name]).dropLast = names ++ [other] := by
      rw [List.dropLast_append_cons]
      rfl
    have hrooted : (shared.upload bucket (some content) key).2.tree.Rooted :=
      upload_rooted h.rooted_shared _
    cases hupload : shared.upload bucket (some content) key with
    | mk answer next =>
      rw [hupload] at hrooted
      cases answer with
      | error e =>
        rcases upload_fails hupload with rfl | ⟨path, tree, hpath', hgrows, rfl⟩
        · exact h
        · cases hpath.symm.trans hpath'
          rw [hfront] at hgrows
          exact h.of_trees hbucket ((h.trees names hbucket).grow hother hgrows)
      | ok u =>
        obtain ⟨directory, last, stored, tree, -, hpath', -, hgrows, -, -, -, -, rfl⟩ :=
          upload_succeeds hupload
        have hsplit : names ++ [other, name] = directory ++ [last] := by
          rw [hpath] at hpath'
          exact Except.ok.inj hpath'
        have hdirectory : directory = names ++ [other] := by
          rw [← hfront, hsplit, List.dropLast_concat]
        rw [← hsplit] at hrooted ⊢
        rw [hdirectory] at hgrows
        exact h.of_trees hbucket
          (((h.trees names hbucket).grow hother hgrows).put_beside hother hrooted)

theorem download (h : Alike bucket own alone shared) (hkey : checked key = .ok [own, name])
    (hpossible : ∀ names, checked bucket = .ok names →
      ∀ n ∈ names ++ [own, name], Tree.isImpossible n = false) :
    shared.download bucket key true = alone.download bucket key true := by
  cases hbucket : checked bucket with
  | error e =>
    rw [Store.download, Store.download, objectPath_of_refused hbucket]
    rfl
  | ok names =>
    have hplace := (h.trees names hbucket).place_eq (hpossible names hbucket)
      (Path.asksDirectory key)
    rw [Store.download, Store.download, objectPath_of_checked hbucket hkey]
    simp only [bind, Except.bind, reaches, h.root_eq, hplace]

theorem content_eq (h : Alike bucket own alone shared) (hkey : checked key = .ok [own, name]) :
    (shared.download bucket key true).toOption = (alone.download bucket key true).toOption := by
  cases hbucket : checked bucket with
  | error e =>
    rw [Store.download, Store.download, objectPath_of_refused hbucket]
    rfl
  | ok names =>
    have htrees := h.trees names hbucket
    have hplace (asDirectory : Bool) (content : Bytes) :
        shared.tree.place (names ++ [own, name]) asDirectory = .file content ↔
          alone.tree.place (names ++ [own, name]) asDirectory = .file content := by
      cases asDirectory with
      | false =>
        rw [htrees.rooted_shared.place_eq_file_iff, htrees.rooted_alone.place_eq_file_iff,
          htrees.inside]
      | true => simp [Tree.place_eq_file]
    have hsame (content : Bytes) : shared.download bucket key true = .ok content ↔
        alone.download bucket key true = .ok content := by
      simp only [download_eq_ok, objectPath_of_checked hbucket hkey, Except.ok.injEq,
        exists_eq_left', hplace, reaches, h.root_eq]
    ext content
    rw [toOption_eq_some, toOption_eq_some, hsame]

end Store.Alike
end SandboxWorker.Storage
