import SandboxWorker.Storage.Tree
/-! What stays where it is when directories are made and files are put into a tree. -/
namespace SandboxWorker.Storage.Tree

theorem lookup_map_put (entries : List (List String × Entry)) (path q : List String) (e : Entry) :
    (entries.map fun (p, old) => if p = path then (p, e) else (p, old)).lookup q =
      if q = path then (entries.lookup q).map fun _ => e else entries.lookup q := by
  induction entries with
  | nil => simp
  | cons entry entries ih =>
    obtain ⟨p, old⟩ := entry
    rw [List.map_cons]
    by_cases hq : q = p
    · subst hq
      by_cases hp : q = path
      · simp [hp]
      · simp [hp]
    · have hne : (q == p) = false := beq_eq_false_iff_ne.mpr hq
      by_cases hp : p = path
      · subst hp
        simp only [if_true, List.lookup_cons, hne, ih]
      · simp only [hp, if_false, List.lookup_cons, hne, ih]

theorem find?_put (t : Tree) {path : List String} (hpath : path ≠ []) (e : Entry)
    (q : List String) :
    (t.put path e).find? q = if q = path then some e else t.find? q := by
  unfold put find?
  by_cases hq : q = []
  · have hne : q ≠ path := fun heq => hpath (heq.symm.trans hq)
    rw [if_pos hq, if_pos hq, if_neg hne]
  · rw [if_neg hq, if_neg hq]
    split
    · rename_i hsome
      rw [lookup_map_put]
      by_cases hp : q = path
      · rw [if_pos hp, if_pos hp, hp]
        obtain ⟨old, hold⟩ := Option.isSome_iff_exists.mp hsome
        rw [hold]
        rfl
      · rw [if_neg hp, if_neg hp]
    · rename_i hnone
      rw [List.lookup_append]
      by_cases hp : q = path
      · rw [if_pos hp, hp, Option.not_isSome_iff_eq_none.mp hnone]
        simp
      · have hne : (q == path) = false := beq_eq_false_iff_ne.mpr hp
        rw [if_neg hp, List.lookup_cons, hne]
        simp

def Keeps (t t' : Tree) (P : List String → Prop) : Prop :=
  ∀ q e, P q → t.find? q = some e → t'.find? q = some e

theorem put_keeps (t : Tree) {path : List String} (hpath : path ≠ []) (e : Entry) :
    t.Keeps (t.put path e) (· ≠ path) := by
  intro q old hne hold
  rw [find?_put t hpath, if_neg hne, hold]

theorem makeBelow_keeps (t : Tree) (directory rest : List String) :
    t.Keeps (t.makeBelow directory rest).1 fun _ => True := by
  induction rest generalizing t directory with
  | nil => exact fun q e _ h => h
  | cons name rest ih =>
    rw [makeBelow]
    split
    · exact fun q e _ h => h
    · split
      · rename_i hnone
        intro q e _ h
        apply ih _ _ _ _ trivial
        have hne : directory ++ [name] ≠ [] := by simp
        rw [find?_put t hne]
        split
        · rename_i heq
          rw [heq, hnone] at h
          cases h
        · exact h
      · exact ih t _
      · exact fun q e _ h => h

theorem makeBelow_walk (t : Tree) {directory rest : List String}
    (h : (t.makeBelow directory rest).2 = true) :
    (t.makeBelow directory rest).1.walk directory rest = .directory := by
  induction rest generalizing t directory with
  | nil => rfl
  | cons name rest ih =>
    rw [makeBelow] at h ⊢
    rw [walk]
    split at h
    · cases h
    · rename_i himpossible
      rw [if_neg himpossible, if_neg himpossible]
      split at h
      · have hne : directory ++ [name] ≠ [] := by simp
        have hmade := makeBelow_keeps (t.put (directory ++ [name]) .directory) (directory ++ [name])
          rest (directory ++ [name]) .directory trivial (by rw [find?_put t hne, if_pos rfl])
        simp only [hmade]
        exact ih _ h
      · rename_i hfound
        have hkept := makeBelow_keeps t (directory ++ [name]) rest _ _ trivial hfound
        simp only [hkept]
        exact ih _ h
      · cases h

theorem walk_append (t : Tree) {directory a : List String} (b : List String)
    (h : t.walk directory a = .directory) :
    t.walk directory (a ++ b) = t.walk (directory ++ a) b := by
  induction a generalizing directory with
  | nil => rw [List.append_nil, List.nil_append]
  | cons name a ih =>
    rw [walk] at h
    rw [List.cons_append, walk]
    split at h
    · cases h
    · rename_i himpossible
      rw [if_neg himpossible]
      split at h
      · cases h
      · rename_i hfound
        rw [ih h, List.append_assoc, List.singleton_append]
      · split at h <;> cases h

/-- The way to a file leads through directories. -/
theorem walk_of_append (t : Tree) {directory a b : List String} {content : Bytes} (hb : b ≠ [])
    (h : t.walk directory (a ++ b) = .file content) : t.walk directory a = .directory := by
  induction a generalizing directory with
  | nil => rfl
  | cons name a ih =>
    rw [List.cons_append, walk] at h
    rw [walk]
    split at h
    · cases h
    · rename_i himpossible
      rw [if_neg himpossible]
      split at h
      · cases h
      · rename_i hfound
        exact ih h
      · have hne : a ++ b ≠ [] := fun heq => hb (List.append_eq_nil_iff.mp heq).2
        rw [if_neg hne] at h
        cases h

theorem walk_of_keeps {t t' : Tree} {P : List String → Prop} (hkeeps : t.Keeps t' P)
    {directory rest : List String} (hP : ∀ a b, rest = a ++ b → a ≠ [] → P (directory ++ a))
    (hwalk : t.walk directory rest = .directory ∨
      ∃ content, t.walk directory rest = .file content) :
    t'.walk directory rest = t.walk directory rest := by
  induction rest generalizing directory with
  | nil => rfl
  | cons name rest ih =>
    rw [walk] at hwalk
    rw [walk, walk]
    split at hwalk
    · rcases hwalk with hwalk | ⟨content, hwalk⟩ <;> cases hwalk
    · rename_i himpossible
      rw [if_neg himpossible, if_neg himpossible]
      have hname := hP [name] rest rfl (by simp)
      split at hwalk
      · rcases hwalk with hwalk | ⟨content, hwalk⟩ <;> cases hwalk
      · rename_i hfound
        simp only [hkeeps _ _ hname hfound]
        apply ih _ hwalk
        intro a b heq ha
        rw [List.append_assoc]
        exact hP (name :: a) b (by rw [heq]; rfl) (by simp)
      · rename_i hfound
        simp only [hkeeps _ _ hname hfound]

end SandboxWorker.Storage.Tree
