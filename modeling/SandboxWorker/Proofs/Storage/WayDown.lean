import SandboxWorker.Proofs.Storage.Objects
/-! What stands on the way down to an object decides what becomes of it: stores that hold the same
there answer alike, whatever else they hold. -/
namespace SandboxWorker.Storage

/-- Two trees show the same on the way down a path, its end included. -/
def Tree.SameDownTo (t t' : Tree) (path : List String) : Prop :=
  ∀ q, q <+: path → t'.find? q = t.find? q

namespace Tree.SameDownTo
variable {t t' : Tree} {path directory rest : List String}

theorem put (h : t.SameDownTo t' path) {q : List String} (hne : q ≠ []) (e : Entry) :
    (t.put q e).SameDownTo (t'.put q e) path := by
  intro p hp
  rw [find?_put _ hne, find?_put _ hne, h p hp]

theorem walk_eq (h : t.SameDownTo t' path) (hway : directory ++ rest <+: path) :
    t'.walk directory rest = t.walk directory rest := by
  induction rest generalizing directory with
  | nil => rfl
  | cons name rest ih =>
    rw [List.append_cons] at hway
    rw [walk, walk, h _ ((List.prefix_append _ _).trans hway), ih hway]

theorem place_eq (h : t.SameDownTo t' path) (asDirectory : Bool) :
    t'.place path asDirectory = t.place path asDirectory := by
  have hwalk : t'.walk [] path = t.walk [] path := h.walk_eq List.prefix_rfl
  rw [place, place, hwalk]

theorem makeBelow (h : t.SameDownTo t' path) (hway : directory ++ rest <+: path) :
    (t'.makeBelow directory rest).2 = (t.makeBelow directory rest).2 ∧
      (t.makeBelow directory rest).1.SameDownTo (t'.makeBelow directory rest).1 path := by
  induction rest generalizing t t' directory with
  | nil => exact ⟨rfl, h⟩
  | cons name rest ih =>
    rw [List.append_cons] at hway
    rw [Tree.makeBelow, Tree.makeBelow, h _ ((List.prefix_append _ _).trans hway)]
    split
    · exact ⟨rfl, h⟩
    · split
      · exact ih (h.put (by simp) _) hway
      · exact ih h hway
      · exact ⟨rfl, h⟩

theorem makeDirectory (h : t.SameDownTo t' path) {front : List String} (hway : front <+: path) :
    (t'.makeDirectory front).2 = (t.makeDirectory front).2 ∧
      (t.makeDirectory front).1.SameDownTo (t'.makeDirectory front).1 path := by
  unfold Tree.makeDirectory
  split
  · exact ⟨rfl, h⟩
  · exact h.makeBelow hway

end Tree.SameDownTo

structure Store.SameDownTo (s s' : Store) (path : List String) : Prop where
  root_eq : s'.root = s.root
  trees : s.tree.SameDownTo s'.tree path

namespace Store.SameDownTo
open Tree
variable {s s' : Store} {bucket key : String} {path : List String}

theorem reaches_eq (h : s.SameDownTo s' path) (spelled : String) :
    s'.reaches spelled = s.reaches spelled := by
  rw [reaches, reaches, h.root_eq]

theorem makeDirectory (h : s.SameDownTo s' path) {front : List String} (hway : front <+: path) :
    (s'.makeDirectory front).2 = (s.makeDirectory front).2 ∧
      (s.makeDirectory front).1.SameDownTo (s'.makeDirectory front).1 path :=
  (h.trees.makeDirectory hway).imp_right fun hafter => ⟨h.root_eq, hafter⟩

theorem createBucket (h : s.SameDownTo s' path) (hpath : checked bucket = .ok path) :
    (s'.createBucket bucket).1 = (s.createBucket bucket).1 ∧
      (s.createBucket bucket).2.SameDownTo (s'.createBucket bucket).2 path := by
  unfold Store.createBucket
  rw [hpath]
  dsimp only
  rw [h.reaches_eq]
  split
  · exact ⟨rfl, h⟩
  · split
    · split
      · exact ⟨by simp, h⟩
      · obtain ⟨hmade, hafter⟩ := h.makeDirectory (List.dropLast_prefix path)
        rw [hmade, hafter.trees.place_eq]
        exact ⟨rfl, hafter⟩
    · obtain ⟨hmade, hafter⟩ := h.makeDirectory List.prefix_rfl
      rw [hmade]
      exact ⟨rfl, hafter⟩

theorem upload (h : s.SameDownTo s' path) (hpath : objectPath bucket key = .ok path)
    (content : Option Bytes) :
    (s'.upload bucket content key).1 = (s.upload bucket content key).1 ∧
      (s.upload bucket content key).2.SameDownTo (s'.upload bucket content key).2 path := by
  obtain ⟨hmade, hafter⟩ := h.makeDirectory (List.dropLast_prefix path)
  unfold Store.upload
  rw [hpath]
  dsimp only
  rw [h.reaches_eq, hmade, hafter.reaches_eq, hafter.trees.place_eq]
  split
  · exact ⟨rfl, h⟩
  · cases content with
    | none => exact ⟨rfl, hafter⟩
    | some content =>
      dsimp only
      split
      · split
        · rename_i hplace
          exact ⟨rfl, hafter.root_eq, hafter.trees.put (place_free (.inl hplace)).2.ne_nil _⟩
        · rename_i old hplace
          exact ⟨rfl, hafter.root_eq, hafter.trees.put (place_free (.inr ⟨old, hplace⟩)).2.ne_nil _⟩
        · exact ⟨rfl, hafter⟩
        · exact ⟨rfl, hafter⟩
      · exact ⟨rfl, hafter⟩

theorem download (h : s.SameDownTo s' path) (hpath : objectPath bucket key = .ok path)
    (writable : Bool) :
    s'.download bucket key writable = s.download bucket key writable := by
  unfold Store.download
  rw [hpath]
  simp only [h.reaches_eq, bind, Except.bind, h.trees.place_eq]

end Store.SameDownTo
end SandboxWorker.Storage
