import SandboxWorker.Proofs.Storage.Growth
import SandboxWorker.Proofs.Storage.WayDown
import SandboxWorker.Proofs.Text.Paths
import SandboxWorker.Storage.Desk
/-! Every object lies below its bucket, and every bucket below the root: names that lead elsewhere
are refused, and nothing is changed for them. What is done under accepted names is done at their
path. -/
namespace SandboxWorker.Storage
open Path

theorem checked_eq_ok {name : String} {path : List String} :
    checked name = .ok path ↔ Inward name ∧ path = ordinary name := by
  unfold checked
  cases hnames : names? name with
  | none =>
    refine ⟨nofun, fun ⟨h, _⟩ => ?_⟩
    rw [names?_eq_some.mpr h.components_eq] at hnames
    cases hnames
  | some names =>
    dsimp only
    split
    · rename_i hempty
      exact ⟨nofun, fun ⟨h, _⟩ => absurd hempty h.nonempty⟩
    · rename_i hne
      have h := (inward_iff hne).mpr ⟨names, hnames⟩
      rw [names?_eq_some.mpr h.components_eq] at hnames
      cases hnames
      exact ⟨fun hpath => ⟨h, (Except.ok.inj hpath).symm⟩, fun ⟨_, hpath⟩ => by rw [hpath]⟩

theorem checked_of_inward {name : String} (h : Inward name) :
    checked name = .ok (ordinary name) := checked_eq_ok.mpr ⟨h, rfl⟩

theorem checked_of_not_inward {name : String} (h : ¬Inward name) :
    checked name = .error (.invalidKey name) := by
  cases hchecked : checked name with
  | ok path => exact absurd (checked_eq_ok.mp hchecked).1 h
  | error e =>
    unfold checked at hchecked
    split at hchecked
    · split at hchecked
      · exact hchecked.symm
      · cases hchecked
    · exact hchecked.symm

theorem objectPath_eq_ok {bucket key : String} {path : List String} :
    objectPath bucket key = .ok path ↔
      Inward bucket ∧ Inward key ∧ path = ordinary bucket ++ ordinary key := by
  unfold objectPath
  by_cases hbucket : Inward bucket
  · by_cases hkey : Inward key
    · rw [checked_of_inward hbucket, checked_of_inward hkey]
      simp [bind, Except.bind, pure, Except.pure, hbucket, hkey, eq_comm]
    · rw [checked_of_inward hbucket, checked_of_not_inward hkey]
      simp [bind, Except.bind, hkey]
  · rw [checked_of_not_inward hbucket]
    simp [bind, Except.bind, hbucket]

theorem objectPath_of_checked {bucket key : String} {names path : List String}
    (hbucket : checked bucket = .ok names) (hkey : checked key = .ok path) :
    objectPath bucket key = .ok (names ++ path) := by
  rw [objectPath, hbucket, hkey]
  rfl

theorem objectPath_of_refused {bucket key : String} {e : StoreError}
    (hbucket : checked bucket = .error e) : objectPath bucket key = .error e := by
  rw [objectPath, hbucket]
  rfl

theorem objectPath_refused {bucket key : String} (h : ¬(Inward bucket ∧ Inward key)) :
    ∃ name ∈ [bucket, key], ¬Inward name ∧
      objectPath bucket key = .error (.invalidKey name) := by
  unfold objectPath
  by_cases hbucket : Inward bucket
  · have hkey : ¬Inward key := fun hkey => h ⟨hbucket, hkey⟩
    refine ⟨key, by simp, hkey, ?_⟩
    rw [checked_of_inward hbucket, checked_of_not_inward hkey]
    rfl
  · refine ⟨bucket, by simp, hbucket, ?_⟩
    rw [checked_of_not_inward hbucket]
    rfl

theorem Desk.perform_refused (d : Desk) {a : Action} {name : String} (hname : name ∈ a.names)
    (h : ¬Inward name) :
    ∃ refused ∈ a.names, ¬Inward refused ∧ d.perform a = (.error (.invalidKey refused), d) := by
  have hboth {bucket key : String} (hmem : name ∈ [bucket, key]) :
      ¬(Inward bucket ∧ Inward key) := by
    rintro ⟨hbucket, hkey⟩
    rcases List.mem_cons.mp hmem with rfl | hmem
    · exact h hbucket
    · rw [List.mem_singleton.mp hmem] at h
      exact h hkey
  cases a with
  | createBucket bucket =>
    cases List.mem_singleton.mp hname
    refine ⟨name, hname, h, ?_⟩
    simp only [perform, Store.createBucket, checked_of_not_inward h]
  | upload bucket file key =>
    obtain ⟨refused, hmem, hrefused, hpath⟩ := objectPath_refused (hboth hname)
    refine ⟨refused, hmem, hrefused, ?_⟩
    simp only [perform, Store.upload, hpath]
  | download bucket key file writable =>
    obtain ⟨refused, hmem, hrefused, hpath⟩ := objectPath_refused (hboth hname)
    refine ⟨refused, hmem, hrefused, ?_⟩
    simp only [perform, Store.download, hpath, bind, Except.bind]
  | edit file content => cases hname

/-! ### At the path -/

/-- What an action that succeeded made of what stood at the end of its path, or of a local file. -/
def Action.Done (d d' : Desk) (path : List String) : Action → Prop
  | .createBucket _ => d'.store.tree.find? path = some .directory
  | .upload _ file _ => ∃ content, d.files file = some content ∧
      d'.store.tree.find? path = some (.file content)
  | .download _ _ file _ => d'.store = d.store ∧
      ∃ content, d.store.tree.find? path = some (.file content) ∧ d'.files file = some content
  | .edit .. => True

namespace Desk
variable {bucket key : String} {path : List String}

/-- What an action does to the store, it does at a path. What stands on the way down to it decides.
Only directories are made on the way, where there is nothing, and only the end comes to be what the
action says. -/
structure ActsAt (d : Desk) (a : Action) (path : List String) : Prop where
  reads : ∀ d' : Desk, d'.files = d.files → d.store.SameDownTo d'.store path →
    (d'.perform a).1 = (d.perform a).1 ∧ (d'.perform a).2.files = (d.perform a).2.files ∧
      (d.perform a).2.store.SameDownTo (d'.perform a).2.store path
  writes : ∀ q, (d.perform a).2.store.tree.find? q = d.store.tree.find? q ∨
    (q <+: path ∧ d.store.tree.find? q = none ∧
      (d.perform a).2.store.tree.find? q = some .directory) ∨
    (q = path ∧ (d.perform a).1 = .ok ())
  ends : (d.perform a).1 = .ok () → a.Done d (d.perform a).2 path

theorem createBucket_actsAt (d : Desk) (hpath : checked bucket = .ok path) :
    d.ActsAt (.createBucket bucket) path where
  reads d' hfiles h := by
    obtain ⟨hanswer, hafter⟩ := h.createBucket hpath
    exact ⟨hanswer, hfiles, hafter⟩
  writes q := (d.store.createBucket_find? hpath q).imp_right .inl
  ends hok := Store.createBucket_made hpath hok

theorem upload_actsAt (d : Desk) (file : String) (hpath : objectPath bucket key = .ok path) :
    d.ActsAt (.upload bucket file key) path where
  reads d' hfiles h := by
    obtain ⟨hanswer, hafter⟩ := h.upload hpath (d.files file)
    simp only [perform, hfiles]
    exact ⟨hanswer, trivial, hafter⟩
  writes q := d.store.upload_find? hpath (d.files file) q
  ends hok := Store.upload_made (Prod.ext hok rfl) hpath

theorem download_actsAt (d : Desk) (file : String) (writable : Bool)
    (hpath : objectPath bucket key = .ok path) :
    d.ActsAt (.download bucket key file writable) path := by
  cases hread : d.store.download bucket key writable with
  | error e =>
    have hperform : d.perform (.download bucket key file writable) = (.error e, d) := by
      simp only [perform, hread]
    refine ⟨fun d' hfiles h => ?_, fun q => .inl (by rw [hperform]), fun hok => ?_⟩
    · have hread' := (h.download hpath writable).trans hread
      rw [hperform]
      simp only [perform, hread']
      exact ⟨trivial, hfiles, h⟩
    · rw [hperform] at hok
      cases hok
  | ok content =>
    have hperform : d.perform (.download bucket key file writable) =
        (.ok (), d.write file (some content)) := by
      simp only [perform, hread]
    refine ⟨fun d' hfiles h => ?_, fun q => .inl (by rw [hperform]; rfl), fun hok => ?_⟩
    · have hread' := (h.download hpath writable).trans hread
      rw [hperform]
      simp only [perform, hread', write, hfiles]
      exact ⟨trivial, trivial, h⟩
    · rw [hperform]
      exact ⟨rfl, content, Store.download_found hpath hread, if_pos rfl⟩

end Desk

/-- A bucket and a key are accepted just if both lead down only. The object then lies below the root
by the names of the bucket and those of the key, of which there is one at least, so however its path
is resolved it lies below its bucket; and whatever is done under these names is done at that path.
All else is refused and changes nothing. -/
theorem objects_confined (d : Desk) (bucket key : String) :
    ((∃ path, objectPath bucket key = .ok path) ↔ Inward bucket ∧ Inward key) ∧
    (∀ path, objectPath bucket key = .ok path →
      let object := join (join d.store.root bucket) key
      path = ordinary bucket ++ ordinary key ∧ ordinary key ≠ [] ∧
      object = join d.store.root (join bucket key) ∧
      components object = components d.store.root ++ path.map .name ∧
      (∀ step, IsLexical step →
        (components object).foldl step [] =
          (components (join d.store.root bucket)).foldl step [] ++ (ordinary key).map .name) ∧
      ∀ a : Action, a.names = [bucket, key] → d.ActsAt a path) ∧
    (Inward bucket → d.ActsAt (.createBucket bucket) (ordinary bucket)) ∧
    ∀ a : Action, (∃ name ∈ a.names, ¬Inward name) →
      ∃ refused ∈ a.names, ¬Inward refused ∧ d.perform a = (.error (.invalidKey refused), d) := by
  refine ⟨⟨?_, ?_⟩, ?_, ?_, ?_⟩
  · rintro ⟨path, hpath⟩
    obtain ⟨hbucket, hkey, -⟩ := objectPath_eq_ok.mp hpath
    exact ⟨hbucket, hkey⟩
  · rintro ⟨hbucket, hkey⟩
    exact ⟨_, objectPath_eq_ok.mpr ⟨hbucket, hkey, rfl⟩⟩
  · intro path hpath object
    obtain ⟨hbucket, hkey, hnames⟩ := objectPath_eq_ok.mp hpath
    have hobject : components object =
        components (join d.store.root bucket) ++ (ordinary key).map .name :=
      hkey.components_join _
    refine ⟨hnames, hkey.ordinary_ne_nil, hbucket.join_join hkey _, ?_, fun step hstep => ?_, ?_⟩
    · rw [hobject, hbucket.components_join, hnames, List.map_append, List.append_assoc]
    · rw [hobject, List.foldl_append, hstep.foldl_names]
    · intro a ha
      cases a with
      | upload =>
        cases ha
        exact d.upload_actsAt _ hpath
      | download =>
        cases ha
        exact d.download_actsAt _ _ hpath
      | createBucket | edit => cases ha
  · exact fun hbucket => d.createBucket_actsAt (checked_of_inward hbucket)
  · rintro a ⟨name, hname, h⟩
    exact d.perform_refused hname h

end SandboxWorker.Storage
