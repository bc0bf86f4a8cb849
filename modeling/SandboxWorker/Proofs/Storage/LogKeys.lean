import SandboxWorker.Execution.Basic
import SandboxWorker.Proofs.Storage.Confinement
import SandboxWorker.Proofs.Text.Hex
/-! The source and the logs of an execution are different objects of any bucket, in a directory that
is the execution's own. -/
namespace SandboxWorker

theorem Hex.slash_ne_lower : ∀ d, d < 16 → Path.slash ≠ lower d := by decide

theorem Hex.slash_not_mem_fixed (width n : Nat) : Path.slash ∉ fixed width n :=
  fun h => of_mem_fixed slash_ne_lower h rfl

theorem Uuid.slash_not_mem_text (u : Uuid) : Path.slash ∉ u.text := by
  have hhyphen : Path.slash ≠ '-' := by decide
  simp only [text, List.mem_append, List.mem_cons, Hex.slash_not_mem_fixed, hhyphen, or_false,
    not_false_eq_true]

namespace Path

theorem ofSegment?_uuid (u : Uuid) : ofSegment? u.text = some (.name u.toString) := by
  have hlength := u.length_text
  apply ofSegment?_eq_name
  · cases hidle : isIdle u.text with
    | false => rfl
    | true =>
      simp only [isIdle, Bool.or_eq_true, decide_eq_true_eq] at hidle
      rcases hidle with htext | htext <;> simp [htext] at hlength
  · intro htext
    simp [htext] at hlength

theorem names?_below (u : Uuid) {name : String} (hslash : slash ∉ name.toList)
    (hidle : isIdle name.toList = false) (hup : name.toList ≠ ['.', '.']) :
    names? (u.toString ++ ("/" ++ name)) = some [u.toString, name] := by
  have hlist : (u.toString ++ ("/" ++ name)).toList = u.text ++ slash :: name.toList := by
    rw [String.toList_append, String.toList_append, Uuid.toString, String.toList_ofList]
    rfl
  have hsegments : segments (u.toString ++ ("/" ++ name)) = [u.text, name.toList] := by
    rw [segments, hlist, Text.split_append_cons u.slash_not_mem_text, Text.split_of_not_mem hslash]
  have hlength := u.length_text
  have hempty : u.text ≠ [] := by
    intro htext
    simp [htext] at hlength
  have hdot : u.text ≠ ['.'] := by
    intro htext
    simp [htext] at hlength
  have hcomponents : components (u.toString ++ ("/" ++ name)) =
      [.name u.toString, .name name] := by
    unfold components
    rw [hsegments]
    simp [hempty, hdot, ofSegment?_uuid, ofSegment?_eq_name hidle hup, String.ofList_toList]
  rw [names?, hcomponents]
  rfl

end Path

namespace Storage

theorem checked_below (u : Uuid) {name : String} (hslash : Path.slash ∉ name.toList)
    (hidle : Path.isIdle name.toList = false) (hup : name.toList ≠ ['.', '.']) :
    checked (u.toString ++ ("/" ++ name)) = .ok [u.toString, name] := by
  have hne : u.toString ++ ("/" ++ name) ≠ "" := by
    intro hempty
    have hlists := congrArg (List.length ∘ String.toList) hempty
    simp [Uuid.toString, Uuid.length_text] at hlists
  rw [checked, Path.names?_below u hslash hidle hup]
  exact if_neg hne

theorem getLast?_objectPath_below (u : Uuid) {bucket name : String} {path : List String}
    (hslash : Path.slash ∉ name.toList) (hidle : Path.isIdle name.toList = false)
    (hup : name.toList ≠ ['.', '.'])
    (h : objectPath bucket (u.toString ++ ("/" ++ name)) = .ok path) :
    path.getLast? = some name := by
  unfold objectPath at h
  rw [checked_below u hslash hidle hup] at h
  cases hbucket : checked bucket with
  | error e =>
    rw [hbucket] at h
    cases h
  | ok names =>
    rw [hbucket] at h
    cases h
    simp

theorem exists_name_of_log {id : ExecutionId} {key : String}
    (h : key ∈ (LogsPath.forExecution id).toList) :
    ∃ name, key = id.toString ++ ("/" ++ name) ∧ Path.slash ∉ name.toList ∧
      Path.isIdle name.toList = false ∧ name.toList ≠ ['.', '.'] := by
  simp only [LogsPath.toList, LogsPath.forExecution, List.mem_cons, List.not_mem_nil, or_false] at h
  rcases h with rfl | rfl | rfl
  · exact ⟨"all_logs", rfl, by decide, by decide, by decide⟩
  · exact ⟨"stdout_logs", rfl, by decide, by decide, by decide⟩
  · exact ⟨"stderr_logs", rfl, by decide, by decide, by decide⟩

theorem objectPath_ne_of_logs (id : ExecutionId) {bucket key key' : String}
    (hkey : key ∈ (LogsPath.forExecution id).toList)
    (hkey' : key' ∈ (LogsPath.forExecution id).toList) (hne : key ≠ key') {path : List String}
    (h : objectPath bucket key = .ok path) : objectPath bucket key' ≠ .ok path := by
  intro h'
  obtain ⟨name, rfl, hslash, hidle, hup⟩ := exists_name_of_log hkey
  obtain ⟨name', rfl, hslash', hidle', hup'⟩ := exists_name_of_log hkey'
  have hlast := getLast?_objectPath_below id hslash hidle hup h
  have hlast' := getLast?_objectPath_below id hslash' hidle' hup' h'
  rw [hlast] at hlast'
  exact hne (by rw [Option.some.inj hlast'])

theorem nodup_logs (id : ExecutionId) : (LogsPath.forExecution id).toList.Nodup := by
  simp only [LogsPath.toList, LogsPath.forExecution, List.nodup_cons, List.mem_cons,
    List.not_mem_nil, or_false, String.append_right_inj]
  decide

/-! ### All that an execution keeps -/

def objectsOf (id : ExecutionId) : List String :=
  sourcePath id :: (LogsPath.forExecution id).toList

def objectNames : List String := ["source", "all_logs", "stdout_logs", "stderr_logs"]

theorem objectsOf_eq (id : ExecutionId) :
    objectsOf id = objectNames.map fun name => id.toString ++ ("/" ++ name) := by
  rw [objectsOf, sourcePath, String.append_assoc]
  rfl

theorem checked_object {id : ExecutionId} {key : String} (h : key ∈ objectsOf id) :
    ∃ name ∈ objectNames, key = id.toString ++ ("/" ++ name) ∧
      checked key = .ok [id.toString, name] := by
  rw [objectsOf_eq] at h
  obtain ⟨name, hname, rfl⟩ := List.mem_map.mp h
  have hordinary : ∀ name ∈ objectNames, Path.slash ∉ name.toList ∧
      Path.isIdle name.toList = false ∧ name.toList ≠ ['.', '.'] := by decide
  obtain ⟨hslash, hidle, hup⟩ := hordinary name hname
  exact ⟨name, hname, rfl, checked_below id hslash hidle hup⟩

theorem nodup_objects {x y : ExecutionId} (hne : x ≠ y) : (objectsOf x ++ objectsOf y).Nodup := by
  have hnames : objectNames.Nodup := by decide
  have hone (id : ExecutionId) : (objectsOf id).Nodup := by
    rw [objectsOf_eq, List.Nodup, List.pairwise_map]
    refine hnames.imp fun hdiffer heq => hdiffer ?_
    simpa [String.append_right_inj] using heq
  refine List.nodup_append.mpr ⟨hone x, hone y, fun key hx key' hy heq => ?_⟩
  subst heq
  obtain ⟨name, -, -, hname⟩ := checked_object hx
  obtain ⟨name', -, -, hname'⟩ := checked_object hy
  rw [hname] at hname'
  exact hne (Uuid.toString_inj (List.cons.inj (Except.ok.inj hname')).1)

/-- No two such objects have one place, and none lies below another. -/
theorem objects_apart {bucket key key' : String} {names : List String} {x y : ExecutionId}
    (hbucket : checked bucket = .ok names) (hkey : key ∈ objectsOf x) (hkey' : key' ∈ objectsOf y)
    (hne : key ≠ key') :
    ∃ path path', objectPath bucket key = .ok path ∧ objectPath bucket key' = .ok path' ∧
      ¬path <+: path' := by
  obtain ⟨name, -, htext, hname⟩ := checked_object hkey
  obtain ⟨name', -, htext', hname'⟩ := checked_object hkey'
  refine ⟨_, _, objectPath_of_checked hbucket hname, objectPath_of_checked hbucket hname',
    fun hprefix => ?_⟩
  rw [List.prefix_append_right_inj] at hprefix
  have hsame := hprefix.eq_of_length (by simp)
  obtain ⟨hid, hlast⟩ := List.cons.inj hsame
  obtain ⟨hlast, -⟩ := List.cons.inj hlast
  rw [hid, hlast, ← htext'] at htext
  exact hne htext

end Storage
end SandboxWorker
