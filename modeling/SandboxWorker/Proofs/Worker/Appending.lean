import SandboxWorker.Proofs.Worker.Stored
/-! What a batch of output leaves in the logs of an execution: each log grows by what the batch has
for it, also where nothing had to be written. -/
namespace SandboxWorker.Worker
open Program Storage

def parts (paths : LogsPath) : List (String × (LogBatch → String)) :=
  [(paths.all, LogBatch.merged), (paths.stdout, LogBatch.stdout), (paths.stderr, LogBatch.stderr)]

def Kept (bucket : String) (paths : LogsPath) (store : Store) (bs : List LogBatch) : Prop :=
  ∀ p ∈ parts paths,
    store.download bucket p.1 true = .ok (Utf8.encode (String.join (bs.map p.2)))

/-- A batch without frames has no text either. -/
def Plain (b : LogBatch) : Prop := b.isEmpty = true → b.merged = "" ∧ b.stdout = "" ∧ b.stderr = ""

theorem plain_of_demultiplex {bs : Bytes} {since : Option Instant} {b : LogBatch}
    (h : LogBatch.demultiplex bs since = .ok b) : Plain b := by
  intro hempty
  unfold LogBatch.demultiplex at h
  cases hframes : Frame.decode bs with
  | error e =>
    rw [hframes] at h
    cases h
  | ok frames =>
    rw [hframes] at h
    cases h
    simp only [LogBatch.isEmpty, LogBatch.ofFrames, List.isEmpty_iff] at hempty
    have hnew : frames.filter (LogBatch.isNew since) = [] := by
      rw [← List.length_eq_zero_iff, ← List.length_mergeSort, hempty]
      rfl
    refine ⟨?_, ?_, ?_⟩
    · simp only [LogBatch.merged, LogBatch.ofFrames, hempty]
      rfl
    · simp only [LogBatch.ofFrames, hnew]
      rfl
    · simp only [LogBatch.ofFrames, hnew]
      rfl

theorem fst_mem_of_parts {paths : LogsPath} {p : String × (LogBatch → String)}
    (h : p ∈ parts paths) : p.1 ∈ paths.toList := by
  have hkeys : (parts paths).map (·.1) = paths.toList := rfl
  rw [← hkeys]
  exact List.mem_map_of_mem h

section Files
variable {bucket key text : String} {store last : Store} {steps : List (Step Call)}

theorem appendText_runs (h : (appendText bucket key text).Runs steps (some (.ok ()))) :
    ∃ old, steps = [⟨.scratch "logs", true⟩, ⟨.download bucket key, .ok old⟩,
      ⟨.upload bucket key (old ++ Utf8.encode text), .ok ()⟩] := by
  obtain ⟨first, rfl, hfirst⟩ := Work.runs_scratch_bind_ok.mp h
  obtain ⟨old, second, rfl, hsecond⟩ := Work.runs_download_bind_ok.mp hfirst
  rw [Work.upload_eq, Work.runs_once] at hsecond
  obtain ⟨answer, rfl, hanswer⟩ := hsecond
  cases Work.mapError_eq_ok.mp (Option.some.inj hanswer).symm
  exact ⟨old, rfl⟩

theorem appendText_stored (h : (appendText bucket key text).Runs steps (some (.ok ())))
    (hstored : Stored store steps last) :
    ∃ old, store.download bucket key true = .ok old ∧
      store.upload bucket (some (old ++ Utf8.encode text)) key = (.ok (), last) := by
  obtain ⟨old, rfl⟩ := appendText_runs h
  obtain ⟨hold, hmore⟩ := (hstored.of_cons rfl).of_download
  obtain ⟨next, hupload, hend⟩ := hmore.of_upload
  cases hend
  exact ⟨old, hold, hupload⟩

def added (adds : List (String × String)) (key : String) : Bytes :=
  (adds.filter (·.1 = key)).flatMap fun a => Utf8.encode a.2

variable {id : ExecutionId}

theorem appends_stored {adds : List (String × String)}
    (hadds : ∀ a ∈ adds, a.1 ∈ (LogsPath.forExecution id).toList)
    (h : (adds.forM fun (key, text) => appendText bucket key text).Runs steps (some (.ok ())))
    (hstored : Stored store steps last) (hkey : key ∈ (LogsPath.forExecution id).toList)
    {old : Bytes} (hold : store.download bucket key true = .ok old) :
    last.download bucket key true = .ok (old ++ added adds key) := by
  -- Each addition goes to this log or to another one, whose place in the store is not this one's.
  induction adds generalizing store steps old with
  | nil =>
    obtain ⟨rfl, -⟩ := Work.runs_pure.mp h
    cases hstored
    rw [added, List.filter_nil, List.flatMap_nil, List.append_nil, hold]
  | cons a adds ih =>
    change (appendText bucket a.1 a.2 >>= fun _ => adds.forM _).Runs steps _ at h
    obtain ⟨_, first, second, rfl, hfirst, hsecond⟩ := Work.runs_bind_ok.mp h
    obtain ⟨middle, hmiddle, hlast⟩ := Stored.append_iff.mp hstored
    obtain ⟨content, hcontent, hupload⟩ := appendText_stored hfirst hmiddle
    have hrest : ∀ a ∈ adds, a.1 ∈ (LogsPath.forExecution id).toList :=
      fun b hb => hadds b (List.mem_cons_of_mem a hb)
    by_cases heq : a.1 = key
    · have hnext : middle.download bucket key true = .ok (old ++ Utf8.encode a.2) := by
        rw [heq, hold] at hcontent
        cases hcontent
        rw [← heq]
        exact Store.download_upload hupload
      rw [ih hrest hsecond hlast hnext, added, added, List.filter_cons_of_pos (by simpa using heq),
        List.flatMap_cons, List.append_assoc]
    · have hdiffer : ∀ path, objectPath bucket a.1 = .ok path → objectPath bucket key ≠ .ok path :=
        fun path => objectPath_ne_of_logs id (hadds a List.mem_cons_self) hkey heq
      have hnext := Store.download_upload_of_ne hdiffer hupload hold
      rw [ih hrest hsecond hlast hnext, added, added, List.filter_cons_of_neg (by simpa using heq)]

theorem added_filter (adds : List (String × String)) (key : String) :
    added (adds.filter fun (_, text) => text ≠ "") key = added adds key := by
  induction adds with
  | nil => rfl
  | cons a adds ih =>
    obtain ⟨other, text⟩ := a
    unfold added at ih ⊢
    by_cases htext : text = ""
    · subst htext
      rw [List.filter_cons_of_neg (by simp), ih]
      by_cases hkey : other = key
      · rw [List.filter_cons_of_pos (by simpa using hkey), List.flatMap_cons]
        rfl
      · rw [List.filter_cons_of_neg (by simpa using hkey)]
    · rw [List.filter_cons_of_pos (by simpa using htext)]
      by_cases hkey : other = key
      · rw [List.filter_cons_of_pos (by simpa using hkey),
          List.filter_cons_of_pos (by simpa using hkey), List.flatMap_cons, List.flatMap_cons, ih]
      · rw [List.filter_cons_of_neg (by simpa using hkey),
          List.filter_cons_of_neg (by simpa using hkey), ih]

theorem added_additions {b : LogBatch} (plain : Plain b) :
    ∀ p ∈ parts (.forExecution id),
      added (additions (.forExecution id) b) p.1 = Utf8.encode (p.2 b) := by
  have hnodup := nodup_logs id
  generalize LogsPath.forExecution id = paths at hnodup
  obtain ⟨all, stdout, stderr⟩ := paths
  simp only [LogsPath.toList, List.nodup_cons, List.mem_cons, List.not_mem_nil, or_false,
    not_or] at hnodup
  obtain ⟨⟨hstdout, hstderr⟩, hboth, -⟩ := hnodup
  intro p hp
  simp only [parts, List.mem_cons, List.not_mem_nil, or_false] at hp
  unfold additions
  split
  · rename_i hempty
    obtain ⟨hmerged, hout, herr⟩ := plain hempty
    rcases hp with rfl | rfl | rfl
    · exact (congrArg Utf8.encode hmerged).symm
    · exact (congrArg Utf8.encode hout).symm
    · exact (congrArg Utf8.encode herr).symm
  · rw [added_filter]
    rcases hp with rfl | rfl | rfl
    · simp [added, Ne.symm hstdout, Ne.symm hstderr]
    · simp [added, hstdout, Ne.symm hboth]
    · simp [added, hstderr, hboth]

/-- A batch that was appended is kept behind those before it. -/
theorem appendLogs_kept {b : LogBatch} {bs : List LogBatch} (plain : Plain b)
    (h : (appendLogs bucket (.forExecution id) b).Runs steps (some (.ok ())))
    (hstored : Stored store steps last) (hkept : Kept bucket (.forExecution id) store bs) :
    Kept bucket (.forExecution id) last (bs ++ [b]) := by
  intro p hp
  have hadds : ∀ a ∈ additions (.forExecution id) b, a.1 ∈ (LogsPath.forExecution id).toList :=
    fun a ha => key_mem_of_additions _ ha
  rw [appends_stored hadds h hstored (fst_mem_of_parts hp) (hkept p hp), added_additions plain p hp,
    List.map_append, String.join_append, Utf8.encode_append]
  simp

theorem creates_stored {keys : List String}
    (hkeys : ∀ k ∈ keys, k ∈ (LogsPath.forExecution id).toList)
    (h : (keys.forM fun key => Work.upload bucket key []).Runs steps (some (.ok ())))
    (hstored : Stored store steps last) (hkey : key ∈ (LogsPath.forExecution id).toList)
    (hmade : key ∈ keys ∨ store.download bucket key true = .ok []) :
    last.download bucket key true = .ok [] := by
  induction keys generalizing store steps with
  | nil =>
    obtain ⟨rfl, -⟩ := Work.runs_pure.mp h
    cases hstored
    exact hmade.resolve_left List.not_mem_nil
  | cons k keys ih =>
    obtain ⟨_, rest, rfl, hrest⟩ := Work.runs_upload_bind_ok.mp h
    obtain ⟨next, hupload, hmore⟩ := hstored.of_upload
    refine ih (fun j hj => hkeys j (List.mem_cons_of_mem k hj)) hrest hmore ?_
    by_cases heq : k = key
    · rw [← heq]
      exact .inr (Store.download_upload hupload)
    · refine hmade.imp (fun hmem => ?_) fun hold => ?_
      · exact (List.mem_cons.mp hmem).resolve_left (Ne.symm heq)
      · have hdiffer : ∀ path, objectPath bucket k = .ok path → objectPath bucket key ≠ .ok path :=
          fun path => objectPath_ne_of_logs id (hkeys k List.mem_cons_self) hkey heq
        exact Store.download_upload_of_ne hdiffer hupload hold

theorem createLogs_kept
    (h : (createLogs bucket (.forExecution id)).Runs steps (some (.ok ())))
    (hstored : Stored store steps last) : Kept bucket (.forExecution id) last [] := by
  obtain ⟨rest, rfl, hrest⟩ := Work.runs_scratch_bind_ok.mp h
  intro p hp
  have hkey := fst_mem_of_parts hp
  rw [creates_stored (fun _ hk => hk) hrest (hstored.of_cons rfl) hkey (.inl hkey)]
  rfl

end Files
end SandboxWorker.Worker
