import SandboxWorker.Proofs.Text.Paths
/-! The name that a path ends in. -/
namespace SandboxWorker.Path

structure IsName (name : String) : Prop where
  nonempty : name ≠ ""
  no_slash : slash ∉ name.toList
  not_here : name ≠ "."
  not_up : name ≠ ".."

instance (name : String) : Decidable (IsName name) :=
  decidable_of_iff (name ≠ "" ∧ slash ∉ name.toList ∧ name ≠ "." ∧ name ≠ "..")
    ⟨fun ⟨hne, hslash, hhere, hup⟩ => ⟨hne, hslash, hhere, hup⟩,
      fun h => ⟨h.nonempty, h.no_slash, h.not_here, h.not_up⟩⟩

namespace IsName
variable {name : String}

theorem toList_ne_nil (h : IsName name) : name.toList ≠ [] := fun hnil =>
  h.nonempty (String.toList_inj.mp hnil)

theorem not_idle (h : IsName name) : isIdle name.toList = false := by
  have hhere : name.toList ≠ ['.'] := fun hdot => h.not_here (String.toList_inj.mp hdot)
  simp [isIdle, h.toList_ne_nil, hhere]

theorem ofSegment?_eq (h : IsName name) : ofSegment? name.toList = some (.name name) := by
  have hup : name.toList ≠ ['.', '.'] := fun hdots => h.not_up (String.toList_inj.mp hdots)
  rw [ofSegment?_eq_name h.not_idle hup, String.ofList_toList]

theorem segments_eq (h : IsName name) : segments name = [name.toList] :=
  Text.split_of_not_mem h.no_slash

theorem not_rooted (h : IsName name) : name.toList.head? ≠ some slash := fun hroot =>
  h.no_slash (List.mem_of_head? hroot)

theorem not_here_first (h : IsName name) : (segments name).head? ≠ some ['.'] := by
  rw [h.segments_eq, List.head?_cons, Ne, Option.some_inj]
  exact fun hdot => h.not_here (String.toList_inj.mp hdot)

theorem components_eq (h : IsName name) : components name = [.name name] := by
  rw [components_of_not_rooted h.not_rooted h.not_here_first, h.segments_eq,
    List.filterMap_cons_some h.ofSegment?_eq, List.filterMap_nil]

theorem components_join (h : IsName name) (above : String) :
    components (join above name) = components above ++ [.name name] := by
  rw [Path.components_join h.not_rooted h.not_here_first, h.components_eq]

end IsName

/-- A path that ends in a name, apart from what means nothing behind it: slashes, and dots between
or behind them. -/
def EndsIn (s name : String) : Prop :=
  IsName name ∧ ∃ (above : List Char) (behind : List (List Char)),
    s.toList = above ++ name.toList ++ behind.flatMap (slash :: ·) ∧
    (above = [] ∨ above.getLast? = some slash) ∧ ∀ part ∈ behind, part = [] ∨ part = ['.']

/-! ### Segments -/

theorem ofSegment?_eq_none {segment : List Char} :
    ofSegment? segment = none ↔ segment = [] ∨ segment = ['.'] := by
  unfold ofSegment? isIdle
  split
  · simp_all
  · split <;> simp_all

theorem eq_of_ofSegment?_eq_name {segment : List Char} {name : String}
    (h : ofSegment? segment = some (.name name)) :
    segment = name.toList ∧ name ≠ "" ∧ name ≠ "." ∧ name ≠ ".." := by
  unfold ofSegment? isIdle at h
  split at h
  · cases h
  · rename_i hidle
    split at h
    · cases h
    · rename_i hup
      cases h
      rw [Bool.or_eq_true, decide_eq_true_eq, decide_eq_true_eq, not_or] at hidle
      refine ⟨String.toList_ofList.symm, ?_, ?_, ?_⟩
      all_goals
        intro hname
        have htext := congrArg String.toList hname
        rw [String.toList_ofList] at htext
      · exact hidle.1 htext
      · exact hidle.2 htext
      · exact hup htext

theorem fileName?_eq_getLast? {s name : String} :
    fileName? s = some name ↔ (components s).getLast? = some (.name name) := by
  unfold fileName?
  split
  · rename_i n hlast
    rw [hlast]
    simp
  · rename_i hlast
    refine ⟨nofun, fun h => absurd h (hlast name)⟩

theorem fileName?_eq_some {s name : String} :
    fileName? s = some name ↔ ∃ front segment behind, segments s = front ++ segment :: behind ∧
      ofSegment? segment = some (.name name) ∧ ∀ part ∈ behind, ofSegment? part = none := by
  rw [fileName?_eq_getLast?]
  obtain ⟨first, rest, hs⟩ := exists_segments s
  unfold components
  rw [hs]
  dsimp only
  constructor
  · intro h
    rw [List.getLast?_append] at h
    cases htail : (rest.filterMap ofSegment?).getLast? with
    | some c =>
      rw [htail, Option.some_or, Option.some_inj] at h
      obtain ⟨means, hmeans⟩ := List.getLast?_eq_some_iff.mp htail
      obtain ⟨front, back, rfl, -, hback⟩ := List.filterMap_eq_append_iff.mp hmeans
      obtain ⟨idle, segment, behind, rfl, -, hsegment, hbehind⟩ :=
        List.filterMap_eq_cons_iff.mp hback
      exact ⟨first :: (front ++ idle), segment, behind, by simp, h ▸ hsegment,
        List.filterMap_eq_nil_iff.mp hbehind⟩
    | none =>
      rw [htail, Option.none_or] at h
      rw [List.getLast?_eq_none_iff, List.filterMap_eq_nil_iff] at htail
      refine ⟨[], first, rest, rfl, ?_, htail⟩
      split at h
      · cases h
      · split at h
        · cases h
        · cases hfirst : ofSegment? first with
          | none => rw [hfirst] at h; cases h
          | some c => rw [hfirst] at h; cases h; rfl
  · rintro ⟨front, segment, behind, hsegments, hsegment, hbehind⟩
    have hnothing := List.filterMap_eq_nil_iff.mpr hbehind
    cases front with
    | nil =>
      obtain ⟨rfl, rfl⟩ := List.cons.inj hsegments
      have hmeans : ¬(first = [] ∨ first = ['.']) := by
        rw [← ofSegment?_eq_none, hsegment]
        nofun
      rw [not_or] at hmeans
      rw [if_neg (fun hroot => hmeans.1 hroot.1), if_neg hmeans.2, hsegment, hnothing]
      rfl
    | cons part front =>
      obtain ⟨-, hrest⟩ := List.cons.inj (hsegments.trans (List.cons_append ..))
      rw [hrest, List.filterMap_append, List.filterMap_cons_some hsegment, hnothing,
        List.getLast?_append, List.getLast?_append]
      rfl

/-! ### Text -/

theorem intercalate_eq (front behind : List (List Char)) (segment : List Char) :
    List.intercalate [slash] (front ++ segment :: behind) =
      front.flatMap (· ++ [slash]) ++ segment ++ behind.flatMap (slash :: ·) := by
  induction front with
  | nil =>
    induction behind generalizing segment with
    | nil => simp [List.intercalate]
    | cons part behind ih =>
      rw [List.nil_append, List.intercalate_cons_cons, ← List.nil_append (part :: behind), ih part]
      simp
  | cons part front ih =>
    rw [List.cons_append]
    cases hrest : front ++ segment :: behind with
    | nil => simp at hrest
    | cons next rest =>
      rw [List.intercalate_cons_cons, ← hrest, ih]
      simp

theorem split_flatMap {segment : List Char} {behind : List (List Char)} (h : slash ∉ segment)
    (hbehind : ∀ part ∈ behind, slash ∉ part) :
    Text.split slash (segment ++ behind.flatMap (slash :: ·)) = segment :: behind := by
  have htext := intercalate_eq [] behind segment
  rw [List.flatMap_nil, List.nil_append, List.nil_append] at htext
  rw [← htext, Text.split_intercalate (List.cons_ne_nil _ _)]
  exact List.forall_mem_cons.mpr ⟨h, hbehind⟩

theorem getLast?_flatMap_slash (front : List (List Char)) :
    front.flatMap (· ++ [slash]) = [] ∨
      (front.flatMap (· ++ [slash])).getLast? = some slash := by
  rcases List.eq_nil_or_concat front with rfl | ⟨front, part, rfl⟩
  · exact .inl rfl
  · refine .inr ?_
    rw [List.concat_eq_append, List.flatMap_append, List.flatMap_singleton, ← List.append_assoc,
      List.getLast?_concat]

/-- The file name of a path is the name that it ends in; a path has none just if it ends in none. -/
theorem fileName?_iff_endsIn {s name : String} : fileName? s = some name ↔ EndsIn s name := by
  rw [fileName?_eq_some]
  constructor
  · rintro ⟨front, segment, behind, hsegments, hsegment, hbehind⟩
    obtain ⟨rfl, hempty, hhere, hup⟩ := eq_of_ofSegment?_eq_name hsegment
    have hmem : name.toList ∈ segments s := by
      rw [hsegments]
      simp
    have hslash : slash ∉ name.toList := Text.not_mem_of_mem_split hmem
    refine ⟨⟨hempty, hslash, hhere, hup⟩, front.flatMap (· ++ [slash]), behind, ?_,
      getLast?_flatMap_slash front, fun part hpart => ofSegment?_eq_none.mp (hbehind part hpart)⟩
    rw [← intercalate_segments, hsegments, intercalate_eq]
  · rintro ⟨hname, above, behind, htext, habove, hbehind⟩
    have hslash : ∀ part ∈ behind, slash ∉ part := by
      intro part hpart
      rcases hbehind part hpart with rfl | rfl <;> decide
    have hend := split_flatMap hname.no_slash hslash
    have hidle : ∀ part ∈ behind, ofSegment? part = none :=
      fun part hpart => ofSegment?_eq_none.mpr (hbehind part hpart)
    rw [List.append_assoc] at htext
    rcases habove with rfl | hlast
    · refine ⟨[], _, behind, ?_, hname.ofSegment?_eq, hidle⟩
      rw [segments, htext, List.nil_append, hend, List.nil_append]
    · obtain ⟨front, rfl⟩ := List.getLast?_eq_some_iff.mp hlast
      refine ⟨Text.split slash front, _, behind, ?_, hname.ofSegment?_eq, hidle⟩
      rw [segments, htext, List.append_assoc, List.singleton_append, Text.split_append_separator,
        hend]

example : fileName? "jobs/../Program.cs/.//" = some "Program.cs" := by decide

end SandboxWorker.Path
