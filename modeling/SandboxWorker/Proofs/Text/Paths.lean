import SandboxWorker.Text.Path
/-! What joining does to the components of a path, and which paths go down only. -/
namespace SandboxWorker

namespace Text
variable {separator : Char}

theorem split_append_separator (front rest : List Char) :
    split separator (front ++ separator :: rest) =
      split separator front ++ split separator rest := by
  induction front with
  | nil => simp [split]
  | cons c front ih =>
    rw [List.cons_append, split, split, ih]
    split
    · rw [List.cons_append]
    · cases hfront : split separator front with
      | nil => exact absurd hfront (split_ne_nil separator front)
      | cons part parts => rfl

theorem split_of_not_mem {cs : List Char} (h : separator ∉ cs) : split separator cs = [cs] := by
  induction cs with
  | nil => rfl
  | cons c cs ih =>
    rw [List.mem_cons, not_or] at h
    rw [split, if_neg (Ne.symm h.1), ih h.2]

theorem split_append_cons {front : List Char} (h : separator ∉ front) (rest : List Char) :
    split separator (front ++ separator :: rest) = front :: split separator rest := by
  rw [split_append_separator, split_of_not_mem h, List.singleton_append]

theorem not_mem_of_mem_split {part cs : List Char} (h : part ∈ split separator cs) :
    separator ∉ part := by
  induction cs generalizing part with
  | nil => simp_all [split]
  | cons c cs ih =>
    rw [split] at h
    split at h
    · rcases List.mem_cons.mp h with rfl | h
      · simp
      · exact ih h
    · rename_i hne
      cases hparts : split separator cs with
      | nil => exact absurd hparts (split_ne_nil separator cs)
      | cons first parts =>
        rw [hparts] at h ih
        rcases List.mem_cons.mp h with rfl | h
        · rw [List.mem_cons, not_or]
          exact ⟨Ne.symm hne, ih List.mem_cons_self⟩
        · exact ih (List.mem_cons_of_mem _ h)

theorem split_intercalate {parts : List (List Char)} (hparts : parts ≠ [])
    (h : ∀ part ∈ parts, separator ∉ part) :
    split separator (List.intercalate [separator] parts) = parts := by
  induction parts with
  | nil => exact absurd rfl hparts
  | cons part parts ih =>
    have hpart := h part List.mem_cons_self
    cases parts with
    | nil => simpa [List.intercalate] using split_of_not_mem hpart
    | cons next parts =>
      rw [List.intercalate_cons_cons, List.append_assoc, List.singleton_append,
        split_append_cons hpart,
        ih (List.cons_ne_nil _ _) fun p hp => h p (List.mem_cons_of_mem _ hp)]

theorem split_head_nil {cs : List Char} {parts : List (List Char)}
    (h : split separator cs = [] :: parts) : parts ≠ [] ↔ cs.head? = some separator := by
  cases cs with
  | nil =>
    cases h
    simp
  | cons c cs =>
    rw [split] at h
    rw [List.head?_cons, Option.some_inj]
    split at h
    · rename_i hc
      cases h
      simp [hc, split_ne_nil]
    · cases hparts : split separator cs with
      | nil => exact absurd hparts (split_ne_nil separator cs)
      | cons first parts =>
        rw [hparts] at h
        cases h

theorem split_of_head {cs : List Char} (h : cs.head? = some separator) :
    ∃ parts, split separator cs = [] :: parts := by
  cases cs with
  | nil => cases h
  | cons c cs =>
    rw [List.head?_cons, Option.some_inj] at h
    exact ⟨split separator cs, by rw [split, if_pos h]⟩

end Text

namespace Path

theorem ofSegment?_eq_name {segment : List Char} (hidle : isIdle segment = false)
    (hup : segment ≠ ['.', '.']) : ofSegment? segment = some (.name (String.ofList segment)) := by
  rw [ofSegment?, hidle, if_neg Bool.false_ne_true, if_neg hup]

theorem ofSegment?_idle {segment : List Char} (h : isIdle segment = true) :
    ofSegment? segment = none := by
  rw [ofSegment?, h, if_pos rfl]

/-- The names on a path; segments that mean nothing are left out. -/
def ordinary (s : String) : List String :=
  ((segments s).filter fun segment => !isIdle segment).map String.ofList

/-- A path that leads down only: it does not start at the root or with a dot, and never leads up. -/
structure Inward (s : String) : Prop where
  nonempty : s ≠ ""
  not_rooted : s.toList.head? ≠ some slash
  not_here : (segments s).head? ≠ some ['.']
  not_up : ['.', '.'] ∉ segments s

instance (s : String) : Decidable (Inward s) :=
  decidable_of_iff
    (s ≠ "" ∧ s.toList.head? ≠ some slash ∧ (segments s).head? ≠ some ['.'] ∧
      ['.', '.'] ∉ segments s)
    ⟨fun ⟨hne, hroot, hhere, hup⟩ => ⟨hne, hroot, hhere, hup⟩,
      fun h => ⟨h.nonempty, h.not_rooted, h.not_here, h.not_up⟩⟩

theorem segments_ne_nil (s : String) : segments s ≠ [] := Text.split_ne_nil _ _

theorem intercalate_segments (s : String) : List.intercalate [slash] (segments s) = s.toList :=
  Text.intercalate_split slash s.toList

theorem eq_empty_of_segments {s : String} (h : segments s = [[]]) : s = "" := by
  have htext := intercalate_segments s
  rw [h] at htext
  exact String.toList_inj.mp htext.symm

theorem exists_segments (s : String) : ∃ first rest, segments s = first :: rest := by
  cases h : segments s with
  | nil => exact absurd h (segments_ne_nil s)
  | cons first rest => exact ⟨first, rest, rfl⟩

theorem filterMap_ofSegment? {parts : List (List Char)} (h : ['.', '.'] ∉ parts) :
    parts.filterMap ofSegment? =
      ((parts.filter fun part => !isIdle part).map String.ofList).map .name := by
  induction parts with
  | nil => rfl
  | cons part parts ih =>
    rw [List.mem_cons, not_or] at h
    cases hidle : isIdle part with
    | true =>
      rw [List.filterMap_cons_none (ofSegment?_idle hidle), ih h.2]
      simp [hidle]
    | false =>
      rw [List.filterMap_cons_some (ofSegment?_eq_name hidle (Ne.symm h.1)), ih h.2]
      simp [hidle]

/-- Only at its front can a path hold anything but what its segments mean one by one. -/
theorem components_of_not_rooted {s : String} (hroot : s.toList.head? ≠ some slash)
    (hhere : (segments s).head? ≠ some ['.']) :
    components s = (segments s).filterMap ofSegment? := by
  obtain ⟨first, rest, hs⟩ := exists_segments s
  rw [hs, List.head?_cons, Ne, Option.some_inj] at hhere
  have hfirst : ¬(first = [] ∧ rest ≠ []) := by
    rintro ⟨rfl, hrest⟩
    exact hroot ((Text.split_head_nil hs).mp hrest)
  unfold components
  rw [hs]
  simp only [if_neg hfirst, if_neg hhere]
  cases hmeans : ofSegment? first with
  | none => rw [List.filterMap_cons_none hmeans, Option.toList_none, List.nil_append]
  | some c => rw [List.filterMap_cons_some hmeans, Option.toList_some, List.singleton_append]

theorem Inward.components_eq {s : String} (h : Inward s) :
    components s = (ordinary s).map .name := by
  rw [components_of_not_rooted h.not_rooted h.not_here, filterMap_ofSegment? h.not_up]
  rfl

example : components "a/./b//" = [.name "a", .name "b"] := by decide

theorem Inward.ordinary_ne_nil {s : String} (h : Inward s) : ordinary s ≠ [] := by
  obtain ⟨first, rest, hs⟩ := exists_segments s
  have hfirst : first ≠ [] := by
    rintro rfl
    have hrest : rest = [] := by
      cases rest with
      | nil => rfl
      | cons part rest =>
        exact absurd ((Text.split_head_nil hs).mp (List.cons_ne_nil _ _)) h.not_rooted
    rw [hrest] at hs
    exact h.nonempty (eq_empty_of_segments hs)
  have hdot := h.not_here
  rw [hs, List.head?_cons, Ne, Option.some_inj] at hdot
  rw [ordinary, hs]
  simp [isIdle, hfirst, hdot]

theorem mapM_name (names : List String) :
    (names.map Component.name).mapM Component.name? = some names := by
  induction names with
  | nil => rfl
  | cons n names ih => simp [List.mapM_cons, Component.name?, ih]

theorem eq_map_name_of_mapM {cs : List Component} {names : List String}
    (h : cs.mapM Component.name? = some names) : cs = names.map .name := by
  induction cs generalizing names with
  | nil =>
    cases h
    rfl
  | cons c cs ih =>
    rw [List.mapM_cons] at h
    cases c with
    | name n =>
      obtain ⟨rest, hrest, hnames⟩ : ∃ rest, cs.mapM Component.name? = some rest ∧
          n :: rest = names := by
        simpa [Component.name?, Option.bind_eq_some_iff] using h
      rw [← hnames, ih hrest, List.map_cons]
    | _ => cases h

theorem names?_eq_some {s : String} {names : List String} :
    names? s = some names ↔ components s = names.map .name :=
  ⟨eq_map_name_of_mapM, fun h => by rw [names?, h, mapM_name]⟩

theorem root_mem_components {s : String} (h : s.toList.head? = some slash) :
    Component.root ∈ components s := by
  obtain ⟨parts, hparts⟩ := Text.split_of_head h
  have hrest := (Text.split_head_nil hparts).mpr h
  simp [components, segments, hparts, hrest]

theorem here_mem_components {s : String} (h : (segments s).head? = some ['.']) :
    Component.here ∈ components s := by
  obtain ⟨rest, hrest⟩ := List.head?_eq_some_iff.mp h
  simp [components, hrest]

/-- A path consists of names just if it leads down. -/
theorem inward_iff {s : String} (hs : s ≠ "") :
    Inward s ↔ ∃ names, names? s = some names := by
  constructor
  · exact fun h => ⟨ordinary s, names?_eq_some.mpr h.components_eq⟩
  · intro ⟨names, hnames⟩
    have hcomponents := names?_eq_some.mp hnames
    have hroot : s.toList.head? ≠ some slash := by
      intro hslash
      have hmem := root_mem_components hslash
      simp [hcomponents] at hmem
    have hhere : (segments s).head? ≠ some ['.'] := by
      intro hdot
      have hmem := here_mem_components hdot
      simp [hcomponents] at hmem
    refine ⟨hs, hroot, hhere, fun hup => ?_⟩
    have hmem : Component.up ∈ components s := by
      rw [components_of_not_rooted hroot hhere, List.mem_filterMap]
      exact ⟨_, hup, rfl⟩
    simp [hcomponents] at hmem

/-! ### Joining -/

/-- What stands in front of a path decides alone how it starts. -/
theorem components_append {s t : String} {first : List Char} {rest behind : List (List Char)}
    {more : List Component} (hs : segments s = first :: rest) (ht : segments t = first :: behind)
    (hroot : first = [] → rest ≠ [] ∧ behind ≠ [])
    (hbehind : behind.filterMap ofSegment? = rest.filterMap ofSegment? ++ more) :
    components t = components s ++ more := by
  unfold components
  rw [hs, ht]
  simp only [hbehind]
  by_cases hfirst : first = []
  · obtain ⟨hrest, hmore⟩ := hroot hfirst
    simp [hfirst, hrest, hmore]
  · simp [hfirst]

theorem segments_of_trailing_slash {s : String} (h : s.toList.getLast? = some slash) :
    ∃ front, s.toList = front ++ [slash] ∧ segments s = Text.split slash front ++ [[]] := by
  obtain ⟨front, hfront⟩ := List.getLast?_eq_some_iff.mp h
  exact ⟨front, hfront, by rw [segments, hfront, Text.split_append_separator, Text.split]⟩

theorem segments_append_slash (above below : String) :
    segments (above ++ String.singleton slash ++ below) = segments above ++ segments below := by
  rw [segments, String.toList_append, String.toList_append, String.toList_singleton,
    List.append_assoc, List.singleton_append, Text.split_append_separator]
  rfl

theorem components_join {above below : String} (h : below.toList.head? ≠ some slash)
    (hhere : (segments below).head? ≠ some ['.']) :
    components (join above below) = components above ++ components below := by
  rw [components_of_not_rooted h hhere]
  unfold join
  rw [if_neg h]
  split
  · rename_i hend
    by_cases habove : above = ""
    · rw [habove, String.empty_append, components_of_not_rooted h hhere]
      rfl
    · obtain ⟨front, hfront, hsegments⟩ := segments_of_trailing_slash (hend.resolve_left habove)
      have hjoined : segments (above ++ below) = Text.split slash front ++ segments below := by
        rw [segments, String.toList_append, hfront, List.append_assoc, List.singleton_append,
          Text.split_append_separator, segments]
      cases hparts : Text.split slash front with
      | nil => exact absurd hparts (Text.split_ne_nil slash front)
      | cons first rest =>
        rw [hparts, List.cons_append] at hsegments hjoined
        refine components_append hsegments hjoined (fun _ => ?_) ?_
        · simp [segments_ne_nil]
        · rw [List.filterMap_append, List.filterMap_append]
          simp [ofSegment?, isIdle]
  · rename_i hend
    rw [not_or] at hend
    obtain ⟨first, rest, hsegments⟩ := exists_segments above
    have hjoined := segments_append_slash above below
    rw [hsegments, List.cons_append] at hjoined
    refine components_append hsegments hjoined (fun hfirst => ⟨?_, ?_⟩) ?_
    · rintro rfl
      rw [hfirst] at hsegments
      exact hend.1 (eq_empty_of_segments hsegments)
    · simp [segments_ne_nil]
    · rw [List.filterMap_append]

def gap (above : String) : String :=
  if above = "" ∨ above.toList.getLast? = some slash then "" else String.singleton slash

theorem join_eq {above below : String} (h : below.toList.head? ≠ some slash) :
    join above below = above ++ gap above ++ below := by
  unfold join gap
  rw [if_neg h]
  split
  · rw [String.append_empty]
  · rfl

theorem gap_append {below : String} (h : below ≠ "") (above : String) :
    gap (above ++ below) = gap below := by
  have hlist : below.toList ≠ [] := fun hnil => h (String.toList_inj.mp hnil)
  have hempty : above ++ below ≠ "" := by
    intro hnil
    rw [← String.toList_inj, String.toList_append] at hnil
    exact hlist (List.append_eq_nil_iff.mp hnil).2
  unfold gap
  simp [h, hempty, List.getLast?_append, List.getLast?_eq_some_getLast hlist]

theorem Inward.join_join {middle below : String} (h : Inward middle) (hbelow : Inward below)
    (above : String) : join (join above middle) below = join above (join middle below) := by
  obtain ⟨c, cs, hmiddle⟩ : ∃ c cs, middle.toList = c :: cs := by
    cases hlist : middle.toList with
    | nil => exact absurd (String.toList_inj.mp hlist) h.nonempty
    | cons c cs => exact ⟨c, cs, rfl⟩
  have hroot : (join middle below).toList.head? ≠ some slash := by
    have hhead := h.not_rooted
    rw [join_eq hbelow.not_rooted]
    simpa [hmiddle] using hhead
  rw [join_eq hbelow.not_rooted, join_eq h.not_rooted, join_eq hroot, join_eq hbelow.not_rooted,
    gap_append h.nonempty]
  simp only [String.append_assoc]

theorem Inward.components_join {below : String} (h : Inward below) (above : String) :
    components (join above below) = components above ++ (ordinary below).map .name := by
  rw [Path.components_join h.not_rooted h.not_here, h.components_eq]

/-! ### Plain paths -/

/-- A path that is spelled as its names with single slashes between them. -/
structure Plain (s : String) : Prop extends Inward s where
  spelled : s = "/".intercalate (ordinary s)

instance (s : String) : Decidable (Plain s) :=
  decidable_of_iff (Inward s ∧ s = "/".intercalate (ordinary s))
    ⟨fun ⟨h, hspelled⟩ => ⟨h, hspelled⟩, fun h => ⟨h.toInward, h.spelled⟩⟩

theorem Plain.segments_eq {s : String} (h : Plain s) :
    segments s = (ordinary s).map String.toList := by
  have hparts : (ordinary s).map String.toList =
      (segments s).filter fun segment => !isIdle segment := by
    rw [ordinary, List.map_map]
    exact List.map_id'' (fun _ => String.toList_ofList) _
  have htext : s.toList = List.intercalate [slash] ((ordinary s).map String.toList) :=
    (congrArg String.toList h.spelled).trans String.toList_intercalate
  rw [segments, htext, Text.split_intercalate]
  · simpa using h.ordinary_ne_nil
  · intro part hpart
    rw [hparts] at hpart
    exact Text.not_mem_of_mem_split (List.mem_filter.mp hpart).1

theorem Plain.not_idle {s : String} (h : Plain s) {segment : List Char}
    (hsegment : segment ∈ segments s) : isIdle segment = false := by
  rw [h.segments_eq] at hsegment
  obtain ⟨name, hname, rfl⟩ := List.mem_map.mp hsegment
  obtain ⟨part, hpart, rfl⟩ := List.mem_map.mp hname
  rw [String.toList_ofList]
  simpa using (List.mem_filter.mp hpart).2

theorem Plain.asksDirectory_eq {s : String} (h : Plain s) : asksDirectory s = false := by
  unfold asksDirectory
  split
  · rename_i last hlast
    exact h.not_idle (List.mem_of_getLast? hlast)
  · rfl

theorem Plain.join_eq {above below : String} (habove : Plain above) (hbelow : Plain below) :
    join above below = "/".intercalate (ordinary above ++ ordinary below) := by
  have hgap : gap above = String.singleton slash := by
    unfold gap
    rw [if_neg]
    rintro (hempty | hlast)
    · exact habove.nonempty hempty
    · obtain ⟨front, -, hsegments⟩ := segments_of_trailing_slash hlast
      have hempty : ([] : List Char) ∈ segments above := by
        rw [hsegments]
        simp
      cases habove.not_idle hempty
  rw [Path.join_eq hbelow.not_rooted, hgap, ← String.toList_inj, ← intercalate_segments,
    segments_append_slash, habove.segments_eq, hbelow.segments_eq, ← List.map_append,
    String.toList_intercalate]
  rfl

/-! ### Resolving -/

/-- A way to resolve a path by its text alone. It goes down from name to name; what the other
components do is up to it. -/
def IsLexical (step : List Component → Component → List Component) : Prop :=
  ∀ reached n, step reached (.name n) = reached ++ [.name n]

theorem IsLexical.foldl_names {step : List Component → Component → List Component}
    (h : IsLexical step) (reached : List Component) (names : List String) :
    (names.map Component.name).foldl step reached = reached ++ names.map .name := by
  induction names generalizing reached with
  | nil => rw [List.map_nil, List.foldl_nil, List.append_nil]
  | cons n names ih =>
    rw [List.map_cons, List.foldl_cons, h, ih, List.append_assoc, List.singleton_append]

/-- The customary way: dots are passed over, and a step up takes the name before it back. -/
def climb (reached : List Component) : Component → List Component
  | .here => reached
  | .up =>
    match reached.getLast? with
    | some (.name _) => reached.dropLast
    | some .root => reached
    | _ => reached ++ [.up]
  | c => reached ++ [c]

theorem isLexical_climb : IsLexical climb := fun _ _ => rfl

end Path
end SandboxWorker
