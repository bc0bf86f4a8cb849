import SandboxWorker.Proofs.Json.RecordAgreement
import SandboxWorker.Proofs.Json.Tags
import SandboxWorker.Proofs.Json.Tolerance
/-! A tagged value is read as its tree is taken apart: one member is the tag, wherever it stands, and
the others are kept. -/
namespace SandboxWorker.Json
open Utf8 (encodeChars)
open Datum (Text Reads ReadsContent itemsRest entriesRest closing contentRest)

variable {κ : Type} (field : String) (all : List κ) (name : κ → String)

def isTag (m : String × Json) : Bool := m.1 == field

def tagOf? : List (String × Json) → Option κ
  | [(_, .str found)] => (Wire.named all name found).toOption
  | _ => none

def untagged : Json → Option (κ × Json)
  | .obj members =>
    (tagOf? all name (members.filter (isTag field))).map
      (·, .obj (members.filter fun m => !isTag field m))
  | .arr (.str found :: items) => (Wire.named all name found).toOption.map (·, .arr items)
  | _ => none

/-! ### Reading -/

def Datum.text? : Datum → Option String
  | .string us => string? us
  | _ => none

theorem string_tree {empty : Json} (hempty : empty.kind ≠ .string) (d : Datum) :
    (Wire.string.buffered (d.tree empty)).toOption = d.text? := by
  cases d with
  | null | bool => rfl
  | number cs =>
    rw [Datum.tree]
    cases h : numeral? cs with
    | none => rfl
    | some j => rcases numeral?_cases h with ⟨n, rfl⟩ | ⟨s, rfl⟩ <;> rfl
  | string us =>
    rw [Datum.tree]
    cases h : string? us <;> simp [Datum.text?, h, Wire.string, unread]
  | array items =>
    rw [Datum.tree]
    rfl
  | object members =>
    cases members with
    | nil =>
      rw [Datum.tree]
      exact Wire.string_refuses hempty
    | cons m members =>
      rw [Datum.tree]
      cases Datum.memberTrees empty (m :: members) <;> rfl

theorem reads_tag {d : Datum} {cs : List Char} (h : Text d cs) :
    Reads (tag all name) cs (d.text?.bind fun found => (Wire.named all name found).toOption) := by
  intro gap rest hrest
  have hread := Wire.agrees_string h gap rest hrest
  rw [string_tree (by decide)] at hread
  rw [tag, toOption_bind, hread]
  cases d.text? with
  | none => rfl
  | some found => cases hnamed : Wire.named all name found <;> simp [lift, hnamed]

def tagNext (s : Option κ × List (String × Json)) (key : String) (d : Datum) :
    Option (Option κ × List (String × Json)) :=
  (d.tree? (maxDepth - 1)).bind fun j => (taggedNext field all name s (key, j)).toOption

theorem tree?_text (depth : Nat) (d : Datum) :
    ((d.tree? depth).bind fun j => (Wire.string.buffered j).toOption) = d.text? := by
  have htree : (Wire.string.buffered (d.tree (.obj []))).toOption = d.text? :=
    string_tree (by decide) d
  rw [Datum.tree?]
  cases hfits : d.fits depth with
  | true =>
    rw [if_pos rfl, Option.bind_some, htree]
  | false =>
    rw [if_neg (by decide)]
    cases d with
    | string us =>
      rw [Datum.fits, Option.isSome_eq_false_iff, Option.isNone_iff_eq_none] at hfits
      rw [Datum.text?, hfits]
      rfl
    | _ => rfl

theorem taggedNext_tag (kept : List (String × Json)) (j : Json) :
    (taggedNext field all name (none, kept) (field, j)).toOption =
      ((Wire.string.buffered j).toOption.bind fun found =>
        (Wire.named all name found).toOption).map fun k => (some k, kept) := by
  rw [taggedNext, if_pos rfl]
  cases j with
  | str found => cases hnamed : Wire.named all name found <;> simp [lift, hnamed, Wire.string]
  | _ => rfl

theorem tagNext_first (kept : List (String × Json)) (d : Datum) :
    tagNext field all name (none, kept) field d =
      (d.text?.bind fun found => (Wire.named all name found).toOption).map (some ·, kept) := by
  rw [tagNext, ← tree?_text (maxDepth - 1)]
  cases d.tree? (maxDepth - 1) with
  | none => rfl
  | some j => exact taggedNext_tag field all name kept j

theorem tagNext_again (k : κ) (kept : List (String × Json)) (d : Datum) :
    tagNext field all name (some k, kept) field d = none := by
  rw [tagNext]
  cases d.tree? (maxDepth - 1) with
  | none => rfl
  | some j =>
    rw [Option.bind_some, taggedNext, if_pos rfl]
    rfl

theorem reads_taggedMember (s : Option κ × List (String × Json)) (key : String) {e : Entry}
    (h : Text e.datum e.text) :
    ReadsContent (taggedMember field all name s key) e (tagNext field all name s key e.datum) := by
  intro rest hrest
  have hkey := Datum.endKey_spaced e.beforeColon
    (encodeChars e.afterColon.chars ++ (encodeChars e.text ++ rest))
  by_cases hfield : key = field
  · subst hfield
    obtain ⟨known, kept⟩ := s
    rw [taggedMember, if_pos rfl]
    cases known with
    | some k =>
      rw [tagNext_again]
      rfl
    | none =>
      rw [tagNext_first, contentRest]
      simp only [Option.isSome_none, Bool.false_eq_true, if_false, hkey, toOption_bind, toOption_ok,
        Option.bind_some, reads_tag all name h e.afterColon rest hrest]
      cases e.datum.text?.bind fun found => (Wire.named all name found).toOption <;> rfl
  · rw [taggedMember, if_neg hfield, tagNext, contentRest]
    simp only [hkey, toOption_bind, toOption_ok, Option.bind_some,
      h.reads_value (maxDepth - 1) e.afterColon rest hrest]
    cases e.datum.tree? (maxDepth - 1) with
    | none => rfl
    | some j =>
      simp only [Option.bind_some, Option.map_some, taggedNext, if_neg hfield]
      rfl

/-! ### Folding -/

def tagFrom : Option κ → List (String × Json) → Option (Option κ)
  | known, [] => some known
  | none, m :: members => (tagOf? all name (m :: members)).map some
  | some _, _ :: _ => none

theorem foldlM_taggedNext_eq (trees : List (String × Json)) (s : Option κ × List (String × Json)) :
    (trees.foldlM (taggedNext field all name) s).toOption =
      (tagFrom all name s.1 (trees.filter (isTag field))).map
        (·, (trees.filter fun m => !isTag field m).reverse ++ s.2) := by
  induction trees generalizing s with
  | nil =>
    obtain ⟨known, kept⟩ := s
    cases known <;> rfl
  | cons m trees ih =>
    obtain ⟨known, kept⟩ := s
    obtain ⟨key, j⟩ := m
    rw [List.foldlM_cons, toOption_bind]
    by_cases hfield : key = field
    · subst hfield
      have htag : isTag key (key, j) = true := by simp [isTag]
      rw [List.filter_cons_of_pos htag, List.filter_cons_of_neg (by simp [htag])]
      cases known with
      | some k => rw [taggedNext, if_pos rfl]; rfl
      | none =>
        rw [taggedNext_tag, tagFrom]
        cases j with
        | str found =>
          simp only [Wire.string, toOption_ok, Option.bind_some]
          cases hnamed : (Wire.named all name found).toOption with
          | none => cases trees.filter (isTag key) <;> simp [tagOf?, hnamed]
          | some k =>
            rw [Option.map_some, Option.bind_some, ih]
            cases trees.filter (isTag key) <;> simp [tagOf?, tagFrom, hnamed]
        | _ => cases trees.filter (isTag key) <;> rfl
    · have htag : ¬ isTag field (key, j) = true := by simp [isTag, hfield]
      rw [List.filter_cons_of_neg htag, List.filter_cons_of_pos (by simpa using htag), taggedNext,
        if_neg hfield, toOption_ok, Option.bind_some, ih, List.reverse_cons, List.append_assoc]
      rfl

theorem toOption_foldlM {ε σ α : Type} (next : σ → α → Except ε σ) (as : List α) (s : σ) :
    (as.foldlM next s).toOption = as.foldlM (fun s a => (next s a).toOption) s := by
  induction as generalizing s with
  | nil => rfl
  | cons a as ih =>
    rw [List.foldlM_cons, List.foldlM_cons, toOption_bind]
    cases (next s a).toOption with
    | none => rfl
    | some t => exact ih t

theorem foldlM_tagNext (members : List (Units × Datum)) (s : Option κ × List (String × Json)) :
    members.foldlM (fun s m => (string? m.1).bind fun key => tagNext field all name s key m.2) s =
      (members.mapM fun m => (string? m.1).bind fun key =>
        (m.2.tree? (maxDepth - 1)).map (key, ·)).bind fun trees =>
          (tagFrom all name s.1 (trees.filter (isTag field))).map
            (·, (trees.filter fun m => !isTag field m).reverse ++ s.2) := by
  have hnext : (fun (s : Option κ × List (String × Json)) (m : Units × Datum) =>
      (string? m.1).bind fun key => tagNext field all name s key m.2) = fun s m =>
        ((string? m.1).bind fun key => (m.2.tree? (maxDepth - 1)).map (key, ·)).bind fun t =>
          (taggedNext field all name s t).toOption := by
    funext s m
    cases string? m.1 with
    | none => rfl
    | some key =>
      rw [Option.bind_some, Option.bind_some, tagNext]
      cases m.2.tree? (maxDepth - 1) <;> rfl
  rw [hnext, Datum.foldlM_bind]
  simp only [← toOption_foldlM, foldlM_taggedNext_eq]

theorem untagged_arr (j : Json) (items : List Json) :
    untagged field all name (.arr (j :: items)) = ((Wire.string.buffered j).toOption.bind fun found =>
      (Wire.named all name found).toOption).map (·, .arr items) := by
  cases j <;> rfl

theorem untagged_refuses {j : Json} (hobject : j.kind ≠ .object) (harray : j.kind ≠ .array) :
    untagged field all name j = none := by
  cases j with
  | obj members => exact absurd rfl hobject
  | arr items => exact absurd rfl harray
  | _ => rfl

theorem tree?_kind_ne {depth : Nat} {d : Datum} {j : Json} {k : Kind} (h : d.tree? depth = some j)
    (hkind : d.kind ≠ k) (hnumber : Kind.number ≠ k) : j.kind ≠ k := by
  rw [Datum.tree?, Option.ite_none_right_eq_some] at h
  obtain ⟨-, ⟨⟩⟩ := h
  exact tree_kind_ne (.inl rfl) hkind hnumber

theorem tagFrom_none (members : List (String × Json)) :
    (tagFrom all name none members).bind id = tagOf? all name members := by
  cases members with
  | nil => rfl
  | cons m members =>
    rw [tagFrom]
    cases tagOf? all name (m :: members) <;> rfl

theorem tagged_object {entries : List Entry} (names : ∀ e ∈ entries, Spells e.name e.nameText)
    (each : ∀ e ∈ entries, Text e.datum e.text) {bs : Bytes} (gap : Gap) (rest : Bytes)
    (hstart : skipBlanks bs = openBrace :: entriesRest true entries gap rest) :
    (tagged field all name bs).toOption =
      (((Datum.object (entries.map Entry.member)).tree? maxDepth).bind
        (untagged field all name)).map (·, rest) := by
  have hlength := Datum.length_entries entries true gap rest
  have hfold := Datum.foldMembers_spaced Datum.namesBy_string (tagNext field all name) names
    (fun s key e he => reads_taggedMember field all name s key (each e he))
    (show entries.length < (entriesRest true entries gap rest).length + 1 by omega) true (none, [])
    gap rest
  have hend : endObject (closing gap closeBrace rest) = .ok rest := Datum.endObject_closing
  have hdepth : maxDepth = maxDepth - 1 + 1 := rfl
  rw [foldlM_tagNext] at hfold
  rw [hdepth, Datum.tree?_object]
  simp only [tagged, hstart, if_true, toOption_bind, hfold]
  cases (entries.map Entry.member).mapM fun m => (string? m.1).bind fun key =>
      (m.2.tree? (maxDepth - 1)).map (key, ·) with
  | none => rfl
  | some trees =>
    simp only [Option.map_some, Option.bind_some, untagged, ← tagFrom_none]
    cases tagFrom all name none (trees.filter (isTag field)) with
    | none => rfl
    | some known =>
      cases known with
      | none => rfl
      | some k =>
        simp only [Option.map_some, Option.bind_some, id, hend, List.append_nil,
          List.reverse_reverse]
        rfl

theorem tagged_array {items : List Item} (each : ∀ i ∈ items, Text i.datum i.text) {bs : Bytes}
    (gap : Gap) (rest : Bytes)
    (hstart : skipBlanks bs = openBracket :: itemsRest true items gap rest) :
    (tagged field all name bs).toOption =
      (((Datum.array (items.map (·.datum))).tree? maxDepth).bind
        (untagged field all name)).map (·, rest) := by
  have hdepth : maxDepth = maxDepth - 1 + 1 := rfl
  rw [hdepth, Datum.tree?_array]
  simp only [tagged, hstart, if_neg (by decide : openBracket ≠ openBrace), if_true]
  cases items with
  | nil =>
    have hnone : nextElement true (itemsRest true [] gap rest) = .ok none :=
      Datum.nextElement_closing true
    rw [hnone]
    rfl
  | cons i items =>
    have htext := each i List.mem_cons_self
    have hmore : ∀ k ∈ items, Text k.datum k.text := fun k hk => each k (List.mem_cons_of_mem _ hk)
    have hnext := htext.starts.append (itemsRest false items gap rest)
    have htag := (reads_tag all name htext).alone (Datum.stops_itemsRest items gap rest)
    have hitems := Datum.elements_spaced hmore
      (fun k hk => (hmore k hk).reads_value (maxDepth - 1)) false gap rest
    have htree : (i.datum.text?.bind fun found => (Wire.named all name found).toOption) =
        (i.datum.tree? (maxDepth - 1)).bind fun j => (Wire.string.buffered j).toOption.bind
          fun found => (Wire.named all name found).toOption := by
      rw [← tree?_text (maxDepth - 1), Option.bind_assoc]
    rw [Datum.itemsRest_cons, Datum.nextElement_spaced true i.before i.after hnext]
    simp only [toOption_bind, toOption_ok, Option.bind_some, htag, htree, List.map_cons,
      List.mapM_cons]
    cases i.datum.tree? (maxDepth - 1) with
    | none => rfl
    | some j =>
      simp only [Option.bind_some]
      cases hnamed : (Wire.string.buffered j).toOption.bind fun found =>
          (Wire.named all name found).toOption with
      | none =>
        have hrow : ∀ js, untagged field all name (.arr (j :: js)) = none := fun js => by
          rw [untagged_arr, hnamed, Option.map_none]
        cases (items.map (·.datum)).mapM (Datum.tree? (maxDepth - 1)) with
        | none => rfl
        | some js => exact congrArg (Option.map (·, rest)) (hrow js).symm
      | some k =>
        have hrow : ∀ js, untagged field all name (.arr (j :: js)) = some (k, .arr js) :=
          fun js => by rw [untagged_arr, hnamed, Option.map_some]
        simp only [Option.map_some, Option.bind_some, hitems]
        cases (items.map (·.datum)).mapM (Datum.tree? (maxDepth - 1)) with
        | none => rfl
        | some js => exact congrArg (Option.map (·, rest)) (hrow js).symm

/-- A tagged value is read from text as it is taken from the tree. -/
theorem reads_tagged {d : Datum} {cs : List Char} (h : Text d cs) :
    Reads (tagged field all name) cs ((d.tree? maxDepth).bind (untagged field all name)) := by
  intro gap rest hrest
  have hstart := h.skipBlanks gap rest
  have hother (hobject : d.kind ≠ .object) (harray : d.kind ≠ .array) :
      (tagged field all name (encodeChars gap.chars ++ (encodeChars cs ++ rest))).toOption =
        ((d.tree? maxDepth).bind (untagged field all name)).map (·, rest) := by
    obtain ⟨b, bs, hbytes, hb⟩ := h.lead
    have hbrace := ne_of_kind hb (by decide : kindOf openBrace = some .object) hobject
    have hbracket := ne_of_kind hb (by decide : kindOf openBracket = some .array) harray
    have hnone : (d.tree? maxDepth).bind (untagged field all name) = none := by
      cases htree : d.tree? maxDepth with
      | none => rfl
      | some j =>
        exact untagged_refuses field all name (tree?_kind_ne htree hobject (by decide))
          (tree?_kind_ne htree harray (by decide))
    rw [hbytes, List.cons_append] at hstart
    rw [hnone]
    simp only [tagged, hbytes, List.cons_append, hstart, if_neg hbrace, if_neg hbracket,
      toOption_wrongType]
    rfl
  cases h with
  | object names each gap' =>
    rw [Datum.objectBytes] at hstart ⊢
    exact tagged_object field all name names each gap' rest hstart
  | array each gap' =>
    rw [Datum.arrayBytes] at hstart ⊢
    exact tagged_array field all name each gap' rest hstart
  | _ => exact hother (by rintro ⟨⟩) (by rintro ⟨⟩)

/-! ### Widening -/

theorem tagOf?_eq_some {members : List (String × Json)} {k : κ} :
    tagOf? all name members = some k ↔
      ∃ key found, members = [(key, .str found)] ∧ (Wire.named all name found).toOption = some k := by
  constructor
  · intro h
    unfold tagOf? at h
    split at h
    · exact ⟨_, _, rfl, h⟩
    · cases h
  · rintro ⟨key, found, rfl, h⟩
    exact h

theorem widens_str {found : String} {layout : Layout} {j : Json}
    (h : Widens layout (.str found) j) : j = .str found := by
  cases h
  rfl

variable {field all name} {fields : List (String × Layout)} {k : κ}

theorem field_tagged {found : String} (h : found ≠ field) :
    (Layout.record ((field, .value) :: fields)).field found = (Layout.record fields).field found := by
  simp only [Layout.field, Layout.fields, List.lookup_cons, beq_eq_false_iff_ne.mpr h]

theorem untagged_obj {members : List (String × Json)} {body : Json} :
    untagged field all name (.obj members) = some (k, body) ↔
      tagOf? all name (members.filter (isTag field)) = some k ∧
        body = .obj (members.filter fun m => !isTag field m) := by
  rw [untagged, Option.map_eq_some_iff]
  constructor
  · rintro ⟨_, htag, ⟨⟩⟩
    exact ⟨htag, rfl⟩
  · rintro ⟨htag, rfl⟩
    exact ⟨k, htag, rfl⟩

section Others
variable {front back : List (String × Json)} {found : String} (h : found ≠ field) (content : Json)
include h

theorem filter_isTag_other :
    (front ++ (found, content) :: back).filter (isTag field) =
      (front ++ back).filter (isTag field) := by
  have hother : ¬ isTag field (found, content) = true := by simp [isTag, h]
  rw [List.filter_append, List.filter_cons_of_neg hother, List.filter_append]

theorem filter_kept_other :
    ((front ++ (found, content) :: back).filter fun m => !isTag field m) =
      (front.filter fun m => !isTag field m) ++
        (found, content) :: back.filter fun m => !isTag field m := by
  have hkept : (!isTag field (found, content)) = true := by simp [isTag, h]
  rw [List.filter_append, List.filter_cons, if_pos hkept]

end Others

theorem untagged_widens {j j' body : Json} (h : Widens (.record ((field, .value) :: fields)) j j')
    (htagged : untagged field all name j = some (k, body)) :
    ∃ body', untagged field all name j' = some (k, body') ∧ Widens (.record fields) body body' := by
  cases h with
  | refl => exact ⟨body, htagged, .refl body⟩
  | unread => cases htagged
  | order hperm =>
    obtain ⟨htag, rfl⟩ := untagged_obj.mp htagged
    obtain ⟨key, found, hfound, hnamed⟩ := (tagOf?_eq_some all name).mp htag
    refine ⟨_, untagged_obj.mpr ⟨?_, rfl⟩, .order (hperm.filter _)⟩
    have htags := hperm.filter (isTag field)
    rw [hfound, List.singleton_perm] at htags
    rwa [← htags, ← hfound]
  | @member _ front back found content content' hcontent =>
    have hobj := untagged_obj.mp htagged
    by_cases hfield : found = field
    · obtain ⟨key, text, htext, -⟩ := (tagOf?_eq_some all name).mp hobj.1
      have hmem : (found, content) ∈ [(key, Json.str text)] := by
        rw [← htext, List.mem_filter]
        exact ⟨by simp, beq_iff_eq.mpr hfield⟩
      cases List.mem_singleton.mp hmem
      rw [widens_str hcontent]
      exact ⟨body, htagged, .refl body⟩
    · rw [field_tagged hfield] at hcontent
      rw [filter_isTag_other hfield, filter_kept_other hfield] at hobj
      obtain ⟨htag, rfl⟩ := hobj
      refine ⟨_, untagged_obj.mpr ⟨?_, rfl⟩, ?_⟩
      · rwa [filter_isTag_other hfield]
      · rw [filter_kept_other hfield]
        exact .member hcontent
  | @unknown _ front back found content hunknown =>
    obtain ⟨htag, rfl⟩ := untagged_obj.mp htagged
    rw [List.map_cons, List.mem_cons, not_or] at hunknown
    refine ⟨_, untagged_obj.mpr ⟨?_, rfl⟩, ?_⟩
    · rwa [filter_isTag_other hunknown.1]
    · rw [filter_kept_other hunknown.1, List.filter_append]
      exact .unknown _ _ hunknown.2
  | @element _ front back item item' hitem =>
    cases front with
    | nil =>
      rw [List.nil_append, untagged_arr] at htagged
      cases item with
      | str found =>
        rw [widens_str hitem]
        exact ⟨body, htagged, .refl body⟩
      | _ => cases htagged
    | cons first front =>
      rw [List.cons_append, untagged_arr, Option.map_eq_some_iff] at htagged
      obtain ⟨_, hnamed, ⟨⟩⟩ := htagged
      refine ⟨.arr (front ++ item' :: back), ?_, .element hitem⟩
      rw [List.cons_append, untagged_arr, hnamed]
      rfl

end SandboxWorker.Json
