import SandboxWorker.Proofs.Json.Spacing
/-! What a datum is read as: a tree if it has one within the depth, and anything at all when it is
passed over. -/
namespace SandboxWorker.Json
open Utf8 (encodeChars)

/-- A value that no form takes: it stands where a datum has no tree. -/
def unread : Json := .real ""

namespace Datum

mutual

/-- The tree of a datum, with `empty` for an object without members. -/
def tree (empty : Json) : Datum → Json
  | .null => .null
  | .bool b => .bool b
  | .number cs => (numeral? cs).getD unread
  | .string us => ((string? us).map .str).getD unread
  | .array items => .arr (trees empty items)
  | .object [] => empty
  | .object (m :: members) => ((memberTrees empty (m :: members)).map .obj).getD unread

def trees (empty : Json) : List Datum → List Json
  | [] => []
  | d :: items => tree empty d :: trees empty items

def memberTrees (empty : Json) : List (Units × Datum) → Option (List (String × Json))
  | [] => some []
  | (us, d) :: members =>
    (string? us).bind fun name =>
      (memberTrees empty members).map fun rest => (name, tree empty d) :: rest

end

mutual

def fits : Nat → Datum → Bool
  | _, .null => true
  | _, .bool _ => true
  | _, .number cs => (numeral? cs).isSome
  | _, .string us => (string? us).isSome
  | 0, .array _ => false
  | 0, .object _ => false
  | depth + 1, .array items => allFit depth items
  | depth + 1, .object members => membersFit depth members

def allFit (depth : Nat) : List Datum → Bool
  | [] => true
  | d :: items => fits depth d && allFit depth items

def membersFit (depth : Nat) : List (Units × Datum) → Bool
  | [] => true
  | (us, d) :: members => (string? us).isSome && fits depth d && membersFit depth members

end

def tree? (depth : Nat) (d : Datum) : Option Json :=
  if d.fits depth then some (d.tree (.obj [])) else none

theorem trees_eq_map (empty : Json) (items : List Datum) :
    trees empty items = items.map (tree empty) := by
  induction items with
  | nil => rw [trees, List.map_nil]
  | cons d items ih => rw [trees, List.map_cons, ih]

theorem mapM_tree? (depth : Nat) (items : List Datum) :
    items.mapM (tree? depth) =
      if allFit depth items then some (trees (.obj []) items) else none := by
  induction items with
  | nil => rfl
  | cons d items ih =>
    rw [List.mapM_cons, ih, tree?, allFit, trees]
    cases d.fits depth <;> cases allFit depth items <;> rfl

theorem mapM_member_tree? (depth : Nat) (members : List (Units × Datum)) :
    (members.mapM fun m => (string? m.1).bind fun name => (m.2.tree? depth).map (name, ·)) =
      if membersFit depth members then memberTrees (.obj []) members else none := by
  induction members with
  | nil => rfl
  | cons m members ih =>
    obtain ⟨us, d⟩ := m
    rw [List.mapM_cons, ih, tree?, membersFit, memberTrees]
    cases string? us <;> cases d.fits depth <;> cases membersFit depth members <;>
      cases memberTrees (.obj []) members <;> rfl

theorem tree?_array (depth : Nat) (items : List Datum) :
    tree? (depth + 1) (.array items) = (items.mapM (tree? depth)).map .arr := by
  rw [mapM_tree?, tree?, fits, tree]
  cases allFit depth items <;> rfl

theorem isSome_memberTrees {depth : Nat} {members : List (Units × Datum)}
    (h : membersFit depth members = true) (empty : Json) :
    (memberTrees empty members).isSome = true := by
  induction members with
  | nil => rfl
  | cons m members ih =>
    obtain ⟨us, d⟩ := m
    simp only [membersFit, Bool.and_eq_true] at h
    obtain ⟨name, hname⟩ := Option.isSome_iff_exists.mp h.1.1
    obtain ⟨rest, hrest⟩ := Option.isSome_iff_exists.mp (ih h.2)
    rw [memberTrees, hname, hrest]
    rfl

theorem tree?_object (depth : Nat) (members : List (Units × Datum)) :
    tree? (depth + 1) (.object members) =
      (members.mapM fun m => (string? m.1).bind fun name => (m.2.tree? depth).map (name, ·)).map
        .obj := by
  rw [mapM_member_tree?, tree?, fits]
  cases hfit : membersFit depth members with
  | false => rfl
  | true =>
    obtain ⟨trees, htrees⟩ := Option.isSome_iff_exists.mp (isSome_memberTrees hfit (.obj []))
    cases members with
    | nil => rfl
    | cons m members =>
      rw [if_pos rfl, if_pos rfl, tree, htrees]
      rfl

/-! ### Reading -/

theorem arrayBytes (items : List Item) (gap : Gap) (rest : Bytes) :
    encodeChars ('[' :: (itemsText true items ++ (gap.chars ++ [']']))) ++ rest =
      openBracket :: itemsRest true items gap rest := by
  have hclose : encodeChars [']'] = [closeBracket] := rfl
  have hopen (cs : List Char) : encodeChars ('[' :: cs) = openBracket :: encodeChars cs := rfl
  simp only [hopen, Utf8.encodeChars_append, hclose, itemsRest, closing, List.cons_append,
    List.append_assoc, List.nil_append]

theorem objectBytes (entries : List Entry) (gap : Gap) (rest : Bytes) :
    encodeChars ('\x7b' :: (entriesText true entries ++ (gap.chars ++ ['\x7d']))) ++ rest =
      openBrace :: entriesRest true entries gap rest := by
  have hclose : encodeChars ['\x7d'] = [closeBrace] := rfl
  have hopen (cs : List Char) : encodeChars ('\x7b' :: cs) = openBrace :: encodeChars cs := rfl
  simp only [hopen, Utf8.encodeChars_append, hclose, entriesRest, closing, List.cons_append,
    List.append_assoc, List.nil_append]

theorem stringBytes (cs : List Char) (rest : Bytes) :
    encodeChars ('"' :: (cs ++ ['"'])) ++ rest = quote :: (encodeChars cs ++ quote :: rest) := by
  have hopen (cs : List Char) : encodeChars ('"' :: cs) = quote :: encodeChars cs := rfl
  simp only [hopen, Utf8.encodeChars_append, Utf8.encodeChars_nil, List.cons_append,
    List.append_assoc, List.nil_append]

theorem Text.value_gap {d : Datum} {cs : List Char} (h : Text d cs) (depth : Nat) (gap : Gap)
    (rest : Bytes) : value depth (encodeChars gap.chars ++ (encodeChars cs ++ rest)) =
      value depth (encodeChars cs ++ rest) := by
  have hstart := skipBlanks_starts (h.starts.append rest)
  rw [value.eq_def, h.skipBlanks gap rest, value.eq_def depth (encodeChars cs ++ rest), hstart]

theorem namesBy_string : NamesBy Json.string string? := fun _ _ rest h => string_spells h rest

theorem bind_return {α β : Type} (a : Option α) (f : α → β) (rest : Bytes) :
    ((a.map (·, rest)).bind fun p => (pure (f p.1, p.2) : Outcome (β × Bytes)).toOption) =
      (a.map f).map (·, rest) := by
  cases a <;> rfl

theorem Text.value_alone {d : Datum} {cs : List Char} (h : Text d cs) (depth : Nat) {rest : Bytes}
    (hrest : Stops rest) :
    (value depth (encodeChars cs ++ rest)).toOption = (d.tree? depth).map (·, rest) := by
  induction h generalizing depth rest with
  | null => exact congrArg Except.toOption (value_word (.inl ⟨rfl, rfl, rfl⟩) rest)
  | trueWord => exact congrArg Except.toOption (value_word (.inr (.inl ⟨rfl, rfl, rfl⟩)) rest)
  | falseWord => exact congrArg Except.toOption (value_word (.inr (.inr ⟨rfl, rfl, rfl⟩)) rest)
  | @number cs h =>
    have hread := numberValue_number h hrest
    obtain ⟨b, bs, hbytes, hb⟩ := startsNumber_number h
    rw [hbytes, List.cons_append] at hread
    rw [hbytes, List.cons_append, value_number hb, hread, tree?, fits, tree]
    cases numeral? cs <;> rfl
  | @string us cs h =>
    rw [stringBytes, value_quote, toOption_bind, string_spells h, tree?, fits, tree]
    cases string? us <;> rfl
  | @array items each gap ih =>
    rw [arrayBytes]
    cases depth with
    | zero => rfl
    | succ depth =>
      have hitem : ∀ i ∈ items, Reads (value depth) i.text (i.datum.tree? depth) := by
        intro i hi gap rest hrest
        rw [(each i hi).value_gap]
        exact ih i hi depth hrest
      rw [value_array, toOption_bind, array_spaced each hitem, tree?_array]
      exact bind_return _ _ rest
  | @object entries names each gap ih =>
    rw [objectBytes]
    cases depth with
    | zero => rfl
    | succ depth =>
      have hitem : ∀ e ∈ entries, Reads (value depth) e.text (e.datum.tree? depth) := by
        intro e he gap rest hrest
        rw [(each e he).value_gap]
        exact ih e he depth hrest
      rw [value_object, toOption_bind, object_spaced namesBy_string names hitem, tree?_object]
      exact bind_return _ _ rest

/-- A text is read as the tree of its datum, if this nests no deeper than is allowed. -/
theorem Text.reads_value {d : Datum} {cs : List Char} (h : Text d cs) (depth : Nat) :
    Reads (value depth) cs (d.tree? depth) := by
  intro gap rest hrest
  rw [h.value_gap]
  exact h.value_alone depth hrest

/-! ### Passing over -/

theorem length_le_itemsText {items : List Item} {i : Item} (hi : i ∈ items) (first : Bool) :
    (encodeChars i.text).length ≤ (encodeChars (itemsText first items)).length := by
  induction items generalizing first with
  | nil => cases hi
  | cons k items ih =>
    simp only [itemsText, Utf8.encodeChars_append, List.length_append]
    rcases List.mem_cons.mp hi with rfl | hi
    · omega
    · have hrest := ih hi false
      omega

theorem length_le_entriesText {entries : List Entry} {e : Entry} (he : e ∈ entries)
    (first : Bool) :
    (encodeChars e.text).length ≤ (encodeChars (entriesText first entries)).length := by
  induction entries generalizing first with
  | nil => cases he
  | cons k entries ih =>
    simp only [entriesText, entryText, Utf8.encodeChars_append, Utf8.encodeChars_cons,
      List.length_append]
    rcases List.mem_cons.mp he with rfl | he
    · omega
    · have hrest := ih he false
      omega

theorem mapM_total {α β : Type} {f : α → Option β} (h : ∀ a, (f a).isSome = true)
    (as : List α) : ∃ bs, as.mapM f = some bs := by
  induction as with
  | nil => exact ⟨[], rfl⟩
  | cons a as ih =>
    obtain ⟨bs, hbs⟩ := ih
    obtain ⟨b, hb⟩ := Option.isSome_iff_exists.mp (h a)
    exact ⟨b :: bs, by rw [List.mapM_cons, hb, hbs]; rfl⟩

theorem namesBy_skipString :
    NamesBy (fun bs => do return ((), ← skipString bs)) (fun _ => some ()) := by
  intro us cs rest h
  simp only [skipString_spells h]
  rfl

theorem skipWithin_array (depth : Nat) (bs : Bytes) :
    skipWithin (depth + 1) (openBracket :: bs) = do
      let (_, rest) ← Json.array (skipWithin depth) bs
      return ((), rest) := by
  rw [skipWithin.eq_def, skipBlanks_cons (by decide)]
  rfl

theorem skipWithin_object (depth : Nat) (bs : Bytes) :
    skipWithin (depth + 1) (openBrace :: bs) = do
      let (_, rest) ← Json.object (fun bs => do return ((), ← skipString bs)) (skipWithin depth) bs
      return ((), rest) := by
  rw [skipWithin.eq_def, skipBlanks_cons (by decide)]
  rfl

theorem Text.skipWithin_gap {d : Datum} {cs : List Char} (h : Text d cs) (depth : Nat) (gap : Gap)
    (rest : Bytes) : skipWithin depth (encodeChars gap.chars ++ (encodeChars cs ++ rest)) =
      skipWithin depth (encodeChars cs ++ rest) := by
  have hstart := skipBlanks_starts (h.starts.append rest)
  rw [skipWithin.eq_def, h.skipBlanks gap rest,
    skipWithin.eq_def depth (encodeChars cs ++ rest), hstart]

theorem skipWithin_word {depth : Nat} {first : UInt8} {tail : Bytes}
    (h : (first = letterN ∧ tail = nullTail) ∨ (first = letterT ∧ tail = trueTail) ∨
      (first = letterF ∧ tail = falseTail)) (rest : Bytes) :
    skipWithin depth (first :: (tail ++ rest)) = .ok ((), rest) := by
  rcases h with ⟨rfl, rfl⟩ | ⟨rfl, rfl⟩ | ⟨rfl, rfl⟩
  · rw [skipWithin.eq_def, skipBlanks_cons (by decide)]
    simp only [if_true, word_append]
    rfl
  · rw [skipWithin.eq_def, skipBlanks_cons (by decide)]
    simp only [if_neg (by decide : letterT ≠ letterN), if_true, word_append]
    rfl
  · rw [skipWithin.eq_def, skipBlanks_cons (by decide)]
    simp only [if_neg (by decide : letterF ≠ letterN), if_neg (by decide : letterF ≠ letterT),
      if_true, word_append]
    rfl

theorem skipWithin_number {depth : Nat} {b : UInt8} (h : startsNumber b = true) (bs : Bytes) :
    skipWithin depth (b :: bs) = do return ((), ← skipNumber (b :: bs)) := by
  rw [skipWithin.eq_def, skipBlanks_cons (isBlank_of_startsNumber h)]
  simp only [if_neg (ne_of_startsNumber h (by decide : startsNumber letterN = false)),
    if_neg (ne_of_startsNumber h (by decide : startsNumber letterT = false)),
    if_neg (ne_of_startsNumber h (by decide : startsNumber letterF = false)), if_pos h]

theorem skipWithin_quote (depth : Nat) (bs : Bytes) :
    skipWithin depth (quote :: bs) = do return ((), ← skipString bs) := by
  rw [skipWithin.eq_def, skipBlanks_cons (by decide)]
  simp only [if_neg (by decide : quote ≠ letterN), if_neg (by decide : quote ≠ letterT),
    if_neg (by decide : quote ≠ letterF), if_neg (by decide : ¬ startsNumber quote = true), if_true]

/-- Any text is passed over within as many levels as it has bytes. -/
theorem Text.skipWithin_alone {d : Datum} {cs : List Char} (h : Text d cs) {depth : Nat}
    (hdepth : (encodeChars cs).length ≤ depth) {rest : Bytes} (hrest : Stops rest) :
    (skipWithin depth (encodeChars cs ++ rest)).toOption = some ((), rest) := by
  induction h generalizing depth rest with
  | null => exact congrArg Except.toOption (skipWithin_word (.inl ⟨rfl, rfl⟩) rest)
  | trueWord => exact congrArg Except.toOption (skipWithin_word (.inr (.inl ⟨rfl, rfl⟩)) rest)
  | falseWord => exact congrArg Except.toOption (skipWithin_word (.inr (.inr ⟨rfl, rfl⟩)) rest)
  | number h =>
    have hskip := skipNumber_number h hrest
    obtain ⟨b, bs, hbytes, hb⟩ := startsNumber_number h
    rw [hbytes, List.cons_append] at hskip
    rw [hbytes, List.cons_append, skipWithin_number hb, hskip]
    rfl
  | string h =>
    rw [stringBytes, skipWithin_quote, skipString_spells h]
    rfl
  | @array items each gap ih =>
    have hlength := congrArg List.length (arrayBytes items gap [])
    simp only [itemsRest, closing, List.length_append, List.length_cons, List.length_nil]
      at hlength
    obtain ⟨depth, rfl⟩ : ∃ n, depth = n + 1 := ⟨depth - 1, by omega⟩
    have hitem : ∀ i ∈ items, Reads (skipWithin depth) i.text (some ()) := by
      intro i hi gap rest hrest
      have hle := length_le_itemsText hi true
      rw [(each i hi).skipWithin_gap]
      exact ih i hi (by omega) hrest
    have hread := array_spaced (m := fun _ => some ()) each hitem gap rest
    obtain ⟨units, hunits⟩ := mapM_total (f := fun _ : Datum => some ()) (fun _ => rfl)
      (items.map (·.datum))
    rw [hunits] at hread
    rw [arrayBytes, skipWithin_array, toOption_bind, hread]
    rfl
  | @object entries names each gap ih =>
    have hlength := congrArg List.length (objectBytes entries gap [])
    simp only [entriesRest, closing, List.length_append, List.length_cons, List.length_nil]
      at hlength
    obtain ⟨depth, rfl⟩ : ∃ n, depth = n + 1 := ⟨depth - 1, by omega⟩
    have hitem : ∀ e ∈ entries, Reads (skipWithin depth) e.text (some ()) := by
      intro e he gap rest hrest
      have hle := length_le_entriesText he true
      rw [(each e he).skipWithin_gap]
      exact ih e he (by omega) hrest
    have hread := object_spaced (m := fun _ => some ()) namesBy_skipString names hitem gap
      rest
    obtain ⟨units, hunits⟩ := mapM_total (f := fun _ : Units × Datum => (some ()).bind fun k =>
      (some ()).map (k, ·)) (fun _ => rfl) (entries.map Entry.member)
    rw [hunits] at hread
    rw [objectBytes, skipWithin_object, toOption_bind, hread]
    rfl

theorem Text.reads_skip {d : Datum} {cs : List Char} (h : Text d cs) : Reads skip cs (some ()) := by
  intro gap rest hrest
  rw [skip, h.skipWithin_gap]
  exact h.skipWithin_alone (by simp only [List.length_append]; omega) hrest

end Datum
end SandboxWorker.Json
