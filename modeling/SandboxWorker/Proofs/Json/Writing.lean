import SandboxWorker.Proofs.Json.Spellings
/-! The text that is written for a value stands for the same value, without blanks and with the
escapes that cannot be left out. -/
namespace SandboxWorker.Json

/-! ### Strings -/

def unitsOfString (s : String) : Units := s.toList.flatMap unitsOf

theorem string?_unitsOfString (s : String) : string? (unitsOfString s) = some s := by
  have hchars (cs : List Char) : characters? (cs.flatMap unitsOf) = some cs := by
    induction cs with
    | nil => rfl
    | cons c cs ih => rw [List.flatMap_cons, characters?_unitsOf, ih, Option.map_some]
  rw [string?, unitsOfString, hchars, Option.map_some, String.ofList_toList]

theorem unitsOf_of_toNat {c : Char} {n : Nat} (h : c.toNat = n) (hlt : n < 0x10000) :
    unitsOf c = [n] := by
  rw [unitsOf, if_pos (h ▸ hlt), h]

theorem digit?_lower : ∀ d, d < 16 → Hex.digit? (Hex.lower d) = some d := by decide

theorem spells_short {c e : Char} {n : Nat} (hc : c.toNat = n) (hshort : (e, n) ∈ shortEscapes)
    {us : Units} {cs : List Char} (more : Spells us cs) :
    Spells (unitsOf c ++ us) ('\\' :: e :: cs) := by
  have hsmall : ∀ p ∈ shortEscapes, p.2 < 0x10000 := by decide
  rw [unitsOf_of_toNat hc (hsmall _ hshort)]
  exact .short hshort more

theorem spells_escapeChar (c : Char) {us : Units} {cs : List Char} (h : Spells us cs) :
    Spells (unitsOf c ++ us) (escapeChar c ++ cs) := by
  unfold escapeChar
  split
  · subst c
    exact spells_short rfl (by decide) h
  split
  · subst c
    exact spells_short rfl (by decide) h
  split
  · exact spells_short (by assumption) (by decide) h
  split
  · exact spells_short (by assumption) (by decide) h
  split
  · exact spells_short (by assumption) (by decide) h
  split
  · exact spells_short (by assumption) (by decide) h
  split
  · exact spells_short (by assumption) (by decide) h
  split
  · have hdigit (m : Nat) := digit?_lower (m % 16) (Nat.mod_lt _ (by decide))
    have hcode := Spells.code (hdigit (c.toNat / 16 / 16 / 16)) (hdigit (c.toNat / 16 / 16))
      (hdigit (c.toNat / 16)) (hdigit c.toNat) h
    have hunits : unitsOf c = [(((c.toNat / 16 / 16 / 16) % 16 * 16 + (c.toNat / 16 / 16) % 16) * 16 +
        (c.toNat / 16) % 16) * 16 + c.toNat % 16] := by
      refine unitsOf_of_toNat ?_ ?_ <;> omega
    rw [hunits]
    exact hcode
  · exact .plain (by assumption) (by assumption) (Nat.not_lt.mp (by assumption)) h

theorem spells_escaped (cs : List Char) : Spells (cs.flatMap unitsOf) (cs.flatMap escapeChar) := by
  induction cs with
  | nil => exact .nil
  | cons c cs ih => exact spells_escapeChar c ih

/-! ### Numbers -/

theorem isWhole_digits (n : Nat) : IsWhole (Decimal.digits n) := by
  refine ⟨⟨Decimal.digits_ne_nil n, fun c => Decimal.isDigit_of_mem_digits⟩, fun hzero => ?_⟩
  cases n with
  | zero =>
    rw [Decimal.digits, if_pos (by decide)]
    rfl
  | succ n => exact absurd hzero (Decimal.head_digits n.succ_pos)

theorem isNumber_ofInt (n : Int) : IsNumber (Decimal.ofInt n) := by
  unfold Decimal.ofInt
  split
  · exact ⟨['-'], Decimal.digits n.natAbs, [], [], by simp, .inr rfl, isWhole_digits _, .inl rfl,
      .inl rfl⟩
  · exact ⟨[], Decimal.digits n.natAbs, [], [], by simp, .inl rfl, isWhole_digits _, .inl rfl,
      .inl rfl⟩

/-! ### Values -/

def Gap.none : Gap := ⟨[], by simp⟩

namespace Datum

mutual

def ofJson : Json → Datum
  | .null => .null
  | .bool b => .bool b
  | .int n => .number (Decimal.ofInt n)
  | .real spelling => .number spelling.toList
  | .str s => .string (unitsOfString s)
  | .arr items => .array (ofItems items)
  | .obj members => .object (ofMembers members)

def ofItems : List Json → List Datum
  | [] => []
  | j :: items => ofJson j :: ofItems items

def ofMembers : List (String × Json) → List (Units × Datum)
  | [] => []
  | (name, j) :: members => (unitsOfString name, ofJson j) :: ofMembers members

end

def itemOf (j : Json) : Item := ⟨.none, .none, ofJson j, j.text⟩

def entryOf (m : String × Json) : Entry :=
  { itemOf m.2 with
    name := unitsOfString m.1, nameText := m.1.toList.flatMap escapeChar, beforeColon := .none,
    afterColon := .none }

theorem ofItems_eq_map (items : List Json) : ofItems items = items.map ofJson := by
  induction items with
  | nil => rfl
  | cons j items ih => rw [ofItems, ih, List.map_cons]

theorem ofMembers_eq_map (members : List (String × Json)) :
    ofMembers members = members.map fun m => (unitsOfString m.1, ofJson m.2) := by
  induction members with
  | nil => rfl
  | cons m members ih => rw [ofMembers, ih, List.map_cons]

theorem itemsText_cons (j : Json) (items : List Json) :
    Json.itemsText (j :: items) =
      j.text ++ (itemsText false (items.map itemOf) ++ [']']) := by
  induction items generalizing j with
  | nil => rfl
  | cons k items ih =>
    rw [Json.itemsText, ih, List.map_cons, itemsText]
    · simp [itemOf, Gap.none, separatorText]
    · exact List.cons_ne_nil k items

theorem arrayText (items : List Json) :
    Json.itemsText items = itemsText true (items.map itemOf) ++ [']'] := by
  cases items with
  | nil => rfl
  | cons j items =>
    rw [itemsText_cons, List.map_cons, itemsText]
    simp [itemOf, Gap.none, separatorText]

theorem entryText_entryOf (m : String × Json) :
    entryText (entryOf m) = stringText m.1 ++ ':' :: m.2.text := by
  simp [entryText, entryOf, itemOf, Gap.none, stringText]

theorem membersText_cons (m : String × Json) (members : List (String × Json)) :
    Json.membersText (m :: members) =
      entryText (entryOf m) ++ (entriesText false (members.map entryOf) ++ ['\x7d']) := by
  induction members generalizing m with
  | nil => simp [Json.membersText, entryText_entryOf, entriesText]
  | cons n members ih =>
    rw [Json.membersText, ih, List.map_cons, entriesText, entryText_entryOf m]
    · simp [entryOf, itemOf, Gap.none, separatorText]
    · exact List.cons_ne_nil n members

theorem objectText (members : List (String × Json)) :
    Json.membersText members = entriesText true (members.map entryOf) ++ ['\x7d'] := by
  cases members with
  | nil => rfl
  | cons m members =>
    rw [membersText_cons, List.map_cons, entriesText]
    simp [entryOf, itemOf, Gap.none, separatorText]

theorem spells_entryOf (members : List (String × Json)) :
    ∀ e ∈ members.map entryOf, Spells e.name e.nameText := by
  intro e he
  obtain ⟨m, -, rfl⟩ := List.mem_map.mp he
  exact spells_escaped m.1.toList

theorem member_entryOf (members : List (String × Json)) :
    (members.map entryOf).map Entry.member = ofMembers members := by
  rw [List.map_map, ofMembers_eq_map]
  rfl

theorem text_ofJson {depth : Nat} {j : Json} (h : Readable depth j) : Text (ofJson j) j.text := by
  induction h with
  | null => exact .null
  | bool b =>
    cases b
    · exact .falseWord
    · exact .trueWord
  | int => exact .number (isNumber_ofInt _)
  | str s => exact .string (spells_escaped s.toList)
  | @arr _ items _ ih =>
    have heach : ∀ i ∈ items.map itemOf, Text i.datum i.text := by
      intro i hi
      obtain ⟨j, hj, rfl⟩ := List.mem_map.mp hi
      exact ih j hj
    have htext := Text.array heach Gap.none
    rw [List.map_map] at htext
    rw [Json.text, arrayText, ofJson, ofItems_eq_map]
    exact htext
  | @obj _ members _ ih =>
    have heach : ∀ e ∈ members.map entryOf, Text e.datum e.text := by
      intro e he
      obtain ⟨m, hm, rfl⟩ := List.mem_map.mp he
      exact ih m hm
    have htext := Text.object (spells_entryOf members) heach Gap.none
    rw [member_entryOf] at htext
    rw [Json.text, objectText, ofJson]
    exact htext

theorem text_entryOf {depth : Nat} {members : List (String × Json)}
    (h : ∀ m ∈ members, Readable depth m.2) :
    ∀ e ∈ members.map entryOf, Text e.datum e.text := by
  intro e he
  obtain ⟨m, hm, rfl⟩ := List.mem_map.mp he
  exact text_ofJson (h m hm)

end Datum

/-- What is written for a value stands for it. -/
theorem denotes_toString {depth : Nat} {j : Json} (h : Readable depth j) :
    Denotes j.toString (.ofJson j) :=
  ⟨.none, .none, j.text, Datum.text_ofJson h, by simp [Json.toString, Gap.none]⟩

theorem accepted_ofJson {depth : Nat} {j : Json} (h : Readable depth j) :
    (Datum.ofJson j).Accepted depth := by
  have hread := value_bytes h [] (fun _ hb => nomatch hb)
  rw [List.append_nil] at hread
  exact ⟨j.text, j, Datum.text_ofJson h, hread⟩

theorem ofJson_perm {members members' : List (String × Json)} (h : members.Perm members') :
    (Datum.ofJson (.obj members)).Same (.ofJson (.obj members')) := by
  have hperm := h.map fun m => (unitsOfString m.1, Datum.ofJson m.2)
  rw [← Datum.ofMembers_eq_map, ← Datum.ofMembers_eq_map] at hperm
  rw [Datum.ofJson, Datum.ofJson]
  exact .single (.order hperm)

theorem ofJson_unknown {accepts : Nat → Datum → Prop} {fields : List (String × Layout)}
    {name : String} (hunknown : name ∉ fields.map Prod.fst) {j : Json}
    (h : accepts (maxDepth - 1) (.ofJson j)) (members : List (String × Json)) :
    (Datum.ofJson (.obj members)).Widens accepts (.record fields)
      (.ofJson (.obj ((name, j) :: members))) := by
  rw [Datum.ofJson, Datum.ofJson, Datum.ofMembers]
  exact .single (.unknown [] _ (string?_unitsOfString name) hunknown h)

end SandboxWorker.Json
