import SandboxWorker.Json.Fields
import SandboxWorker.Proofs.Json.Trees
/-! Reading straight from text succeeds where reading the tree does, and gives the same. The tree is
the whole one, however deep, with parts that no form takes where the text has no tree; an object
without members is such a part too, since a choice takes it in a tree only. -/
namespace SandboxWorker.Json
open Utf8 (encodeChars)
open Datum (Text Reads ReadsContent itemsRest entriesRest closing contentRest)

/-! ### What the first byte tells -/

inductive Kind where
  | null | bool | number | string | array | object
deriving DecidableEq

def kindOf (b : UInt8) : Option Kind :=
  if b = letterN then some .null
  else if b = letterT ∨ b = letterF then some .bool
  else if startsNumber b then some .number
  else if b = quote then some .string
  else if b = openBracket then some .array
  else if b = openBrace then some .object
  else none

def Datum.kind : Datum → Kind
  | .null => .null
  | .bool _ => .bool
  | .number _ => .number
  | .string _ => .string
  | .array _ => .array
  | .object _ => .object

def kind : Json → Kind
  | .null => .null
  | .bool _ => .bool
  | .int _ | .real _ => .number
  | .str _ => .string
  | .arr _ => .array
  | .obj _ => .object

theorem kindOf_startsNumber {b : UInt8} (h : startsNumber b = true) : kindOf b = some .number := by
  have hT := ne_of_startsNumber h (by decide : startsNumber letterT = false)
  have hF := ne_of_startsNumber h (by decide : startsNumber letterF = false)
  rw [kindOf, if_neg (ne_of_startsNumber h (by decide : startsNumber letterN = false)),
    if_neg (not_or.mpr ⟨hT, hF⟩), if_pos h]

theorem Datum.Text.lead {d : Datum} {cs : List Char} (h : Text d cs) :
    ∃ b bs, encodeChars cs = b :: bs ∧ kindOf b = some d.kind := by
  cases h with
  | null => exact ⟨letterN, nullTail, rfl, by decide⟩
  | trueWord => exact ⟨letterT, trueTail, rfl, by decide⟩
  | falseWord => exact ⟨letterF, falseTail, rfl, by decide⟩
  | number h =>
    obtain ⟨b, bs, hbytes, hb⟩ := startsNumber_number h
    exact ⟨b, bs, hbytes, kindOf_startsNumber hb⟩
  | string h => exact ⟨quote, _, rfl, by rw [Datum.kind]; decide⟩
  | array each gap => exact ⟨openBracket, _, rfl, by rw [Datum.kind]; decide⟩
  | object names each gap => exact ⟨openBrace, _, rfl, by rw [Datum.kind]; decide⟩

theorem ne_of_kind {b c : UInt8} {k k' : Kind} (hb : kindOf b = some k) (hc : kindOf c = some k')
    (h : k ≠ k') : b ≠ c := by
  rintro rfl
  exact h (Option.some.inj (hb.symm.trans hc))

section Trees
variable {empty : Json} (hempty : empty = .obj [] ∨ empty = unread)
include hempty

theorem tree_kind (d : Datum) : (d.tree empty).kind = d.kind ∨ d.tree empty = unread := by
  cases d with
  | null | bool => exact .inl rfl
  | number cs =>
    rw [Datum.tree]
    cases h : numeral? cs with
    | none => exact .inr rfl
    | some j => rcases numeral?_cases h with ⟨n, rfl⟩ | ⟨s, rfl⟩ <;> exact .inl rfl
  | string us =>
    rw [Datum.tree]
    cases string? us with
    | none => exact .inr rfl
    | some s => exact .inl rfl
  | array items => exact .inl (by rw [Datum.tree]; rfl)
  | object members =>
    cases members with
    | nil =>
      rw [Datum.tree]
      rcases hempty with rfl | rfl
      · exact .inl rfl
      · exact .inr rfl
    | cons m members =>
      rw [Datum.tree]
      cases Datum.memberTrees empty (m :: members) with
      | none => exact .inr rfl
      | some trees => exact .inl rfl

theorem tree_kind_ne {d : Datum} {k : Kind} (h : d.kind ≠ k) (hnumber : Kind.number ≠ k) :
    (d.tree empty).kind ≠ k := by
  rcases tree_kind hempty d with hd | hd
  · rwa [hd]
  · rwa [hd]

end Trees

theorem toOption_wrongType {α : Type} (bs : Bytes) :
    (wrongType bs : Outcome α).toOption = none := by
  unfold wrongType
  split
  · rfl
  split
  · rfl
  · rw [toOption_bind]
    cases (value 0 _).toOption <;> rfl

/-! ### Forms -/

def Wire.Agrees {α : Type} (w : Wire α) : Prop :=
  ∀ {d : Datum} {cs : List Char}, Text d cs →
    Reads w.direct cs (w.buffered (d.tree unread)).toOption

namespace Wire
variable {α β : Type}

theorem string_refuses {j : Json} (h : j.kind ≠ .string) :
    (Wire.string.buffered j).toOption = none := by
  cases j with
  | str s => exact absurd rfl h
  | _ => rfl

theorem agrees_string : Wire.string.Agrees := by
  intro d cs h gap rest hrest
  have hstart := h.skipBlanks gap rest
  have hother (hkind : d.kind ≠ .string) :
      (Wire.string.direct (encodeChars gap.chars ++ (encodeChars cs ++ rest))).toOption =
        (Wire.string.buffered (d.tree unread)).toOption.map (·, rest) := by
    obtain ⟨b, bs, hbytes, hb⟩ := h.lead
    have hquote := ne_of_kind hb (by decide : kindOf quote = some .string) hkind
    rw [hbytes, List.cons_append] at hstart
    rw [string_refuses (tree_kind_ne (.inr rfl) hkind (by decide))]
    simp only [Wire.string, hbytes, List.cons_append, hstart, if_neg hquote, toOption_wrongType]
    rfl
  cases h with
  | @string us cs hspells =>
    rw [Datum.stringBytes] at hstart ⊢
    simp only [Wire.string, hstart, if_true, string_spells hspells, Datum.tree]
    cases string? us <;> rfl
  | _ => exact hother (by rintro ⟨⟩)

theorem Agrees.refine {w : Wire α} (h : w.Agrees) (read : α → Decoded β) (write : β → α) :
    (w.refine read write).Agrees := by
  intro d cs htext gap rest hrest
  simp only [Wire.refine, toOption_bind, h htext gap rest hrest]
  cases w.buffered (d.tree unread) with
  | error e => rfl
  | ok a => cases hread : read a <;> simp [lift, hread]

theorem agrees_ofText (read : List Char → Decoded α) (text : α → List Char) :
    (Wire.ofText read text).Agrees :=
  agrees_string.refine _ _

theorem agrees_integer (low high : Int) : (Wire.integer low high).Agrees := by
  intro d cs h gap rest hrest
  have hstart := h.skipBlanks gap rest
  obtain ⟨b, bs, hbytes, hb⟩ := h.lead
  have hother (hkind : d.kind ≠ .number) :
      ((Wire.integer low high).direct (encodeChars gap.chars ++ (encodeChars cs ++ rest))).toOption
        = ((Wire.integer low high).buffered (d.tree unread)).toOption.map (·, rest) := by
    have hnumber : ¬ startsNumber b = true := fun hstarts =>
      hkind (Option.some.inj (hb.symm.trans (kindOf_startsNumber hstarts)))
    have hrefused : (integerOf low high (d.tree unread)).toOption = none := by
      rcases tree_kind (.inr rfl) d with htree | htree
      · cases hj : d.tree unread with
        | int n => exact absurd (by rw [← htree, hj]; rfl) hkind
        | _ => rfl
      · rw [htree]
        rfl
    rw [hbytes, List.cons_append] at hstart
    simp only [Wire.integer, hbytes, List.cons_append, hstart, if_neg hnumber, toOption_wrongType,
      hrefused]
    rfl
  cases h with
  | @number cs hnumber =>
    have hread := numberValue_number hnumber hrest
    obtain ⟨b, bs, hbytes, hstarts⟩ := startsNumber_number hnumber
    rw [hbytes, List.cons_append] at hstart hread
    simp only [Wire.integer, hbytes, List.cons_append, hstart, if_pos hstarts, toOption_bind, hread,
      Datum.tree]
    cases hnumeral : numeral? cs with
    | none => rfl
    | some j => cases hj : integerOf low high j <;> simp [lift, hj]
  | _ => exact hother (by rintro ⟨⟩)

theorem agrees_int64 : Wire.int64.Agrees := Agrees.refine (agrees_integer _ _) _ _

theorem Agrees.optional {w : Wire α} (h : w.Agrees) : w.optional.Agrees := by
  intro d cs htext gap rest hrest
  have hstart := htext.skipBlanks gap rest
  have hother (hkind : d.kind ≠ .null) :
      (w.optional.direct (encodeChars gap.chars ++ (encodeChars cs ++ rest))).toOption =
        (w.optional.buffered (d.tree unread)).toOption.map (·, rest) := by
    obtain ⟨b, bs, hbytes, hb⟩ := htext.lead
    have hletter := ne_of_kind hb (by decide : kindOf letterN = some .null) hkind
    have hread := (h htext).alone hrest
    have htree := tree_kind_ne (.inr rfl) hkind (by decide)
    rw [hbytes, List.cons_append] at hstart hread
    simp only [Wire.optional, hbytes, List.cons_append, hstart, if_neg hletter, toOption_bind, hread]
    cases hj : d.tree unread with
    | null => exact absurd (by rw [hj]; rfl) htree
    | _ =>
      simp only [toOption_bind, toOption_pure]
      cases (w.buffered _).toOption <;> rfl
  cases htext with
  | null =>
    have hbytes : encodeChars "null".toList ++ rest = letterN :: (nullTail ++ rest) := rfl
    rw [hbytes] at hstart
    simp only [Wire.optional, hbytes, hstart, if_true, word_append]
    rfl
  | _ => exact hother (by rintro ⟨⟩)

/-! A choice written as an object has one member, whose value is null. -/

theorem noContent_text {d : Datum} {cs : List Char} (h : Text d cs) (gap : Gap) (rest : Bytes) :
    (choice.noContent (encodeChars gap.chars ++ (encodeChars cs ++ rest))).toOption =
      if d.kind = .null then some rest else none := by
  have hstart := h.skipBlanks gap rest
  have hother (hkind : d.kind ≠ .null) :
      (choice.noContent (encodeChars gap.chars ++ (encodeChars cs ++ rest))).toOption = none := by
    obtain ⟨b, bs, hbytes, hb⟩ := h.lead
    have hletter := ne_of_kind hb (by decide : kindOf letterN = some .null) hkind
    rw [hbytes, List.cons_append] at hstart
    simp only [choice.noContent, hbytes, List.cons_append, hstart, if_neg hletter,
      toOption_wrongType]
  cases h with
  | null =>
    have hbytes : encodeChars "null".toList ++ rest = letterN :: (nullTail ++ rest) := rfl
    rw [hbytes] at hstart
    simp only [choice.noContent, hbytes, hstart, if_true, word_append]
    rfl
  | _ => exact hother (by rintro ⟨⟩)

theorem skipBlanks_entry (e : Entry) (entries : List Entry) (gap : Gap) (rest : Bytes) :
    skipBlanks (entriesRest true (e :: entries) gap rest) =
      quote :: (encodeChars e.nameText ++
        quote :: contentRest e (entriesRest false entries gap rest)) := by
  have hnone : encodeChars (Datum.separatorText true) = [] := rfl
  rw [Datum.entriesRest_cons, skipBlanks_gap, hnone, List.nil_append, skipBlanks_gap,
    skipBlanks_cons (by decide)]

theorem endObject_entries (e : Entry) (entries : List Entry) (gap : Gap) (rest : Bytes) :
    ∃ bs, skipBlanks (entriesRest false (e :: entries) gap rest) = comma :: bs := by
  have hcomma : encodeChars (Datum.separatorText false) = [comma] := rfl
  rw [Datum.entriesRest_cons, skipBlanks_gap, hcomma, List.singleton_append,
    skipBlanks_cons (by decide)]
  exact ⟨_, rfl⟩

theorem choice_refuses {all : List α} {name : α → String} {j : Json} (hstring : j.kind ≠ .string)
    (hobject : j.kind ≠ .object) : ((choice all name).buffered j).toOption = none := by
  cases j with
  | str s => exact absurd rfl hstring
  | obj members => exact absurd rfl hobject
  | _ => rfl

theorem tree_ne_empty (d : Datum) : d.tree unread ≠ .obj [] := by
  cases d with
  | object members =>
    cases members with
    | nil =>
      rw [Datum.tree]
      rintro ⟨⟩
    | cons m members =>
      obtain ⟨us, d⟩ := m
      rw [Datum.tree, Datum.memberTrees]
      cases string? us with
      | none => rintro ⟨⟩
      | some found => cases Datum.memberTrees unread members <;> rintro ⟨⟩
  | null | bool | array =>
    rw [Datum.tree]
    rintro ⟨⟩
  | number cs =>
    rw [Datum.tree]
    cases h : numeral? cs with
    | none => rintro ⟨⟩
    | some j => rcases numeral?_cases h with ⟨n, rfl⟩ | ⟨s, rfl⟩ <;> rintro ⟨⟩
  | string us =>
    rw [Datum.tree]
    cases string? us <;> rintro ⟨⟩

def chosen (all : List α) (name : α → String) : List (Units × Datum) → Option α
  | [(us, d)] =>
    if d.kind = .null then (string? us).bind fun found => (named all name found).toOption else none
  | [] => none
  | _ :: _ :: _ => none

theorem choice_direct_object (all : List α) (name : α → String) {entries : List Entry}
    (names : ∀ e ∈ entries, Spells e.name e.nameText)
    (each : ∀ e ∈ entries, Text e.datum e.text) {bs : Bytes} (gap : Gap) (rest : Bytes)
    (hstart : skipBlanks bs = openBrace :: entriesRest true entries gap rest) :
    ((choice all name).direct bs).toOption =
      (chosen all name (entries.map Entry.member)).map (·, rest) := by
  have hend : skipBlanks (closing gap closeBrace rest) = closeBrace :: rest :=
    Datum.skipBlanks_closing gap (by decide) rest
  simp only [choice, hstart, if_true, toOption_bind]
  cases entries with
  | nil =>
    have hnone : entriesRest true [] gap rest = closing gap closeBrace rest := rfl
    simp only [Wire.string, hnone, hend, if_neg (by decide : closeBrace ≠ quote),
      toOption_wrongType]
    rfl
  | cons e entries =>
    have hread := string_spells (names e List.mem_cons_self)
      (contentRest e (entriesRest false entries gap rest))
    have hcontent := noContent_text (each e List.mem_cons_self) e.afterColon
      (entriesRest false entries gap rest)
    simp only [Wire.string, skipBlanks_entry, if_true, hread]
    cases hname : string? e.name with
    | none => cases entries <;> simp [chosen, Entry.member, hname]
    | some found =>
      simp only [Option.map_some, Option.bind_some, contentRest, Datum.endKey_spaced, toOption_ok,
        hcontent]
      cases hnamed : named all name found with
      | error e => cases entries <;> simp [chosen, Entry.member, hname, hnamed, lift]
      | ok a =>
        by_cases hnull : e.datum.kind = .null
        · cases entries with
          | nil =>
            have hnone : entriesRest false [] gap rest = closing gap closeBrace rest := rfl
            simp [chosen, Entry.member, hname, hnamed, lift, hnull, hnone, hend]
          | cons k entries =>
            obtain ⟨more, hmore⟩ := endObject_entries k entries gap rest
            have hcomma : comma ≠ closeBrace := by decide
            simp [chosen, Entry.member, lift, hnull, hmore, hcomma]
        · cases entries <;> simp [chosen, Entry.member, lift, hnull]

theorem choice_buffered_object (all : List α) (name : α → String)
    (members : List (Units × Datum)) :
    ((choice all name).buffered ((Datum.object members).tree unread)).toOption =
      chosen all name members := by
  match members with
  | [] => rw [Datum.tree]; rfl
  | [(us, d)] =>
    rw [Datum.tree, Datum.memberTrees, Datum.memberTrees, chosen]
    cases string? us with
    | none =>
      rw [Option.bind_none, Option.bind_none, ite_self]
      rfl
    | some found =>
      have hempty := tree_ne_empty d
      simp only [Option.bind_some, Option.map_some, Option.getD_some, choice, toOption_bind]
      by_cases hnull : d.kind = .null
      · obtain rfl : d = .null := by cases d <;> first | rfl | cases hnull
        rw [if_pos hnull, Datum.tree]
        cases (named all name found).toOption <;> rfl
      · have htree := tree_kind_ne (.inr rfl) hnull (by decide)
        rw [if_neg hnull]
        split
        · rename_i hd
          exact absurd (by rw [hd]; rfl) htree
        · rename_i hd
          exact absurd hd hempty
        · cases (named all name found).toOption <;> rfl
  | (us, d) :: (vs, e) :: members =>
    rw [Datum.tree, Datum.memberTrees, Datum.memberTrees, chosen]
    cases string? us with
    | none => rfl
    | some found =>
      cases string? vs with
      | none => rfl
      | some other => cases Datum.memberTrees unread members <;> rfl

theorem agrees_choice (all : List α) (name : α → String) : (choice all name).Agrees := by
  intro d cs h gap rest hrest
  have hstart := h.skipBlanks gap rest
  have hother (hstring : d.kind ≠ .string) (hobject : d.kind ≠ .object) :
      ((choice all name).direct (encodeChars gap.chars ++ (encodeChars cs ++ rest))).toOption =
        ((choice all name).buffered (d.tree unread)).toOption.map (·, rest) := by
    obtain ⟨b, bs, hbytes, hb⟩ := h.lead
    have hquote := ne_of_kind hb (by decide : kindOf quote = some .string) hstring
    have hbrace := ne_of_kind hb (by decide : kindOf openBrace = some .object) hobject
    rw [hbytes, List.cons_append] at hstart
    rw [choice_refuses (tree_kind_ne (.inr rfl) hstring (by decide))
      (tree_kind_ne (.inr rfl) hobject (by decide))]
    simp only [choice, hbytes, List.cons_append, hstart, if_neg hquote, if_neg hbrace]
    rfl
  cases h with
  | @string us cs hspells =>
    rw [Datum.stringBytes] at hstart ⊢
    simp only [choice, hstart, if_neg (by decide : quote ≠ openBrace), if_true, toOption_bind,
      string_spells hspells, Datum.tree]
    cases string? us with
    | none => rfl
    | some found => cases hnamed : named all name found <;> simp [lift, hnamed]
  | @object entries names each gap' =>
    rw [Datum.objectBytes] at hstart ⊢
    rw [choice_direct_object all name names each gap' rest hstart, choice_buffered_object]
  | _ => exact hother (by rintro ⟨⟩) (by rintro ⟨⟩)

end Wire
end SandboxWorker.Json
