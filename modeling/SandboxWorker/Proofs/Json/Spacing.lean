import SandboxWorker.Proofs.Json.Numerals
import SandboxWorker.Proofs.Json.Values
/-! Blanks make no difference: a fold over the items of an array or the members of an object meets
the data that the text stands for, in order, however they are spaced and spelled. -/
namespace SandboxWorker.Json
open Utf8 (encodeChars)

/-! ### Blanks -/

theorem isBlank_gap (gap : Gap) : ∀ b ∈ encodeChars gap.chars, isBlank b = true := by
  intro b hb
  obtain ⟨c, hc, hb⟩ := List.mem_flatMap.mp hb
  rcases gap.blank c hc with rfl | rfl | rfl | rfl
  · cases List.mem_singleton.mp hb
    decide
  · cases List.mem_singleton.mp hb
    decide
  · cases List.mem_singleton.mp hb
    decide
  · cases List.mem_singleton.mp hb
    decide

theorem skipBlanks_gap (gap : Gap) (bs : Bytes) :
    skipBlanks (encodeChars gap.chars ++ bs) = skipBlanks bs :=
  List.dropWhile_append_of_pos (isBlank_gap gap)

theorem skipBlanks_starts {bs : Bytes} (h : Starts bs) : skipBlanks bs = bs := by
  obtain ⟨b, bs, rfl, hblank, -⟩ := h
  exact skipBlanks_cons hblank bs

theorem stops_cons {b : UInt8} (h : isBlank b = true ∨ b = comma ∨ b = closeBracket ∨ b = closeBrace)
    (bs : Bytes) : Stops (b :: bs) := by
  rintro _ ⟨⟩
  exact h

theorem stops_gap (gap : Gap) {bs : Bytes} (h : Stops bs) : Stops (encodeChars gap.chars ++ bs) := by
  cases hgap : encodeChars gap.chars with
  | nil => exact h
  | cons b more => exact stops_cons (.inl (isBlank_gap gap b (hgap ▸ List.mem_cons_self))) _

namespace Datum

theorem Text.starts {d : Datum} {cs : List Char} (h : Text d cs) : Starts (encodeChars cs) := by
  cases h with
  | null => exact ⟨letterN, nullTail, rfl, by decide, by decide⟩
  | trueWord => exact ⟨letterT, trueTail, rfl, by decide, by decide⟩
  | falseWord => exact ⟨letterF, falseTail, rfl, by decide, by decide⟩
  | number h =>
    obtain ⟨b, bs, hbytes, hb⟩ := startsNumber_number h
    exact ⟨b, bs, hbytes, isBlank_of_startsNumber hb, ne_of_startsNumber hb (by decide)⟩
  | string h => exact ⟨quote, _, rfl, by decide, by decide⟩
  | array each gap => exact ⟨openBracket, _, rfl, by decide, by decide⟩
  | object names each gap => exact ⟨openBrace, _, rfl, by decide, by decide⟩

theorem Text.skipBlanks {d : Datum} {cs : List Char} (h : Text d cs) (gap : Gap) (rest : Bytes) :
    skipBlanks (encodeChars gap.chars ++ (encodeChars cs ++ rest)) = encodeChars cs ++ rest := by
  rw [skipBlanks_gap, skipBlanks_starts (h.starts.append rest)]

def closing (gap : Gap) (close : UInt8) (rest : Bytes) : Bytes :=
  encodeChars gap.chars ++ close :: rest

theorem skipBlanks_closing (gap : Gap) {close : UInt8} (h : isBlank close = false)
    (rest : Bytes) : skipBlanks (closing gap close rest) = close :: rest := by
  rw [closing, skipBlanks_gap, skipBlanks_cons h]

section Arrays
variable {σ α : Type} {items : List Item} {gap : Gap} {rest : Bytes}

def itemsRest (first : Bool) (items : List Item) (gap : Gap) (rest : Bytes) : Bytes :=
  encodeChars (itemsText first items) ++ closing gap closeBracket rest

theorem itemsRest_cons (first : Bool) (i : Item) :
    itemsRest first (i :: items) gap rest =
      encodeChars i.before.chars ++ (encodeChars (separatorText first) ++
        (encodeChars i.after.chars ++
          (encodeChars i.text ++ itemsRest false items gap rest))) := by
  simp only [itemsRest, itemsText, Utf8.encodeChars_append, List.append_assoc]

theorem stops_itemsRest (items : List Item) (gap : Gap) (rest : Bytes) :
    Stops (itemsRest false items gap rest) := by
  cases items with
  | nil => exact stops_gap gap (stops_cons (by decide) rest)
  | cons i items =>
    rw [itemsRest_cons]
    exact stops_gap i.before (stops_cons (by decide) _)

theorem nextElement_closing (first : Bool) :
    nextElement first (closing gap closeBracket rest) = .ok none := by
  rw [nextElement, skipBlanks_closing gap (by decide)]
  exact if_pos rfl

theorem endArray_closing : endArray (closing gap closeBracket rest) = .ok rest := by
  rw [endArray, skipBlanks_closing gap (by decide)]
  exact if_pos rfl

theorem nextElement_spaced (first : Bool) (before after : Gap) {bs : Bytes} (h : Starts bs) :
    nextElement first (encodeChars before.chars ++ (encodeChars (separatorText first) ++
      (encodeChars after.chars ++ bs))) = .ok (some bs) := by
  have hstart := skipBlanks_starts h
  rw [nextElement, skipBlanks_gap]
  cases first with
  | true =>
    have hnone : encodeChars (separatorText true) = [] := rfl
    rw [hnone, List.nil_append, skipBlanks_gap, hstart]
    obtain ⟨b, bs, rfl, -, hclose⟩ := h
    simp only [if_neg hclose, if_true]
  | false =>
    have hcomma : encodeChars (separatorText false) = [comma] := rfl
    rw [hcomma, List.singleton_append, skipBlanks_cons (by decide)]
    simp only [if_neg (by decide : comma ≠ closeBracket), if_neg Bool.false_ne_true, if_true,
      skipBlanks_gap, hstart]
    obtain ⟨b, bs, rfl, -, hclose⟩ := h
    simp only [if_neg hclose]

theorem length_items {items : List Item} (each : ∀ i ∈ items, Text i.datum i.text) (first : Bool)
    (gap : Gap) (rest : Bytes) : items.length ≤ (itemsRest first items gap rest).length := by
  induction items generalizing first with
  | nil => exact Nat.zero_le _
  | cons i items ih =>
    have hrest := ih (fun k hk => each k (List.mem_cons_of_mem _ hk)) false
    obtain ⟨b, bs, hbytes, -⟩ := (each i List.mem_cons_self).starts
    simp only [itemsRest_cons, List.length_append, hbytes, List.length_cons]
    omega

/-- A reader that gives, of some text with blanks in front, what is said; nothing if it fails. -/
def Reads (read : Bytes → Outcome (α × Bytes)) (cs : List Char) (a : Option α) : Prop :=
  ∀ (gap : Gap) (rest : Bytes), Stops rest →
    (read (encodeChars gap.chars ++ (encodeChars cs ++ rest))).toOption = a.map (·, rest)

theorem Reads.alone {read : Bytes → Outcome (α × Bytes)} {cs : List Char} {a : Option α}
    (h : Reads read cs a) (hrest : Stops rest) :
    (read (encodeChars cs ++ rest)).toOption = a.map (·, rest) :=
  h ⟨[], by simp⟩ rest hrest

theorem foldElements_spaced {step : σ → Bytes → Outcome (σ × Bytes)} (next : σ → Datum → Option σ)
    (each : ∀ i ∈ items, Text i.datum i.text)
    (hstep : ∀ s, ∀ i ∈ items, Reads (step s) i.text (next s i.datum))
    {fuel : Nat} (hfuel : items.length < fuel) (first : Bool) (s : σ) :
    (foldElements step fuel first s (itemsRest first items gap rest)).toOption =
      ((items.map (·.datum)).foldlM next s).map (·, closing gap closeBracket rest) := by
  induction items generalizing fuel first s with
  | nil =>
    obtain ⟨fuel, rfl⟩ : ∃ n, fuel = n + 1 := ⟨fuel - 1, by simp at hfuel; omega⟩
    have hend : itemsRest first [] gap rest = closing gap closeBracket rest := rfl
    rw [hend, foldElements, nextElement_closing]
    rfl
  | cons i items ih =>
    obtain ⟨fuel, rfl⟩ : ∃ n, fuel = n + 1 := ⟨fuel - 1, by simp at hfuel; omega⟩
    have hstart := (each i List.mem_cons_self).starts.append
      (itemsRest false items gap rest)
    have hread := (hstep s i List.mem_cons_self).alone (stops_itemsRest items gap rest)
    rw [itemsRest_cons, foldElements, nextElement_spaced first i.before i.after hstart]
    simp only [toOption_bind, toOption_ok, Option.bind_some, hread, List.map_cons,
      List.foldlM_cons]
    cases next s i.datum with
    | none => rfl
    | some t =>
      exact ih (fun k hk => each k (List.mem_cons_of_mem _ hk))
        (fun s k hk => hstep s k (List.mem_cons_of_mem _ hk)) (Nat.lt_of_succ_lt_succ hfuel)
        false t

theorem foldlM_keep {β : Type} (f : α → Option β) (as : List α) (kept : List β) :
    as.foldlM (fun kept a => (f a).map (· :: kept)) kept =
      (as.mapM f).map fun bs => bs.reverse ++ kept := by
  induction as generalizing kept with
  | nil => rfl
  | cons a as ih =>
    rw [List.foldlM_cons, List.mapM_cons]
    cases f a with
    | none => rfl
    | some b =>
      refine (ih (b :: kept)).trans ?_
      cases as.mapM f with
      | none => rfl
      | some bs => simp

theorem foldlM_bind {β : Type} (f : α → Option β) (next : σ → β → Option σ) (as : List α) (s : σ) :
    as.foldlM (fun s a => (f a).bind (next s)) s =
      (as.mapM f).bind fun bs => bs.foldlM next s := by
  induction as generalizing s with
  | nil => rfl
  | cons a as ih =>
    rw [List.foldlM_cons, List.mapM_cons]
    cases f a with
    | none => rfl
    | some b =>
      simp only [Option.bind_some]
      cases hnext : next s b with
      | none => cases as.mapM f <;> simp [List.foldlM_cons, hnext]
      | some t =>
        refine (ih t).trans ?_
        cases as.mapM f <;> simp [List.foldlM_cons, hnext]

theorem elements_spaced {item : Bytes → Outcome (α × Bytes)} {m : Datum → Option α}
    (each : ∀ i ∈ items, Text i.datum i.text) (hitem : ∀ i ∈ items, Reads item i.text (m i.datum))
    (first : Bool) (gap : Gap) (rest : Bytes) :
    (elements item first (itemsRest first items gap rest)).toOption =
      ((items.map (·.datum)).mapM m).map (·, rest) := by
  have hstep : ∀ (kept : List α), ∀ i ∈ items, Reads
      (fun bs => item bs >>= fun p => pure (p.1 :: kept, p.2)) i.text
        ((m i.datum).map (· :: kept)) := by
    intro kept i hi gap rest hrest
    simp only [toOption_bind, hitem i hi gap rest hrest]
    cases m i.datum <;> rfl
  have hlength := length_items each first gap rest
  rw [elements, toOption_bind,
    foldElements_spaced (fun kept d => (m d).map (· :: kept)) each hstep (by omega), foldlM_keep]
  cases (items.map (·.datum)).mapM m with
  | none => rfl
  | some as =>
    simp only [Option.map_some, Option.bind_some, endArray_closing, bind, Except.bind,
      List.append_nil, List.reverse_reverse]
    rfl

theorem array_spaced {item : Bytes → Outcome (α × Bytes)} {m : Datum → Option α}
    (each : ∀ i ∈ items, Text i.datum i.text)
    (hitem : ∀ i ∈ items, Reads item i.text (m i.datum)) (gap : Gap) (rest : Bytes) :
    (Json.array item (itemsRest true items gap rest)).toOption =
      ((items.map (·.datum)).mapM m).map (·, rest) :=
  elements_spaced each hitem true gap rest

end Arrays

section Objects
variable {κ σ α : Type} {entries : List Entry} {gap : Gap} {rest : Bytes}

def entriesRest (first : Bool) (entries : List Entry) (gap : Gap) (rest : Bytes) : Bytes :=
  encodeChars (entriesText first entries) ++ closing gap closeBrace rest

def contentRest (e : Entry) (rest : Bytes) : Bytes :=
  encodeChars e.beforeColon.chars ++ colon ::
    (encodeChars e.afterColon.chars ++ (encodeChars e.text ++ rest))

theorem entriesRest_cons (first : Bool) (e : Entry) :
    entriesRest first (e :: entries) gap rest =
      encodeChars e.before.chars ++ (encodeChars (separatorText first) ++
        (encodeChars e.after.chars ++ quote :: (encodeChars e.nameText ++
          quote :: contentRest e (entriesRest false entries gap rest)))) := by
  have hquote (cs : List Char) : encodeChars ('"' :: cs) = quote :: encodeChars cs := rfl
  have hcolon (cs : List Char) : encodeChars (':' :: cs) = colon :: encodeChars cs := rfl
  simp only [entriesRest, contentRest, entriesText, entryText, Utf8.encodeChars_append, hquote,
    hcolon, List.append_assoc, List.cons_append]

theorem stops_entriesRest (entries : List Entry) (gap : Gap) (rest : Bytes) :
    Stops (entriesRest false entries gap rest) := by
  cases entries with
  | nil => exact stops_gap gap (stops_cons (by decide) rest)
  | cons e entries =>
    rw [entriesRest_cons]
    exact stops_gap e.before (stops_cons (by decide) _)

theorem nextKey_closing (first : Bool) :
    nextKey first (closing gap closeBrace rest) = .ok none := by
  rw [nextKey, skipBlanks_closing gap (by decide)]
  exact if_pos rfl

theorem endObject_closing : endObject (closing gap closeBrace rest) = .ok rest := by
  rw [endObject, skipBlanks_closing gap (by decide)]
  exact if_pos rfl

theorem nextKey_spaced (first : Bool) (before after : Gap) (bs : Bytes) :
    nextKey first (encodeChars before.chars ++ (encodeChars (separatorText first) ++
      (encodeChars after.chars ++ quote :: bs))) = .ok (some bs) := by
  have hquote : skipBlanks (quote :: bs) = quote :: bs := skipBlanks_cons (by decide) bs
  rw [nextKey, skipBlanks_gap]
  cases first with
  | true =>
    have hnone : encodeChars (separatorText true) = [] := rfl
    rw [hnone, List.nil_append, skipBlanks_gap, hquote]
    rfl
  | false =>
    have hcomma : encodeChars (separatorText false) = [comma] := rfl
    rw [hcomma, List.singleton_append, skipBlanks_cons (by decide)]
    simp only [skipBlanks_gap, hquote]
    rfl

theorem endKey_spaced (gap : Gap) (bs : Bytes) :
    endKey (encodeChars gap.chars ++ colon :: bs) = .ok bs := by
  rw [endKey, skipBlanks_gap, skipBlanks_cons (by decide)]
  exact if_pos rfl

theorem length_entries (entries : List Entry) (first : Bool) (gap : Gap) (rest : Bytes) :
    entries.length ≤ (entriesRest first entries gap rest).length := by
  induction entries generalizing first with
  | nil => exact Nat.zero_le _
  | cons e entries ih =>
    have hrest := ih false
    simp only [entriesRest_cons, contentRest, List.length_append, List.length_cons]
    omega

def NamesBy (key : Bytes → Outcome (κ × Bytes)) (name : Units → Option κ) : Prop :=
  ∀ us cs rest, Spells us cs →
    (key (encodeChars cs ++ quote :: rest)).toOption = (name us).map (·, rest)

def ReadsContent (read : Bytes → Outcome (α × Bytes)) (e : Entry) (a : Option α) : Prop :=
  ∀ rest, Stops rest → (read (contentRest e rest)).toOption = a.map (·, rest)

theorem foldMembers_spaced {key : Bytes → Outcome (κ × Bytes)} {name : Units → Option κ}
    (hkey : NamesBy key name) {step : σ → κ → Bytes → Outcome (σ × Bytes)}
    (next : σ → κ → Datum → Option σ) (names : ∀ e ∈ entries, Spells e.name e.nameText)
    (hstep : ∀ s k, ∀ e ∈ entries, ReadsContent (step s k) e (next s k e.datum))
    {fuel : Nat} (hfuel : entries.length < fuel) (first : Bool) (s : σ) (gap : Gap) (rest : Bytes) :
    (foldMembers key step fuel first s (entriesRest first entries gap rest)).toOption =
      ((entries.map Entry.member).foldlM (fun s m => (name m.1).bind fun k => next s k m.2) s).map
        (·, closing gap closeBrace rest) := by
  induction entries generalizing fuel first s with
  | nil =>
    obtain ⟨fuel, rfl⟩ : ∃ n, fuel = n + 1 := ⟨fuel - 1, by simp at hfuel; omega⟩
    have hend : entriesRest first [] gap rest = closing gap closeBrace rest := rfl
    rw [hend, foldMembers, nextKey_closing]
    rfl
  | cons e entries ih =>
    obtain ⟨fuel, rfl⟩ : ∃ n, fuel = n + 1 := ⟨fuel - 1, by simp at hfuel; omega⟩
    have hname := hkey _ _ (contentRest e (entriesRest false entries gap rest))
      (names e List.mem_cons_self)
    rw [entriesRest_cons, foldMembers, nextKey_spaced first e.before e.after]
    simp only [toOption_bind, toOption_ok, Option.bind_some, hname, List.map_cons,
      List.foldlM_cons, Entry.member]
    cases name e.name with
    | none => rfl
    | some k =>
      have hread := hstep s k e List.mem_cons_self _ (stops_entriesRest entries gap rest)
      simp only [Option.map_some, Option.bind_some, hread]
      cases next s k e.datum with
      | none => rfl
      | some t =>
        exact ih (fun m hm => names m (List.mem_cons_of_mem _ hm))
          (fun s k m hm => hstep s k m (List.mem_cons_of_mem _ hm)) (Nat.lt_of_succ_lt_succ hfuel)
          false t

theorem object_spaced {key : Bytes → Outcome (κ × Bytes)} {name : Units → Option κ}
    (hkey : NamesBy key name) {read : Bytes → Outcome (α × Bytes)} {m : Datum → Option α}
    (names : ∀ e ∈ entries, Spells e.name e.nameText)
    (hitem : ∀ e ∈ entries, Reads read e.text (m e.datum)) (gap : Gap) (rest : Bytes) :
    (Json.object key read (entriesRest true entries gap rest)).toOption =
      ((entries.map Entry.member).mapM fun e => (name e.1).bind fun k => (m e.2).map (k, ·)).map
        (·, rest) := by
  have hstep : ∀ (kept : List (κ × α)) k, ∀ e ∈ entries, ReadsContent
      (fun bs => endKey bs >>= fun bs => read bs >>= fun p => pure ((k, p.1) :: kept, p.2)) e
        ((m e.datum).map fun a => (k, a) :: kept) := by
    intro kept k e he rest hrest
    simp only [contentRest, endKey_spaced, toOption_bind, toOption_ok, Option.bind_some,
      hitem e he e.afterColon rest hrest]
    cases m e.datum <;> rfl
  have hnext : (fun (kept : List (κ × α)) (e : Units × Datum) =>
      (name e.1).bind fun k => (m e.2).map fun a => (k, a) :: kept) = fun kept e =>
        ((name e.1).bind fun k => (m e.2).map (k, ·)).map (· :: kept) := by
    funext kept e
    cases name e.1 with
    | none => rfl
    | some k => simp only [Option.bind_some, Option.map_map]; rfl
  have hlength := length_entries entries true gap rest
  rw [Json.object, toOption_bind, foldMembers_spaced hkey
    (fun kept k d => (m d).map fun a => (k, a) :: kept) names hstep (by omega), hnext, foldlM_keep]
  cases (entries.map Entry.member).mapM fun e => (name e.1).bind fun k => (m e.2).map (k, ·) with
  | none => rfl
  | some members =>
    simp only [Option.map_some, Option.bind_some, endObject_closing, bind, Except.bind,
      List.append_nil, List.reverse_reverse]
    rfl

end Objects

end Datum
end SandboxWorker.Json
