import SandboxWorker.Proofs.Json.Numbers
import SandboxWorker.Proofs.Json.Strings
/-! The compact text of a value is read back as this value, and a fold over the items of an array or
the members of an object meets them in order. -/
namespace SandboxWorker.Json

/-- Values whose text says what they are: integers of 64 bits, nested at most so deep. A number kept
as spelled may be spelled in any way. -/
inductive Readable : Nat → Json → Prop where
  | null {depth : Nat} : Readable depth .null
  | bool {depth : Nat} (b : Bool) : Readable depth (.bool b)
  | int {depth : Nat} {n : Int} (low : -0x8000000000000000 ≤ n) (high : n < wordLimit) :
    Readable depth (.int n)
  | str {depth : Nat} (s : String) : Readable depth (.str s)
  | arr {depth : Nat} {items : List Json} (each : ∀ j ∈ items, Readable depth j) :
    Readable (depth + 1) (.arr items)
  | obj {depth : Nat} {members : List (String × Json)} (each : ∀ m ∈ members, Readable depth m.2) :
    Readable (depth + 1) (.obj members)

theorem Readable.member {depth : Nat} {members : List (String × Json)}
    (h : Readable (depth + 1) (.obj members)) : ∀ m ∈ members, Readable depth m.2 := by
  cases h with
  | obj each => exact each

def bytes (j : Json) : Bytes := Utf8.encodeChars j.text

theorem encode_toString (j : Json) : Utf8.encode j.toString = j.bytes := by
  rw [Utf8.encode, Json.toString, String.toList_ofList]
  rfl

theorem bytes_str (s : String) : (str s).bytes = quote :: stringRest s := by
  rw [bytes, text, encodeChars_stringText]

theorem bytes_arr (items : List Json) :
    (arr items).bytes = openBracket :: Utf8.encodeChars (itemsText items) :=
  rfl

theorem bytes_obj (members : List (String × Json)) :
    (obj members).bytes = openBrace :: Utf8.encodeChars (membersText members) :=
  rfl

def Starts (bs : Bytes) : Prop := ∃ b rest, bs = b :: rest ∧ isBlank b = false ∧ b ≠ closeBracket

theorem ne_of_startsNumber {b c : UInt8} (h : startsNumber b = true)
    (hc : startsNumber c = false) : b ≠ c := by
  rintro rfl
  rw [h] at hc
  cases hc

theorem isBlank_of_startsNumber {b : UInt8} (h : startsNumber b = true) : isBlank b = false := by
  cases hb : isBlank b with
  | false => rfl
  | true =>
    simp only [isBlank, Bool.or_eq_true, beq_iff_eq] at hb
    rcases hb with ((rfl | rfl) | rfl) | rfl <;> exact absurd h (by decide)

theorem startsNumber_ofInt (n : Int) :
    ∃ b bs, Utf8.encodeChars (Decimal.ofInt n) = b :: bs ∧ startsNumber b = true := by
  unfold Decimal.ofInt
  split
  · exact ⟨minus, _, rfl, by decide⟩
  · obtain ⟨d, ds, hds⟩ := List.exists_cons_of_ne_nil (digitBytes_ne_nil n.natAbs)
    have hdigit := isDigit_of_mem_digitBytes d (hds ▸ List.mem_cons_self)
    exact ⟨d, ds, hds, by rw [startsNumber, hdigit, Bool.or_true]⟩

theorem Readable.first {depth : Nat} {j : Json} (h : Readable depth j) :
    ∃ b bs, j.bytes = b :: bs ∧ isBlank b = false ∧ b ≠ closeBracket ∧
      (j ≠ .null → b ≠ letterN) := by
  cases h with
  | null => exact ⟨letterN, nullTail, rfl, by decide, by decide, fun hne => absurd rfl hne⟩
  | bool b =>
    cases b
    · exact ⟨letterF, falseTail, rfl, by decide, by decide, fun _ => by decide⟩
    · exact ⟨letterT, trueTail, rfl, by decide, by decide, fun _ => by decide⟩
  | int =>
    obtain ⟨b, bs, hbytes, hb⟩ := startsNumber_ofInt _
    exact ⟨b, bs, hbytes, isBlank_of_startsNumber hb, ne_of_startsNumber hb (by decide),
      fun _ => ne_of_startsNumber hb (by decide)⟩
  | str s => exact ⟨quote, stringRest s, bytes_str s, by decide, by decide, fun _ => by decide⟩
  | arr => exact ⟨openBracket, _, rfl, by decide, by decide, fun _ => by decide⟩
  | obj => exact ⟨openBrace, _, rfl, by decide, by decide, fun _ => by decide⟩

theorem Readable.starts {depth : Nat} {j : Json} (h : Readable depth j) : Starts j.bytes := by
  obtain ⟨b, bs, hbytes, hblank, hclose, -⟩ := h.first
  exact ⟨b, bs, hbytes, hblank, hclose⟩

theorem skipBlanks_cons {b : UInt8} (h : isBlank b = false) (bs : Bytes) :
    skipBlanks (b :: bs) = b :: bs := by
  rw [skipBlanks, List.dropWhile_cons, h]
  rfl

/-! ### Arrays -/

def separator (first : Bool) : Bytes := if first then [] else [comma]

def itemsBytes : Bool → List Json → Bytes
  | _, [] => []
  | first, j :: items => separator first ++ j.bytes ++ itemsBytes false items

theorem encodeChars_itemsText_cons (j : Json) (items : List Json) :
    Utf8.encodeChars (itemsText (j :: items)) =
      j.bytes ++ itemsBytes false items ++ [closeBracket] := by
  induction items generalizing j with
  | nil => rw [itemsText, Utf8.encodeChars_append, itemsBytes, List.append_nil]; rfl
  | cons k items ih =>
    rw [itemsText, Utf8.encodeChars_append, Utf8.encodeChars_cons, ih, itemsBytes]
    · simp only [bytes, List.append_assoc]
      rfl
    · exact List.cons_ne_nil k items

theorem encodeChars_itemsText (items : List Json) :
    Utf8.encodeChars (itemsText items) = itemsBytes true items ++ [closeBracket] := by
  cases items with
  | nil => rfl
  | cons j items => exact encodeChars_itemsText_cons j items

theorem length_itemsBytes {items : List Json} (h : ∀ j ∈ items, Starts j.bytes) (first : Bool) :
    items.length ≤ (itemsBytes first items).length := by
  induction items generalizing first with
  | nil => exact Nat.zero_le _
  | cons j items ih =>
    have hrest := ih (fun i hi => h i (List.mem_cons_of_mem _ hi)) false
    obtain ⟨b, bs, hbytes, -⟩ := h j List.mem_cons_self
    simp only [itemsBytes, List.length_append, hbytes, List.length_cons]
    omega

variable {σ : Type} {rest : Bytes}

theorem ends_itemsBytes (items : List Json) (rest : Bytes) :
    Ends (itemsBytes false items ++ closeBracket :: rest) := by
  cases items with
  | nil =>
    rintro b ⟨⟩
    exact .inr (.inl rfl)
  | cons j items =>
    rintro b ⟨⟩
    exact .inl rfl

theorem nextElement_end (first : Bool) (rest : Bytes) :
    nextElement first (closeBracket :: rest) = .ok none := by
  rw [nextElement, skipBlanks_cons (by decide)]
  exact if_pos rfl

theorem nextElement_item (first : Bool) {bs : Bytes} (h : Starts bs) :
    nextElement first (separator first ++ bs) = .ok (some bs) := by
  obtain ⟨b, bs, rfl, hblank, hclose⟩ := h
  cases first with
  | true =>
    rw [nextElement, separator, if_pos rfl, List.nil_append, skipBlanks_cons hblank]
    simp only [if_neg hclose, if_true]
  | false =>
    rw [nextElement, separator, if_neg Bool.false_ne_true, List.singleton_append,
      skipBlanks_cons (by decide)]
    simp only [if_neg (by decide : comma ≠ closeBracket), if_neg Bool.false_ne_true, if_true,
      skipBlanks_cons hblank, if_neg hclose]

theorem Starts.append {bs : Bytes} (h : Starts bs) (more : Bytes) : Starts (bs ++ more) := by
  obtain ⟨b, bs, rfl, hblank, hclose⟩ := h
  exact ⟨b, bs ++ more, rfl, hblank, hclose⟩

theorem foldElements_items {step : σ → Bytes → Outcome (σ × Bytes)} (next : σ → Json → Outcome σ)
    {items : List Json} (hstarts : ∀ j ∈ items, Starts j.bytes)
    (hstep : ∀ s, ∀ j ∈ items, ∀ rest, Ends rest →
      step s (j.bytes ++ rest) = (next s j).map (·, rest))
    {fuel : Nat} (hfuel : items.length < fuel) (first : Bool) (s : σ) (rest : Bytes) :
    foldElements step fuel first s (itemsBytes first items ++ closeBracket :: rest) =
      (items.foldlM next s).map (·, closeBracket :: rest) := by
  induction items generalizing fuel first s with
  | nil =>
    obtain ⟨fuel, rfl⟩ : ∃ n, fuel = n + 1 := ⟨fuel - 1, by simp at hfuel; omega⟩
    rw [itemsBytes, List.nil_append, foldElements, nextElement_end]
    rfl
  | cons j items ih =>
    obtain ⟨fuel, rfl⟩ : ∃ n, fuel = n + 1 := ⟨fuel - 1, by simp at hfuel; omega⟩
    rw [itemsBytes, List.append_assoc, List.append_assoc, foldElements,
      nextElement_item first ((hstarts j List.mem_cons_self).append _)]
    simp only [bind, Except.bind]
    rw [hstep s j List.mem_cons_self _ (ends_itemsBytes items rest), List.foldlM_cons]
    cases hnext : next s j with
    | error e => rfl
    | ok t =>
      exact ih (fun i hi => hstarts i (List.mem_cons_of_mem _ hi))
        (fun s i hi => hstep s i (List.mem_cons_of_mem _ hi)) (Nat.lt_of_succ_lt_succ hfuel) false t

theorem endArray_end (rest : Bytes) : endArray (closeBracket :: rest) = .ok rest := by
  rw [endArray, skipBlanks_cons (by decide)]
  exact if_pos rfl

theorem foldlM_cons_ok {ε α : Type} (items acc : List α) :
    items.foldlM (fun acc a => (.ok (a :: acc) : Except ε (List α))) acc =
      .ok (items.reverse ++ acc) := by
  induction items generalizing acc with
  | nil => rfl
  | cons a items ih =>
    rw [List.foldlM_cons, List.reverse_cons, List.append_assoc]
    exact ih (a :: acc)

def keepItem (item : Bytes → Outcome (Json × Bytes)) (items : List Json) (bs : Bytes) :
    Outcome (List Json × Bytes) := do
  let (a, rest) ← item bs
  return (a :: items, rest)

theorem array_eq (item : Bytes → Outcome (Json × Bytes)) (bs : Bytes) :
    array item bs = do
      let (items, rest) ← foldElements (keepItem item) (bs.length + 1) true [] bs
      return (items.reverse, ← endArray rest) :=
  rfl

theorem array_items {item : Bytes → Outcome (Json × Bytes)} {items : List Json}
    (hstarts : ∀ j ∈ items, Starts j.bytes)
    (hitem : ∀ j ∈ items, ∀ rest, Ends rest → item (j.bytes ++ rest) = .ok (j, rest))
    (rest : Bytes) :
    array item (Utf8.encodeChars (itemsText items) ++ rest) = .ok (items, rest) := by
  have hstep : ∀ s, ∀ j ∈ items, ∀ rest, Ends rest →
      keepItem item s (j.bytes ++ rest) = (Except.ok (j :: s)).map (·, rest) := by
    intro s j hj rest hrest
    rw [keepItem, hitem j hj rest hrest]
    rfl
  have hlength := length_itemsBytes hstarts true
  rw [encodeChars_itemsText, List.append_assoc, List.singleton_append, array_eq,
    foldElements_items (fun s j => .ok (j :: s)) hstarts hstep
      (by rw [List.length_append]; omega), foldlM_cons_ok, List.append_nil]
  simp only [Except.map, bind, Except.bind, List.reverse_reverse, endArray_end]
  rfl

/-! ### Objects -/

def membersBytes : Bool → List (String × Json) → Bytes
  | _, [] => []
  | first, (key, j) :: members =>
    separator first ++ quote :: (stringRest key ++ colon :: (j.bytes ++ membersBytes false members))

theorem encodeChars_membersText_cons (key : String) (j : Json) (members : List (String × Json)) :
    Utf8.encodeChars (membersText ((key, j) :: members)) =
      quote :: (stringRest key ++ colon :: (j.bytes ++ membersBytes false members)) ++
        [closeBrace] := by
  induction members generalizing key j with
  | nil =>
    rw [membersText, Utf8.encodeChars_append, Utf8.encodeChars_append, encodeChars_stringText,
      membersBytes, List.append_nil]
    rfl
  | cons m members ih =>
    obtain ⟨k, i⟩ := m
    rw [membersText, Utf8.encodeChars_append, Utf8.encodeChars_append, encodeChars_stringText,
      Utf8.encodeChars_cons, Utf8.encodeChars_cons, ih, membersBytes]
    · simp only [List.cons_append, List.append_assoc]
      rfl
    · exact List.cons_ne_nil _ _

theorem encodeChars_membersText (members : List (String × Json)) :
    Utf8.encodeChars (membersText members) = membersBytes true members ++ [closeBrace] := by
  cases members with
  | nil => rfl
  | cons m members => exact encodeChars_membersText_cons m.1 m.2 members

theorem length_membersBytes (members : List (String × Json)) (first : Bool) :
    members.length ≤ (membersBytes first members).length := by
  induction members generalizing first with
  | nil => exact Nat.zero_le _
  | cons m members ih =>
    have hrest := ih false
    simp only [membersBytes, List.length_append, List.length_cons]
    omega

theorem ends_membersBytes (members : List (String × Json)) (rest : Bytes) :
    Ends (membersBytes false members ++ closeBrace :: rest) := by
  cases members with
  | nil =>
    rintro b ⟨⟩
    exact .inr (.inr rfl)
  | cons m members =>
    rintro b ⟨⟩
    exact .inl rfl

theorem nextKey_end (first : Bool) (rest : Bytes) :
    nextKey first (closeBrace :: rest) = .ok none := by
  rw [nextKey, skipBlanks_cons (by decide)]
  exact if_pos rfl

theorem nextKey_quote (first : Bool) (bs : Bytes) :
    nextKey first (separator first ++ quote :: bs) = .ok (some bs) := by
  cases first with
  | true =>
    rw [nextKey, separator, if_pos rfl, List.nil_append, skipBlanks_cons (by decide)]
    rfl
  | false =>
    rw [nextKey, separator, if_neg Bool.false_ne_true, List.singleton_append,
      skipBlanks_cons (by decide)]
    simp only [skipBlanks_cons (show isBlank quote = false by decide)]
    rfl

theorem endKey_colon (bs : Bytes) : endKey (colon :: bs) = .ok bs := by
  rw [endKey, skipBlanks_cons (by decide)]
  exact if_pos rfl

theorem endObject_end (rest : Bytes) : endObject (closeBrace :: rest) = .ok rest := by
  rw [endObject, skipBlanks_cons (by decide)]
  exact if_pos rfl

theorem foldMembers_members {step : σ → String → Bytes → Outcome (σ × Bytes)}
    (next : σ → String × Json → Outcome σ) {members : List (String × Json)}
    (hstep : ∀ s, ∀ m ∈ members, ∀ rest, Ends rest →
      step s m.1 (colon :: (m.2.bytes ++ rest)) = (next s m).map (·, rest))
    {fuel : Nat} (hfuel : members.length < fuel) (first : Bool) (s : σ) (rest : Bytes) :
    foldMembers string step fuel first s (membersBytes first members ++ closeBrace :: rest) =
      (members.foldlM next s).map (·, closeBrace :: rest) := by
  induction members generalizing fuel first s with
  | nil =>
    obtain ⟨fuel, rfl⟩ : ∃ n, fuel = n + 1 := ⟨fuel - 1, by simp at hfuel; omega⟩
    rw [membersBytes, List.nil_append, foldMembers, nextKey_end]
    rfl
  | cons m members ih =>
    obtain ⟨fuel, rfl⟩ : ∃ n, fuel = n + 1 := ⟨fuel - 1, by simp at hfuel; omega⟩
    have hm := hstep s m List.mem_cons_self _ (ends_membersBytes members rest)
    rw [membersBytes, List.append_assoc, List.cons_append, foldMembers, nextKey_quote]
    simp only [bind, Except.bind, List.append_assoc, List.cons_append, string_stringRest]
    rw [hm, List.foldlM_cons]
    cases hnext : next s m with
    | error e => rfl
    | ok t =>
      exact ih (fun s i hi => hstep s i (List.mem_cons_of_mem _ hi))
        (Nat.lt_of_succ_lt_succ hfuel) false t

def keepMember (item : Bytes → Outcome (Json × Bytes)) (members : List (String × Json))
    (key : String) (bs : Bytes) : Outcome (List (String × Json) × Bytes) := do
  let (a, rest) ← item (← endKey bs)
  return ((key, a) :: members, rest)

theorem object_eq (item : Bytes → Outcome (Json × Bytes)) (bs : Bytes) :
    object string item bs = do
      let (members, rest) ← foldMembers string (keepMember item) (bs.length + 1) true [] bs
      return (members.reverse, ← endObject rest) :=
  rfl

theorem object_members {item : Bytes → Outcome (Json × Bytes)} {members : List (String × Json)}
    (hitem : ∀ m ∈ members, ∀ rest, Ends rest → item (m.2.bytes ++ rest) = .ok (m.2, rest))
    (rest : Bytes) :
    object string item (Utf8.encodeChars (membersText members) ++ rest) = .ok (members, rest) := by
  have hstep : ∀ s, ∀ m ∈ members, ∀ rest, Ends rest →
      keepMember item s m.1 (colon :: (m.2.bytes ++ rest)) =
        (Except.ok (m :: s)).map (·, rest) := by
    intro s m hm rest hrest
    simp only [keepMember, endKey_colon, bind, Except.bind, hitem m hm rest hrest]
    rfl
  have hlength := length_membersBytes members true
  rw [encodeChars_membersText, List.append_assoc, List.singleton_append, object_eq,
    foldMembers_members (fun s m => .ok (m :: s)) hstep (by rw [List.length_append]; omega),
    foldlM_cons_ok, List.append_nil]
  simp only [Except.map, bind, Except.bind, List.reverse_reverse, endObject_end]
  rfl

/-! ### Values -/

theorem word_append (ws bs : Bytes) : word ws (ws ++ bs) = .ok bs := by
  induction ws with
  | nil => rw [List.nil_append, word]
  | cons w ws ih => rw [List.cons_append, word, if_pos rfl, ih]

theorem value_word {depth : Nat} {j : Json} {first : UInt8} {tail : Bytes}
    (hj : (first = letterN ∧ tail = nullTail ∧ j = .null) ∨
      (first = letterT ∧ tail = trueTail ∧ j = .bool true) ∨
      (first = letterF ∧ tail = falseTail ∧ j = .bool false)) (rest : Bytes) :
    value depth (first :: (tail ++ rest)) = .ok (j, rest) := by
  rcases hj with ⟨rfl, rfl, rfl⟩ | ⟨rfl, rfl, rfl⟩ | ⟨rfl, rfl, rfl⟩
  · rw [value.eq_def, skipBlanks_cons (by decide)]
    simp only [if_true, word_append]
    rfl
  · rw [value.eq_def, skipBlanks_cons (by decide)]
    simp only [if_neg (by decide : letterT ≠ letterN), if_true, word_append]
    rfl
  · rw [value.eq_def, skipBlanks_cons (by decide)]
    simp only [if_neg (by decide : letterF ≠ letterN), if_neg (by decide : letterF ≠ letterT),
      if_true, word_append]
    rfl

theorem value_number {depth : Nat} {b : UInt8} (h : startsNumber b = true) (bs : Bytes) :
    value depth (b :: bs) = numberValue (b :: bs) := by
  rw [value.eq_def, skipBlanks_cons (isBlank_of_startsNumber h)]
  simp only [if_neg (ne_of_startsNumber h (by decide : startsNumber letterN = false)),
    if_neg (ne_of_startsNumber h (by decide : startsNumber letterT = false)),
    if_neg (ne_of_startsNumber h (by decide : startsNumber letterF = false)), if_pos h]

theorem value_quote (depth : Nat) (bs : Bytes) :
    value depth (quote :: bs) = do
      let (s, rest) ← string bs
      return (.str s, rest) := by
  rw [value.eq_def, skipBlanks_cons (by decide)]
  simp only [if_neg (by decide : quote ≠ letterN), if_neg (by decide : quote ≠ letterT),
    if_neg (by decide : quote ≠ letterF), if_neg (by decide : ¬ startsNumber quote = true), if_true]

theorem value_string {depth : Nat} (s : String) (rest : Bytes) :
    value depth (quote :: (stringRest s ++ rest)) = .ok (.str s, rest) := by
  rw [value_quote, string_stringRest]
  rfl

theorem value_array {depth : Nat} (bs : Bytes) :
    value (depth + 1) (openBracket :: bs) = do
      let (items, rest) ← array (value depth) bs
      return (.arr items, rest) := by
  rw [value.eq_def, skipBlanks_cons (by decide)]
  rfl

theorem value_object {depth : Nat} (bs : Bytes) :
    value (depth + 1) (openBrace :: bs) = do
      let (members, rest) ← object string (value depth) bs
      return (.obj members, rest) := by
  rw [value.eq_def, skipBlanks_cons (by decide)]
  rfl

/-- A value is read back from its text, whatever ends it. -/
theorem value_bytes {depth : Nat} {j : Json} (h : Readable depth j) :
    ∀ rest, Ends rest → value depth (j.bytes ++ rest) = .ok (j, rest) := by
  induction h with
  | null => exact fun rest _ => value_word (.inl ⟨rfl, rfl, rfl⟩) rest
  | bool b =>
    cases b
    · exact fun rest _ => value_word (.inr (.inr ⟨rfl, rfl, rfl⟩)) rest
    · exact fun rest _ => value_word (.inr (.inl ⟨rfl, rfl, rfl⟩)) rest
  | int low high =>
    intro rest hrest
    obtain ⟨b, bs, hbytes, hb⟩ := startsNumber_ofInt _
    rw [bytes, text, hbytes, List.cons_append, value_number hb, ← List.cons_append, ← hbytes]
    exact numberValue_ofInt low high hrest
  | str s =>
    intro rest _
    rw [bytes_str]
    exact value_string s rest
  | arr each ih =>
    intro rest _
    have hitems := array_items (fun j hj => (each j hj).starts) ih rest
    rw [bytes_arr, List.cons_append, value_array, hitems]
    rfl
  | obj each ih =>
    intro rest _
    have hmembers := object_members ih rest
    rw [bytes_obj, List.cons_append, value_object, hmembers]
    rfl

end SandboxWorker.Json
