import SandboxWorker.Json.Tagged
import SandboxWorker.Proofs.Json.Values
/-! A tagged object is read back as its tag and its other members. -/
namespace SandboxWorker.Json

variable {κ : Type} (field : String) (all : List κ) (name : κ → String)

theorem tag_bytes (found : String) (rest : Bytes) :
    tag all name ((str found).bytes ++ rest) =
      (lift (Wire.named all name found)).map (·, rest) := by
  rw [tag, bytes_str, List.cons_append]
  simp only [Wire.string, skipBlanks_cons (show isBlank quote = false by decide), if_true,
    string_stringRest, bind, Except.bind]
  cases lift (Wire.named all name found) <;> rfl

def taggedNext (s : Option κ × List (String × Json)) (m : String × Json) :
    Outcome (Option κ × List (String × Json)) :=
  if m.1 = field then
    match s.1, m.2 with
    | none, .str found => do return (some (← lift (Wire.named all name found)), s.2)
    | none, _ => .error (.data .invalidType)
    | some _, _ => .error (.data (.duplicateField field))
  else .ok (s.1, m :: s.2)

theorem taggedMember_tag (s : Option κ × List (String × Json)) (found : String) (rest : Bytes) :
    taggedMember field all name s field (colon :: ((str found).bytes ++ rest)) =
      (taggedNext field all name s (field, .str found)).map (·, rest) := by
  rw [taggedMember, taggedNext, if_pos rfl, if_pos rfl]
  cases hs : s.1 with
  | none =>
    simp only [Option.isSome_none, Bool.false_eq_true, if_false, endKey_colon, tag_bytes, bind,
      Except.bind]
    cases lift (Wire.named all name found) <;> rfl
  | some k => rfl

theorem taggedMember_other (s : Option κ × List (String × Json)) {m : String × Json}
    (hfield : m.1 ≠ field) (hreadable : Readable (maxDepth - 1) m.2) {rest : Bytes}
    (hrest : Ends rest) :
    taggedMember field all name s m.1 (colon :: (m.2.bytes ++ rest)) =
      (taggedNext field all name s m).map (·, rest) := by
  rw [taggedMember, taggedNext, if_neg hfield, if_neg hfield]
  simp only [endKey_colon, value_bytes hreadable rest hrest, bind, Except.bind]
  rfl

theorem foldlM_taggedNext {members : List (String × Json)} (h : ∀ m ∈ members, m.1 ≠ field)
    (s : Option κ × List (String × Json)) :
    members.foldlM (taggedNext field all name) s = .ok (s.1, members.reverse ++ s.2) := by
  induction members generalizing s with
  | nil => rfl
  | cons m members ih =>
    rw [List.foldlM_cons, taggedNext, if_neg (h m List.mem_cons_self), List.reverse_cons,
      List.append_assoc]
    exact ih (fun i hi => h i (List.mem_cons_of_mem _ hi)) _

variable {field all name}

theorem tagged_bytes {k : κ} (hk : all.find? (name · == name k) = some k)
    {members : List (String × Json)} (hother : ∀ m ∈ members, m.1 ≠ field)
    (hreadable : ∀ m ∈ members, Readable (maxDepth - 1) m.2) (rest : Bytes) :
    tagged field all name ((obj ((field, .str (name k)) :: members)).bytes ++ rest) =
      .ok ((k, .obj members), rest) := by
  have hstep : ∀ s, ∀ m ∈ (field, .str (name k)) :: members, ∀ rest, Ends rest →
      taggedMember field all name s m.1 (colon :: (m.2.bytes ++ rest)) =
        (taggedNext field all name s m).map (·, rest) := by
    intro s m hm rest hrest
    rcases List.mem_cons.mp hm with rfl | hm
    · exact taggedMember_tag field all name s (name k) rest
    · exact taggedMember_other field all name s (hother m hm) (hreadable m hm) hrest
  have hlength := length_membersBytes ((field, .str (name k)) :: members) true
  have hfirst : taggedNext field all name (none, []) (field, .str (name k)) = .ok (some k, []) := by
    simp only [taggedNext, if_true, Wire.named, hk]
    rfl
  have hfold : ((field, Json.str (name k)) :: members).foldlM (taggedNext field all name) (none, [])
      = .ok (some k, members.reverse) := by
    rw [List.foldlM_cons, hfirst]
    exact (foldlM_taggedNext field all name hother _).trans (by rw [List.append_nil])
  rw [tagged, bytes_obj, List.cons_append, skipBlanks_cons (by decide), encodeChars_membersText,
    List.append_assoc, List.singleton_append]
  simp only [if_true]
  rw [foldMembers_members (taggedNext field all name) hstep (by rw [List.length_append]; omega),
    hfold]
  simp only [Except.map, bind, Except.bind, endObject_end, List.reverse_reverse]
  rfl

end SandboxWorker.Json
