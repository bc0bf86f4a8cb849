import Mathlib.Data.List.TakeWhile
import SandboxWorker.Proofs.Archive.Headers
import SandboxWorker.Proofs.Text.FileNames
import SandboxWorker.Proofs.Text.Utf8
/-! The name of an entry that is one component of a path: as it stands in a header, and cut where it
is too long for one. -/
namespace SandboxWorker.Archive

structure IsEntryName (name : String) : Prop where
  nonempty : name ≠ ""
  no_slash : Path.slash ∉ name.toList
  no_null : '\x00' ∉ name.toList
  not_here : name ≠ "."
  not_up : name ≠ ".."

instance (name : String) : Decidable (IsEntryName name) :=
  decidable_of_iff
    (name ≠ "" ∧ Path.slash ∉ name.toList ∧ '\x00' ∉ name.toList ∧ name ≠ "." ∧ name ≠ "..")
    ⟨fun ⟨hne, hslash, hnull, hhere, hup⟩ => ⟨hne, hslash, hnull, hhere, hup⟩,
      fun h => ⟨h.nonempty, h.no_slash, h.no_null, h.not_here, h.not_up⟩⟩

theorem length_padTo {width : Nat} {bs : Bytes} (h : bs.length ≤ width) :
    (padTo width bs).length = width := by
  rw [padTo, List.length_append, List.length_replicate]
  omega

theorem le_length_padTo (width : Nat) (bs : Bytes) : width ≤ (padTo width bs).length := by
  rw [padTo, List.length_append, List.length_replicate]
  omega

section Component
variable {name : String} (h : Path.IsName name)
include h

theorem encode_ne_nil : Utf8.encode name ≠ [] := by
  intro hnil
  have hsize := Utf8.length_encode name
  rw [hnil, List.length_nil] at hsize
  exact h.nonempty (String.utf8ByteSize_eq_zero_iff.mp hsize.symm)

/-- One component is refused for its length or for a null only, and before anything is written. -/
theorem nameBytes_of_isName (cut : Bool) : nameBytes cut name =
    if (Utf8.encode name).length ≤ nameLength ∧ 0 ∉ Utf8.encode name then .ok (Utf8.encode name)
    else .error [] := by
  have hslash : name.toList.getLast? ≠ some Path.slash := fun hlast =>
    h.no_slash (List.mem_of_getLast? hlast)
  have hadd : addComponent [] (Utf8.encode name) =
      if (Utf8.encode name).length ≤ nameLength ∧ 0 ∉ Utf8.encode name
        then .ok (Utf8.encode name) else .error [] := by
    simp [addComponent, addBytes, bind, Except.bind]
  rw [nameBytes, h.components_eq, addComponents, hadd]
  simp only [if_neg hslash]
  split
  · simp only [bind, Except.bind, addComponents, if_neg (encode_ne_nil h)]
  · rfl

/-- A field is full, and holds the name alone where the name is not told before it. -/
theorem field_of_nameField {field : Bytes} {isLong : Bool}
    (hfield : nameField name = some (field, isLong)) :
    field.length = nameLength ∧ (isLong = false →
      0 ∉ Utf8.encode name ∧ field = padTo nameLength (Utf8.encode name)) := by
  unfold nameField at hfield
  split at hfield
  · rename_i written hwritten
    rw [nameBytes_of_isName h] at hwritten
    split at hwritten
    · rename_i hfits
      cases hwritten
      cases hfield
      exact ⟨length_padTo hfits.1, fun _ => ⟨hfits.2, rfl⟩⟩
    · cases hwritten
  · rename_i first hfirst
    split at hfield
    · cases hfield
    · split at hfield
      · rename_i written hwritten
        cases hfield
        have hleft := le_length_padTo nameLength first
        refine ⟨?_, nofun⟩
        rw [List.length_take, List.length_append, List.length_cons, List.length_drop]
        omega
      · cases hfield

end Component

namespace IsEntryName
variable {name : String}

theorem isName (h : IsEntryName name) : Path.IsName name :=
  ⟨h.nonempty, h.no_slash, h.not_here, h.not_up⟩

theorem zero_not_mem (h : IsEntryName name) : 0 ∉ Utf8.encode name :=
  Utf8.zero_not_mem_encodeChars h.no_null

theorem nameBytes_eq (h : IsEntryName name) (cut : Bool) :
    nameBytes cut name =
      if (Utf8.encode name).length ≤ nameLength then .ok (Utf8.encode name) else .error [] := by
  simp [nameBytes_of_isName h.isName, h.zero_not_mem]

end IsEntryName

/-! ### Cutting -/

theorem prefix_truncated (room : Nat) (cs : List Char) : truncated room cs <+: cs := by
  induction cs generalizing room with
  | nil => exact List.prefix_refl _
  | cons c cs ih =>
    rw [truncated]
    split
    · exact (List.cons_prefix_cons).mpr ⟨rfl, ih _⟩
    · exact List.nil_prefix

theorem length_truncated_le (room : Nat) (cs : List Char) :
    (Utf8.encodeChars (truncated room cs)).length ≤ room := by
  induction cs generalizing room with
  | nil => exact Nat.zero_le _
  | cons c cs ih =>
    rw [truncated]
    split
    · have hrest := ih (room - c.utf8Size)
      rw [Utf8.encodeChars_cons, List.length_append, String.length_utf8EncodeChar]
      omega
    · exact Nat.zero_le _

theorem lt_length_truncated {room : Nat} {cs : List Char}
    (h : room ≤ (Utf8.encodeChars cs).length) :
    room < (Utf8.encodeChars (truncated room cs)).length + 4 := by
  induction cs generalizing room with
  | nil =>
    rw [Utf8.encodeChars_nil, List.length_nil] at h
    omega
  | cons c cs ih =>
    have hc := c.utf8Size_le_four
    rw [Utf8.encodeChars_cons, List.length_append, String.length_utf8EncodeChar] at h
    rw [truncated]
    split
    · have hroom : room - c.utf8Size ≤ (Utf8.encodeChars cs).length := by omega
      have hrest := ih hroom
      rw [Utf8.encodeChars_cons, List.length_append, String.length_utf8EncodeChar]
      omega
    · simp only [Utf8.encodeChars_nil, List.length_nil]
      omega

/-- A beginning of a name is a name too, if it is too long to be a dot or two. -/
theorem isName_of_prefix {name : String} (h : Path.IsName name) {cut : List Char}
    (hcut : cut <+: name.toList) (hlong : 2 < (Utf8.encodeChars cut).length) :
    Path.IsName (String.ofList cut) := by
  have hother : ∀ s : String, (Utf8.encode s).length ≤ 2 → String.ofList cut ≠ s := by
    rintro s hs rfl
    rw [Utf8.encode, String.toList_ofList] at hs
    exact Nat.not_lt.mpr hs hlong
  refine ⟨hother _ (by decide), ?_, hother _ (by decide), hother _ (by decide)⟩
  rw [String.toList_ofList]
  exact fun hslash => h.no_slash (hcut.subset hslash)

theorem isName_truncated {name : String} (h : Path.IsName name)
    (hlong : nameLength ≤ (Utf8.encode name).length) :
    Path.IsName (String.ofList (truncated nameLength name.toList)) := by
  refine isName_of_prefix h (prefix_truncated _ _) ?_
  have hsize := lt_length_truncated hlong
  rw [nameLength] at hsize ⊢
  omega

/-- A name up to its first null, as programs read it that end texts with one. -/
def upToNull (name : String) : String := String.ofList (name.toList.takeWhile (· ≠ '\x00'))

/-- Where nulls are not refused, they come behind what a header holds. -/
theorem isName_upToNull {name : String} (h : Path.IsName name) {field : Bytes} {isLong : Bool}
    (hfield : nameField name = some (field, isLong)) : Path.IsName (upToNull name) := by
  have hwhole {cs : List Char} (hzero : 0 ∉ Utf8.encodeChars cs) :
      ∀ c ∈ cs, decide (c ≠ '\x00') = true := by
    refine fun c hc => decide_eq_true fun hnull => hzero ?_
    exact List.mem_flatMap.mpr ⟨c, hc, hnull ▸ by decide⟩
  unfold nameField at hfield
  split at hfield
  · rename_i written hwritten
    rw [nameBytes_of_isName h] at hwritten
    split at hwritten
    · rename_i hfits
      rw [upToNull, List.takeWhile_eq_self_iff.mpr (hwhole hfits.2), String.ofList_toList]
      exact h
    · cases hwritten
  · split at hfield
    · cases hfield
    · rename_i hsize
      rw [← Utf8.length_encode, Nat.not_lt] at hsize
      split at hfield
      · rename_i written hwritten
        rw [nameBytes_of_isName (isName_truncated h hsize), Utf8.encode, String.toList_ofList]
          at hwritten
        split at hwritten
        · rename_i hfits
          obtain ⟨behind, hbehind⟩ := prefix_truncated nameLength name.toList
          have hlong := lt_length_truncated hsize
          refine isName_of_prefix h (List.takeWhile_prefix _) ?_
          rw [← hbehind, List.takeWhile_append_of_pos (hwhole hfits.2), Utf8.encodeChars_append,
            List.length_append]
          rw [nameLength] at hlong ⊢
          omega
        · cases hwritten
      · cases hfield

theorem IsEntryName.truncated {name : String} (h : IsEntryName name)
    (hlong : nameLength < (Utf8.encode name).length) :
    IsEntryName (String.ofList (truncated nameLength name.toList)) := by
  obtain ⟨hne, hslash, hhere, hup⟩ := isName_truncated h.isName (Nat.le_of_lt hlong)
  refine ⟨hne, hslash, ?_, hhere, hup⟩
  rw [String.toList_ofList]
  exact fun hnull => h.no_null ((prefix_truncated _ _).subset hnull)

namespace IsEntryName
variable {name : String}

theorem nameField_short (h : IsEntryName name) (hshort : (Utf8.encode name).length ≤ nameLength) :
    nameField name = some (padTo nameLength (Utf8.encode name), false) := by
  rw [nameField, h.nameBytes_eq, if_pos hshort]

theorem nameField_long (h : IsEntryName name) (hlong : nameLength < (Utf8.encode name).length) :
    ∃ field, nameField name = some (field, true) ∧ field.length = nameLength := by
  obtain ⟨cut, hcut⟩ : ∃ cut, Archive.truncated nameLength name.toList = cut := ⟨_, rfl⟩
  have hsize := length_truncated_le nameLength name.toList
  have hname := h.truncated hlong
  rw [hcut] at hsize hname
  have hfirst : nameBytes false name = .error [] := by
    rw [h.nameBytes_eq, if_neg (by omega)]
  have hsecond : nameBytes true (String.ofList cut) = .ok (Utf8.encodeChars cut) := by
    rw [hname.nameBytes_eq, Utf8.encode, String.toList_ofList, if_pos hsize]
  have hsuffices : ¬name.utf8ByteSize < nameLength := by
    rw [← Utf8.length_encode]
    omega
  have hfield : nameField name = some ((Utf8.encodeChars cut ++ 0 :: (padTo nameLength []).drop
      ((Utf8.encodeChars cut).length + 1)).take nameLength, true) := by
    rw [nameField, hfirst, hcut]
    simp only [if_neg hsuffices, hsecond]
  exact ⟨_, hfield, (field_of_nameField h.isName hfield).1⟩

end IsEntryName
end SandboxWorker.Archive
