/-! Text cut at every occurrence of a character. -/
namespace SandboxWorker.Text

/-- The parts between separators; there is one more part than separators. -/
def split (separator : Char) : List Char → List (List Char)
  | [] => [[]]
  | c :: cs =>
    if c = separator then [] :: split separator cs
    else
      match split separator cs with
      | part :: parts => (c :: part) :: parts
      | [] => [[c]]

theorem split_ne_nil (separator : Char) (cs : List Char) : split separator cs ≠ [] := by
  cases cs with
  | nil => simp [split]
  | cons c cs =>
    rw [split]
    split
    · simp
    · split <;> simp

theorem intercalate_split (separator : Char) (cs : List Char) :
    List.intercalate [separator] (split separator cs) = cs := by
  induction cs with
  | nil => rfl
  | cons c cs ih =>
    rw [split]
    split
    · rename_i h
      subst h
      cases hs : split c cs with
      | nil => exact absurd hs (split_ne_nil c cs)
      | cons part parts => rw [hs] at ih; simp [List.intercalate] at ih ⊢; exact ih
    · split
      · rename_i part parts hs
        rw [hs] at ih
        cases parts <;> simp_all [List.intercalate]
      · rename_i hs
        exact absurd hs (split_ne_nil separator cs)

end SandboxWorker.Text
