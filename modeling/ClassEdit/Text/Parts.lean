/-!
A text as the parts between its separators. Main statement: the parts with the separator between
them give the text back.
-/

namespace ClassEdit

/-- The parts of a text between its separators. A text without one is its only part. -/
def parts (sep : Char) : List Char → List (List Char)
  | [] => [[]]
  | c :: r => if c = sep then [] :: parts sep r else (parts sep r).modifyHead (c :: ·)

theorem parts_ne_nil (sep : Char) (cs : List Char) : parts sep cs ≠ [] := by
  induction cs with
  | nil => simp [parts]
  | cons c r ih =>
    unfold parts
    split
    · simp
    · cases h : parts sep r <;> simp_all

/-- The parts between the separators, put together again, are the text. -/
theorem intercalate_parts (sep : Char) (cs : List Char) :
    [sep].intercalate (parts sep cs) = cs := by
  induction cs with
  | nil => rfl
  | cons c r ih =>
    unfold parts
    cases h : parts sep r with
    | nil => exact absurd h (parts_ne_nil sep r)
    | cons p ps =>
      rw [h] at ih
      split
      next hc => rw [hc, ← ih]; cases ps <;> simp [List.intercalate, List.intersperse]
      next => rw [← ih]; cases ps <;> simp [List.intercalate, List.intersperse]

end ClassEdit
