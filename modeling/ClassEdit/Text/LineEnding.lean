/-!
Line endings. A program is printed with newlines alone, and the ending asked for is put in last.
-/

namespace ClassEdit.LineEnding

/-- The pairs of carriage return and newline in a text. -/
def countPairs : List Char → Nat
  | '\r' :: '\n' :: r => countPairs r + 1
  | _ :: r => countPairs r
  | [] => 0

/-- The ending of most lines. Equal counts go to the lone newline. -/
def dominant (text : String) : String :=
  let pairs := countPairs text.toList
  if pairs > text.toList.count '\n' - pairs then "\r\n" else "\n"

/-- Each pair of carriage return and newline becomes a newline. -/
def normalize : List Char → List Char
  | '\r' :: '\n' :: r => '\n' :: normalize r
  | c :: r => c :: normalize r
  | [] => []

/-- Each newline becomes the given ending. -/
def replaceWith (ending : List Char) (cs : List Char) : List Char :=
  cs.flatMap fun c => if c = '\n' then ending else [c]

theorem replaceWith_newline (cs : List Char) : replaceWith ['\n'] cs = cs := by
  induction cs with
  | nil => rfl
  | cons c r ih =>
    simp only [replaceWith, List.flatMap_cons] at ih ⊢
    by_cases h : c = '\n' <;> simp [h, ih]

end ClassEdit.LineEnding
