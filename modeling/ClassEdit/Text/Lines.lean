import ClassEdit.Text.Blank

/-!
Texts as lines. Moving code to another indentation must not touch the lines that begin inside a
string literal, since there the blanks are data; a text is therefore cut from characters that
carry a mark, and a line remembers the mark of the newline before it. `dedent` and `indentLines`
are the two directions. Main statements: cutting and joining gives the text back, and a line that
is data is indented by nothing.
-/

namespace ClassEdit

/-- A character, and whether it belongs to a string literal. -/
abbrev MarkedChar := Char × Bool

/-- One line of a text, without its newline. -/
structure Line where
  /-- The line begins inside a string literal, or has no newline before it. -/
  isData : Bool
  text : List Char
deriving DecidableEq

namespace Line

def push (isData : Bool) (c : Char) : List Line → List Line
  | l :: ls => { l with text := c :: l.text } :: ls
  | [] => [⟨isData, [c]⟩]

/-- Cuts a marked text at its newlines. The flag says whether the first line is data. -/
def ofMarked : Bool → List MarkedChar → List Line
  | isData, [] => [⟨isData, []⟩]
  | isData, (c, mark) :: r =>
    if c = '\n' then ⟨isData, []⟩ :: ofMarked mark r else push isData c (ofMarked isData r)

def join : List (List Char) → List Char
  | [] => []
  | [l] => l
  | l :: ls => l ++ '\n' :: join ls

/-- The line without the carriage returns at its end and without up to `width` leading blanks. -/
def dedent (width : Nat) (l : Line) : List Char :=
  let text := dropEndWhile (· == '\r') l.text
  if l.isData then text else text.drop (min width (text.takeWhile isMargin).length)

/-- The line behind `margin`; a line of blanks alone stays as it is. -/
def indent (margin : List Char) (l : Line) : List Char :=
  if l.isData || l.text.all isBlank then l.text else margin ++ l.text

theorem indent_of_isData (margin : List Char) {l : Line} (h : l.isData = true) :
    l.indent margin = l.text := by
  simp [indent, h]

theorem ofMarked_ne_nil (isData : Bool) (cs : List MarkedChar) : ofMarked isData cs ≠ [] := by
  cases cs with
  | nil => simp [ofMarked]
  | cons x r =>
    obtain ⟨c, mark⟩ := x
    by_cases h : c = '\n'
    · simp [ofMarked, h]
    · cases hr : ofMarked isData r <;> simp [ofMarked, h, push, hr]

theorem join_cons {l : List Char} {ls : List (List Char)} (h : ls ≠ []) :
    join (l :: ls) = l ++ '\n' :: join ls := by
  cases ls with
  | nil => exact absurd rfl h
  | cons => rfl

/-- Nothing is lost by cutting a text into lines. -/
theorem join_ofMarked (isData : Bool) (cs : List MarkedChar) :
    join ((ofMarked isData cs).map (·.text)) = cs.map (·.1) := by
  induction cs generalizing isData with
  | nil => rfl
  | cons x r ih =>
    obtain ⟨c, mark⟩ := x
    by_cases h : c = '\n'
    · rw [ofMarked, if_pos h, List.map_cons, join_cons (by simp [ofMarked_ne_nil]), ih]
      simp [h]
    · rw [ofMarked, if_neg h, List.map_cons, ← ih isData]
      cases hr : ofMarked isData r with
      | nil => exact absurd hr (ofMarked_ne_nil _ _)
      | cons l ls => cases ls <;> simp [push, join]

end Line

/-- A text moved left: every line that is not data loses up to `width` leading blanks, and no line
keeps a carriage return at its end. -/
def dedent (width : Nat) (cs : List MarkedChar) : List Char :=
  Line.join ((Line.ofMarked true cs).map (Line.dedent width))

/-- A text moved right: every line that is neither data nor blank stands behind `margin`. -/
def indentLines (margin : List Char) (cs : List MarkedChar) : List Char :=
  Line.join ((Line.ofMarked true cs).map (Line.indent margin))

end ClassEdit
