import ClassEdit.Expr.Basic
import ClassEdit.Layout
import ClassEdit.Number.Decimal
import ClassEdit.Token.Scan

/-!
Writing expressions. A literal that was read is written as it was spelled; one that was made is
written in the plainest way that reads back as the same value.
-/

namespace ClassEdit

namespace Expr

/-- An integer. The least one has no literal, since its digits behind the sign are out of range. -/
def integerText (n : Int64) : String :=
  if n = Int64.minValue then "PHP_INT_MIN" else toString n.toInt

def linesAt (margin : String) (texts : List String) : String :=
  String.join (texts.map fun t => "\n" ++ margin ++ t)

mutual

/-- The expression, with its further lines behind `margin`. -/
def text (layout : Layout) (margin : String) : Expr → String
  | .string value spelling => spelling.getD (Quoted.encode value)
  | .int n spelling => spelling.getD (integerText n)
  | .float x spelling => spelling.getD (FloatStyle.literal.write x)
  | .const name => name
  | .raw code => reindent margin code
  | .array literal => arrayText layout margin literal

def arrayText (layout : Layout) (margin : String) : ArrayLiteral → String
  | ⟨items, long, multiline, closing⟩ =>
    let opening := if long then "array(" else "["
    let closer := if long then ")" else "]"
    let inner := margin ++ layout.indent
    if multiline && !(items.isEmpty && closing.isEmpty) then
      opening ++ itemLines layout inner items ++ linesAt inner (closing.map (reindent inner)) ++
        "\n" ++
        margin ++ closer
    else opening ++ commaList (itemTexts layout margin items) ++ closer

/-- The items, each on a line with its comments. -/
def itemLines (layout : Layout) (margin : String) : List ArrayItem → String
  | [] => ""
  | item :: items =>
    linesAt margin (item.comments.map (reindent margin)) ++ "\n" ++ margin ++
      itemText layout margin item ++ "," ++ (item.trailing.elim "" fun c => " " ++ c) ++
      itemLines layout margin items

def itemTexts (layout : Layout) (margin : String) : List ArrayItem → List String
  | [] => []
  | item :: items => itemText layout margin item :: itemTexts layout margin items

/-- An item without its comments. -/
def itemText (layout : Layout) (margin : String) : ArrayItem → String
  | ⟨_, key, value, byRef, spread, _⟩ =>
    (if spread then "..." else "") ++
      (match key with
        | some key => text layout margin key ++ " => "
        | none => "") ++
      (if byRef then "&" else "") ++ text layout margin value

end

end Expr

end ClassEdit
