import ClassEdit.Number.Binary64
import ClassEdit.Text.Search

/-!
Expressions as they stand in defaults, constants and array entries. Literals that edits look into
are taken apart, and all else is kept as text.
-/

namespace ClassEdit

mutual

/-- An expression. A literal that was read keeps its spelling; one that was made has none. -/
inductive Expr where
  | string (value : String) (spelling : Option String)
  | int (value : Int64) (spelling : Option String)
  | float (value : Binary64) (spelling : Option String)
  /-- A named constant; `true`, `false` and `null` are ones too. -/
  | const (name : String)
  | array (literal : ArrayLiteral)
  | raw (text : String)

structure ArrayLiteral where
  items : List ArrayItem
  /-- Written `array(…)` and not `[…]`. -/
  long : Bool
  /-- One item on a line. -/
  multiline : Bool
  /-- The comments behind the last item. -/
  closingComments : List String

structure ArrayItem where
  /-- The comments on the lines before the item. -/
  comments : List String
  key : Option Expr
  value : Expr
  byRef : Bool
  spread : Bool
  /-- The comment behind the comma, on the same line. -/
  trailing : Option String

end

namespace ArrayLiteral

def ofItems (items : List ArrayItem) : ArrayLiteral := ⟨items, false, false, []⟩

end ArrayLiteral

namespace ArrayItem

def positional (value : Expr) : ArrayItem := ⟨[], none, value, false, false, none⟩

def keyed (key value : Expr) : ArrayItem := ⟨[], some key, value, false, false, none⟩

end ArrayItem

namespace Expr

instance : Inhabited Expr := ⟨.const "null"⟩

def null : Expr := .const "null"

def string? : Expr → Option String
  | .string value _ => some value
  | _ => none

def array? : Expr → Option ArrayLiteral
  | .array literal => some literal
  | _ => none

def isNull : Expr → Bool
  | .const name => sameWord name "null"
  | _ => false

end Expr

end ClassEdit
