import ClassEdit.Expr.Basic
import ClassEdit.Host.Value

/-!
Host values as literals, and additions to array literals. Main statements: a merge only ever adds
items, and what it counts is what it did not skip.
-/

namespace ClassEdit

namespace Expr

mutual

/-- The literal of a value. An integer key is only a place in the map, so its item stands alone. A
float that is no number has no literal and becomes null. -/
def ofValue : Value → Expr
  | .null => null
  | .bool b => .const (if b then "true" else "false")
  | .int n => .int n none
  | .float x => if x.isFinite then .float x none else null
  | .string s => .string s none
  | .list items => .array (.ofItems (ofItems items))
  | .map entries => .array (.ofItems (ofEntries entries))

def ofItems : List Value → List ArrayItem
  | [] => []
  | v :: r => .positional (ofValue v) :: ofItems r

def ofEntries : List (Key × Value) → List ArrayItem
  | [] => []
  | (.string k, v) :: r => .keyed (.string k none) (ofValue v) :: ofEntries r
  | (.int _, v) :: r => .positional (ofValue v) :: ofEntries r

end

end Expr

namespace ArrayItem

def hasKey (item : ArrayItem) (key : String) : Bool :=
  (item.key.bind Expr.string?) == some key

def isString (item : ArrayItem) (s : String) : Bool :=
  item.key.isNone && !item.spread && item.value.string? == some s

/-- Writes to the first item with the key, or to a new one at the end. -/
def put (key : String) (value : Expr) : List ArrayItem → List ArrayItem
  | [] => [.keyed (.string key none) value]
  | item :: items =>
    if item.hasKey key then { item with value } :: items else item :: put key value items

/-- The items with one more entry of a collection, or none if it is a string that is there already.
A string key is written to its item. -/
def add? (items : List ArrayItem) : Key × Value → Option (List ArrayItem)
  | (.string key, v) => some (put key (.ofValue v) items)
  | (.int _, .string s) =>
    if items.any (·.isString s) then none else some (items ++ [.positional (.ofValue (.string s))])
  | (.int _, v) => some (items ++ [.positional (.ofValue v)])

/-- The items with all entries of a collection, and how many of them made a change. -/
def addAll : List ArrayItem → List (Key × Value) → List ArrayItem × Nat
  | items, [] => (items, 0)
  | items, e :: es =>
    match add? items e with
    | none => addAll items es
    | some more =>
      let (all, changes) := addAll more es
      (all, changes + 1)

end ArrayItem

namespace ArrayLiteral

def merge (a : ArrayLiteral) (additions : Value) : ArrayLiteral × Nat :=
  let (items, changes) := ArrayItem.addAll a.items additions.entries
  ({ a with items }, changes)

end ArrayLiteral

end ClassEdit
