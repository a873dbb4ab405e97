import ClassEdit.Number.Decimal

/-!
Host values: what a caller hands to an edit as a default, a constant's value or a collection to add.
A map keeps the order in which its keys first came; `withEntry` is the only way to write to one.
Main statement: what `get?` answers after a `withEntry`.
-/

namespace ClassEdit

/-- A key of a map. An integer and a string are never the same key. -/
inductive Key where
  | int (n : Int64)
  | string (s : String)
deriving DecidableEq

inductive Value where
  | null
  | bool (b : Bool)
  | int (n : Int64)
  | float (x : Binary64)
  | string (s : String)
  | list (items : List Value)
  | map (entries : List (Key × Value))

namespace Key

def string? : Key → Option String
  | .string s => some s
  | .int _ => none

def text : Key → String
  | .string s => "\"" ++ s ++ "\""
  | .int n => toString n.toInt

end Key

namespace Value

instance : Inhabited Value := ⟨null⟩

/-- Writes to the first entry of the key, or to a new one at the end. -/
def putEntry (key : Key) (x : Value) : List (Key × Value) → List (Key × Value)
  | [] => [(key, x)]
  | (k, y) :: r => if k = key then (k, x) :: r else (k, y) :: putEntry key x r

/-- The map with one more entry, in the place of an entry of the same key. Other values stay. -/
def withEntry (v : Value) (key : Key) (x : Value) : Value :=
  match v with
  | map entries => map (putEntry key x entries)
  | v => v

def isNull : Value → Bool
  | null => true
  | _ => false

def isCollection : Value → Bool
  | list _ | map _ => true
  | _ => false

def bool? : Value → Option Bool
  | bool b => some b
  | _ => none

def int? : Value → Option Int64
  | int n => some n
  | _ => none

def float? : Value → Option Binary64
  | float x => some x
  | _ => none

def string? : Value → Option String
  | string s => some s
  | _ => none

def list? : Value → Option (List Value)
  | list items => some items
  | _ => none

def map? : Value → Option (List (Key × Value))
  | map entries => some entries
  | _ => none

def get? (v : Value) (name : String) : Option Value :=
  v.map?.bind fun entries => (entries.find? (·.1 == .string name)).map (·.2)

/-- The items of a list from a number on, under their positions. -/
def indexed (start : Nat) : List Value → List (Key × Value)
  | [] => []
  | x :: r => (.int (Int64.ofNat start), x) :: indexed (start + 1) r

/-- What a collection holds, with the key of each item. A list has its positions for keys. -/
def entries : Value → List (Key × Value)
  | list items => indexed 0 items
  | map entries => entries
  | _ => []

def typeName : Value → String
  | null => "Null"
  | bool _ => "Bool"
  | int _ => "Int"
  | float _ => "Float"
  | string _ => "String"
  | list _ => "List"
  | map _ => "Map"

mutual

/-- A value as a line of text. Strings stand between quotes as they are. -/
def text : Value → String
  | null => "null"
  | bool b => if b then "true" else "false"
  | int n => toString n.toInt
  | float x => FloatStyle.plain.write x
  | string s => "\"" ++ s ++ "\""
  | list items => "[" ++ ", ".intercalate (itemTexts items) ++ "]"
  | map entries => "\x7b" ++ ", ".intercalate (entryTexts entries) ++ "\x7d"

def itemTexts : List Value → List String
  | [] => []
  | x :: r => text x :: itemTexts r

def entryTexts : List (Key × Value) → List String
  | [] => []
  | (k, x) :: r => (k.text ++ ": " ++ text x) :: entryTexts r

end

mutual

/-- Equality of values, of floats as numbers. -/
def equals : Value → Value → Bool
  | null, null => true
  | bool a, bool b => a == b
  | int a, int b => a == b
  | float a, float b => a.numEq b
  | string a, string b => a == b
  | list a, list b => itemsEqual a b
  | map a, map b => entriesEqual a b
  | _, _ => false

def itemsEqual : List Value → List Value → Bool
  | [], [] => true
  | x :: r, y :: s => equals x y && itemsEqual r s
  | _, _ => false

def entriesEqual : List (Key × Value) → List (Key × Value) → Bool
  | [], [] => true
  | (k, x) :: r, (l, y) :: s => k == l && equals x y && entriesEqual r s
  | _, _ => false

end

/-- Under its own key the new value is found, and under any other what was there before. -/
theorem find?_putEntry (key other : Key) (x : Value) (l : List (Key × Value)) :
    ((putEntry key x l).find? (·.1 == other)).map (·.2) =
      if key = other then some x else (l.find? (·.1 == other)).map (·.2) := by
  induction l with
  | nil => by_cases h : key = other <;> simp [putEntry, h]
  | cons p r ih =>
    obtain ⟨k, y⟩ := p
    by_cases hk : k = key
    · subst hk
      by_cases h : k = other <;> simp [putEntry, h]
    · by_cases ho : k = other
      · subst ho
        simp [putEntry, hk, Ne.symm hk]
      · simpa [putEntry, hk, ho] using ih

/-- A map answers with the last value written under a key. -/
theorem get?_withEntry (entries : List (Key × Value)) (key : Key) (x : Value) (name : String) :
    ((map entries).withEntry key x).get? name =
      if key = .string name then some x else (map entries).get? name :=
  find?_putEntry key (.string name) x entries

end Value

end ClassEdit
