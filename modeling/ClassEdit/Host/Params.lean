import ClassEdit.Host.Value
import ClassEdit.NameMap

/-!
The named parameters of an edit. A name that is missing and a name that holds null are different
things: what is missing was not supplied.
-/

namespace ClassEdit

abbrev Params := NameMap Value

namespace Params

def empty : Params := NameMap.empty

def add (p : Params) (name : String) (x : Value) : Params :=
  p.insert name x

/-- The parameters with one more if there is a value for it. -/
def addOption (p : Params) (name : String) (x : Option Value) : Params :=
  match x with
  | some x => p.add name x
  | none => p

def supplied (l : List (String × Option Value)) : Params :=
  l.foldl (fun p e => p.addOption e.1 e.2) empty

def toValue (p : Params) : Value :=
  .map (p.entries.map fun e => (.string e.1, e.2))

/-- The string keys of a map and their values; the last of several values counts. Integer keys are
left out, and any other value has no parameters. -/
def ofValue (v : Value) : Params :=
  NameMap.ofList (((v.map?).getD []).filterMap fun e => e.1.string?.map fun name => (name, e.2))

def withoutNulls (p : Params) : Params :=
  NameMap.ofList (p.entries.filter fun e => !e.2.isNull)

def equals (p q : Params) : Bool :=
  p.names == q.names && Value.itemsEqual (p.entries.map (·.2)) (q.entries.map (·.2))

end Params

end ClassEdit
