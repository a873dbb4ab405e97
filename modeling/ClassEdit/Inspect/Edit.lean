import ClassEdit.Edit.Registry
import ClassEdit.Inspect.Basic

/-!
Host values, parameters, outcomes, descriptors and registries written out. Of an action
or a constructor nothing can be shown, so a descriptor shows where its action comes from
and a registry its kinds.
-/

namespace ClassEdit

open Inspect

namespace Key

def inspected : Key → String
  | int n => variant "Int" [toString n.toInt]
  | string s => variant "String" [quoted s]

end Key

namespace Value

mutual

def inspected : Value → String
  | null => "Null"
  | bool b => variant "Bool" [inspect b]
  | int n => variant "Int" [toString n.toInt]
  | float x => variant "Float" [FloatStyle.inspected.write x]
  | string s => variant "String" [quoted s]
  | list items => variant "List" [Inspect.list (inspectedItems items)]
  | map entries => variant "Map" [Inspect.list (inspectedEntries entries)]

def inspectedItems : List Value → List String
  | [] => []
  | x :: r => inspected x :: inspectedItems r

def inspectedEntries : List (Key × Value) → List String
  | [] => []
  | (k, x) :: r => variant "" [k.inspected, inspected x] :: inspectedEntries r

end

end Value

instance : Inspect Key := ⟨Key.inspected⟩

instance : Inspect Value := ⟨Value.inspected⟩

instance : Inspect Params where
  inspect p :=
  record "Params" [("entries", Inspect.map (p.entries.map fun e => (e.1, inspect e.2)))]

instance : Inspect Outcome where
  inspect
    | .applied => "Applied"
    | .skipped .duplicate => variant "Skipped" ["Duplicate"]
    | .skipped .notFound => variant "Skipped" ["NotFound"]

instance : Inspect Descriptor where
  inspect d :=
    record "Descriptor"
      [("kind", inspect d.kind), ("params", inspect d.params), ("source", inspect d.source.name)]

instance : Inspect Registry where
  inspect r := record "OperationRegistry" [("kinds", inspect r.names)]

end ClassEdit
