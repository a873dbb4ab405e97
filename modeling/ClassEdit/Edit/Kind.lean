/-!
The kinds of edits that can be asked for by name, and the names of their parameters in the order in
which a constructor takes them.
-/

namespace ClassEdit

inductive EditKind where
  | addMixin
  | removeMixin
  | addImport
  | removeImport
  | addField
  | removeField
  | changeField
  | changeFieldType
  | changeFieldDefault
  | changeFieldVisibility
  | extendCollectionField
  | addRoutine
  | changeRoutine
  | changeRoutineBody
  | changeRoutineVisibility
  | removeRoutine
  | addConstant
  | changeConstant
  | removeConstant
  | changeClassName
  | changeNamespace
  | addNamespace
  | extendClass
  | implementInterface
deriving DecidableEq

namespace EditKind

def all : List EditKind :=
  [addMixin, removeMixin, addImport, removeImport, addField, removeField,
    changeField, changeFieldType,
    changeFieldDefault, changeFieldVisibility, extendCollectionField, addRoutine, changeRoutine,
    changeRoutineBody, changeRoutineVisibility, removeRoutine, addConstant, changeConstant,
    removeConstant, changeClassName, changeNamespace, addNamespace, extendClass, implementInterface]

def name : EditKind → String
  | addMixin => "add_mixin"
  | removeMixin => "remove_mixin"
  | addImport => "add_import"
  | removeImport => "remove_import"
  | addField => "add_field"
  | removeField => "remove_field"
  | changeField => "change_field"
  | changeFieldType => "change_field_type"
  | changeFieldDefault => "change_field_default"
  | changeFieldVisibility => "change_field_visibility"
  | extendCollectionField => "extend_collection_field"
  | addRoutine => "add_routine"
  | changeRoutine => "change_routine"
  | changeRoutineBody => "change_routine_body"
  | changeRoutineVisibility => "change_routine_visibility"
  | removeRoutine => "remove_routine"
  | addConstant => "add_constant"
  | changeConstant => "change_constant"
  | removeConstant => "remove_constant"
  | changeClassName => "change_class_name"
  | changeNamespace => "change_namespace"
  | addNamespace => "add_namespace"
  | extendClass => "extend_class"
  | implementInterface => "implement_interface"

def paramNames : EditKind → List String
  | addMixin | removeMixin => ["mixin"]
  | addImport => ["path", "alias"]
  | removeImport => ["path"]
  | addField | changeField => ["name", "default", "visibility", "type"]
  | changeFieldType => ["name", "type"]
  | changeFieldDefault => ["name", "default"]
  | changeFieldVisibility | changeRoutineVisibility => ["name", "visibility"]
  | extendCollectionField => ["name", "additions"]
  | addRoutine => ["name", "params", "body", "visibility", "override"]
  | changeRoutine => ["name", "params", "body", "visibility"]
  | changeRoutineBody => ["name", "body"]
  | addConstant | changeConstant => ["name", "value", "visibility"]
  | removeField | removeRoutine | removeConstant | changeClassName => ["name"]
  | changeNamespace | addNamespace => ["namespace"]
  | extendClass => ["parent"]
  | implementInterface => ["interface"]

def ofName? (s : String) : Option EditKind :=
  all.find? (·.name == s)

theorem mem_all (k : EditKind) : k ∈ all := by
  cases k <;> simp [all]

theorem ofName?_name (k : EditKind) : ofName? k.name = some k := by
  cases k <;> rfl

end EditKind

end ClassEdit
