import ClassEdit.Edit.Kind
import ClassEdit.Edit.Operation
import ClassEdit.Host.Params

/-!
Operations built from a kind and named parameters. A parameter that is missing was not supplied;
null counts as missing wherever a text, a flag or a list is wanted, and as a value of its own
wherever any value will do.
-/

namespace ClassEdit

/-- What a parameter should have been. -/
inductive Wanted where
  | string
  | value
  | collection
  | flag
  | visibility
  | param
  | params
deriving DecidableEq

namespace Wanted

def text : Wanted → String
  | string => "string"
  | value => "value"
  | collection => "list or map"
  | flag => "bool"
  | visibility => "public, protected or private"
  | param => "parameter name or \x7bname, type, default\x7d"
  | params => "list of parameters"

end Wanted

/-- Why no operation could be built. -/
inductive EditError where
  | unknownKind (kind : String)
  | invalidParam (kind : EditKind) (param : String) (wanted : Wanted)
deriving DecidableEq

namespace EditError

def kind : EditError → String
  | unknownKind kind => kind
  | invalidParam kind .. => kind.name

def message : EditError → String
  | unknownKind kind => "Unknown operation: " ++ kind
  | invalidParam kind param wanted =>
    "Invalid parameter '" ++ param ++ "' for " ++ kind.name ++ ": expected " ++ wanted.text

end EditError

/-- A kind and the parameters for it. -/
structure Request where
  kind : EditKind
  params : Params

namespace Request

variable (r : Request)

def invalid {α : Type} (param : String) (wanted : Wanted) : Except EditError α :=
  .error (.invalidParam r.kind param wanted)

/-- The value, or the error that it should have been something else. -/
def require {α : Type} (param : String) (wanted : Wanted) (x : Option α) : Except EditError α :=
  match x with
  | some x => .ok x
  | none => r.invalid param wanted

def string? (param : String) : Except EditError (Option String) :=
  match r.params.get? param with
  | none | some .null => .ok none
  | some (.string s) => .ok (some s)
  | some _ => r.invalid param .string

def string (param : String) : Except EditError String := do
  r.require param .string (← r.string? param)

def value? (param : String) : Option Value :=
  r.params.get? param

def value (param : String) : Except EditError Value :=
  r.require param .value (r.value? param)

def collection (param : String) : Except EditError Value :=
  r.require param .collection ((r.params.get? param).filter Value.isCollection)

def flag (param : String) : Except EditError Bool :=
  match r.params.get? param with
  | none | some .null => .ok false
  | some (.bool b) => .ok b
  | some _ => r.invalid param .flag

/-- A visibility. A word that is none counts as missing. -/
def visibility? (param : String) : Except EditError (Option Visibility) := do
  return (← r.string? param).bind Visibility.ofKeyword?

/-- A visibility that there must be, for the kinds that change nothing else. -/
def visibility (param : String) : Except EditError Visibility := do
  r.require param .visibility (← r.visibility? param)

def params? (param : String) : Except EditError (Option (List ParamSpec)) :=
  match r.params.get? param with
  | none | some .null => .ok none
  | some (.list items) => some <$> items.mapM fun v => r.require param .param (ParamSpec.ofValue? v)
  | some _ => r.invalid param .params

end Request

namespace FieldSpec

def named (name : String) : FieldSpec := ⟨fieldName name, none, none, none⟩

end FieldSpec

namespace RoutineChange

def named (name : String) : RoutineChange := ⟨name, none, none, none⟩

end RoutineChange

namespace Operation

def fieldOf (r : Request) : Except EditError FieldSpec := do
  let field := FieldSpec.named (← r.string "name")
  let visibility ← r.visibility? "visibility"
  return { field with default := r.value? "default", visibility, type := ← r.string? "type" }

def importOf (path : String) (localName : Option String) : Operation :=
  .addImport path (localName.filter (!·.isEmpty))

/-- The operation of a request. Where several parameters are wrong, the first that is read tells the
error. -/
def ofRequest (r : Request) : Except EditError Operation := do
  match r.kind with
  | .addMixin => return .addMixin (← r.string "mixin")
  | .removeMixin => return .removeMixin (← r.string "mixin")
  | .addImport => return importOf (← r.string "path") (← r.string? "alias")
  | .removeImport => return .removeImport (← r.string "path")
  | .addField => return .addField (← fieldOf r)
  | .removeField => return .removeField (fieldName (← r.string "name"))
  | .changeField => return .changeField (← fieldOf r)
  | .changeFieldType =>
    let field := FieldSpec.named (← r.string "name")
    return .changeField { field with type := some (← r.string "type") }
  | .changeFieldDefault =>
    let field := FieldSpec.named (← r.string "name")
    return .changeField { field with default := some (← r.value "default") }
  | .changeFieldVisibility =>
    let field := FieldSpec.named (← r.string "name")
    return .changeField { field with visibility := some (← r.visibility "visibility") }
  | .extendCollectionField =>
    return .extendField (fieldName (← r.string "name")) (← r.collection "additions")
  | .addRoutine =>
    let name ← r.string "name"
    let params ← r.params? "params"
    let body ← r.string? "body"
    let visibility ← r.visibility? "visibility"
    let overwrite ← r.flag "override"
    return .addRoutine ⟨name, params.getD [], body.getD "", visibility, overwrite⟩
  | .changeRoutine =>
    let name ← r.string "name"
    let visibility ← r.visibility? "visibility"
    let params ← r.params? "params"
    let body ← r.string? "body"
    return .changeRoutine { name, params, body, visibility }
  | .changeRoutineBody =>
    let change := RoutineChange.named (← r.string "name")
    return .changeRoutine { change with body := some ((← r.string? "body").getD "") }
  | .changeRoutineVisibility =>
    let change := RoutineChange.named (← r.string "name")
    return .changeRoutine { change with visibility := some (← r.visibility "visibility") }
  | .removeRoutine => return .removeRoutine (← r.string "name")
  | .addConstant =>
    let name ← r.string "name"
    let value ← r.value "value"
    return .addConstant name value (← r.visibility? "visibility")
  | .changeConstant =>
    let name ← r.string "name"
    return .changeConstant name (r.value? "value") (← r.visibility? "visibility")
  | .removeConstant => return .removeConstant (← r.string "name")
  | .changeClassName => return .renameClass (← r.string "name")
  | .changeNamespace => return .changeNamespace (← r.string "namespace")
  | .addNamespace => return .addNamespace (← r.string "namespace")
  | .extendClass => return .extendClass (← r.string "parent")
  | .implementInterface => return .implementInterface (← r.string "interface")

def ofParams (kind : String) (params : Params) : Except EditError Operation :=
  match EditKind.ofName? kind with
  | some k => ofRequest ⟨k, params⟩
  | none => .error (.unknownKind kind)

end Operation

end ClassEdit
