import ClassEdit.Session.Basic

/-!
The edits that a session takes, one function for each kind. They queue named parameters: an argument
that is none is not supplied, and a value that is null is.
-/

namespace ClassEdit

namespace Session

variable (s : Session)

def request (kind : EditKind) (params : List (String × Option Value)) : Session :=
  s.enqueue ⟨kind.name, .supplied params, .builtin⟩

/-- Queues an edit of a kind that is known by its name. That there is no such kind is found out when
the queue is drained. -/
def enqueueKind (kind : String) (params : Params) : Session :=
  s.enqueue ⟨kind, params, .builtin⟩

def addRegistered (kind : String) (params : Params) : Session :=
  s.enqueue ⟨kind, params, .registered⟩

def addCustom (kind : String) (params : Params) (f : Factory) : Session :=
  s.enqueue ⟨kind, params, .factory f⟩

def addMixin (mixin : String) : Session :=
  s.request .addMixin [("mixin", some (.string mixin))]

def removeMixin (mixin : String) : Session :=
  s.request .removeMixin [("mixin", some (.string mixin))]

def addImport (path : String) (localName : Option String) : Session :=
  s.request .addImport [("path", some (.string path)), ("alias", localName.map .string)]

def removeImport (path : String) : Session :=
  s.request .removeImport [("path", some (.string path))]

def addField (name : String) (default : Option Value) (visibility : String) (type : Option String) :
    Session :=
  s.request .addField
    [("name", some (.string name)), ("default", default), ("visibility", some (.string visibility)),
      ("type", type.map .string)]

def removeField (name : String) : Session :=
  s.request .removeField [("name", some (.string name))]

def changeField (name : String) (default : Option Value) (visibility type : Option String) :
    Session :=
  s.request .changeField
    [("name", some (.string name)), ("default", default), ("visibility", visibility.map .string),
      ("type", type.map .string)]

def changeFieldType (name type : String) : Session :=
  s.request .changeFieldType [("name", some (.string name)), ("type", some (.string type))]

def changeFieldDefault (name : String) (default : Value) : Session :=
  s.request .changeFieldDefault [("name", some (.string name)), ("default", some default)]

def changeFieldVisibility (name visibility : String) : Session :=
  s.request .changeFieldVisibility
    [("name", some (.string name)), ("visibility", some (.string visibility))]

def extendCollectionField (name : String) (additions : Value) : Session :=
  s.request .extendCollectionField [("name", some (.string name)), ("additions", some additions)]

def paramList (params : List ParamSpec) : Value :=
  .list (params.map ParamSpec.toValue)

def addRoutine (name : String) (params : List ParamSpec) (body visibility : String)
    (overwrite : Bool) : Session :=
  s.request .addRoutine
    [("name", some (.string name)), ("params", some (paramList params)),
      ("body", some (.string body)),
      ("visibility", some (.string visibility)), ("override", some (.bool overwrite))]

def changeRoutine (name : String) (params : Option (List ParamSpec))
    (body visibility : Option String) : Session :=
  s.request .changeRoutine
    [("name", some (.string name)), ("params", params.map paramList), ("body", body.map .string),
      ("visibility", visibility.map .string)]

def changeRoutineBody (name body : String) : Session :=
  s.request .changeRoutineBody [("name", some (.string name)), ("body", some (.string body))]

def changeRoutineVisibility (name visibility : String) : Session :=
  s.request .changeRoutineVisibility
    [("name", some (.string name)), ("visibility", some (.string visibility))]

def removeRoutine (name : String) : Session :=
  s.request .removeRoutine [("name", some (.string name))]

def addConstant (name : String) (value : Value) (visibility : String) : Session :=
  s.request .addConstant
    [("name", some (.string name)), ("value", some value),
      ("visibility", some (.string visibility))]

def changeConstant (name : String) (value : Option Value) (visibility : Option String) : Session :=
  s.request .changeConstant
    [("name", some (.string name)), ("value", value), ("visibility", visibility.map .string)]

def removeConstant (name : String) : Session :=
  s.request .removeConstant [("name", some (.string name))]

def changeClassName (name : String) : Session :=
  s.request .changeClassName [("name", some (.string name))]

def extendClass (parent : String) : Session :=
  s.request .extendClass [("parent", some (.string parent))]

def implementInterface (interface : String) : Session :=
  s.request .implementInterface [("interface", some (.string interface))]

def changeNamespace (name : String) : Session :=
  s.request .changeNamespace [("namespace", some (.string name))]

def addNamespace (name : String) : Session :=
  s.request .addNamespace [("namespace", some (.string name))]

end Session

end ClassEdit
