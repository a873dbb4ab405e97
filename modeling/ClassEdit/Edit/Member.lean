import ClassEdit.Edit.Outcome
import ClassEdit.Edit.Place
import ClassEdit.Expr.OfValue
import ClassEdit.Fragment.Split

/-!
Edits of one class: its mixins, constants, fields and routines, and its header. Each is an `Edit` of
the class, named for what it does.
-/

namespace ClassEdit

/-- A name without the separator that marks it as whole. -/
def bareName (name : String) : String :=
  match name.toList with
  | '\\' :: r => String.ofList r
  | _ => name

/-- The name of a field without its sigil. -/
def fieldName (name : String) : String :=
  match name.toList with
  | '$' :: r => String.ofList r
  | _ => name

def sameSymbol (a b : String) : Bool :=
  bareName a == bareName b

namespace Member

def mixinIdx? (name : String) : Member → Option Nat
  | mixins m => m.names.findIdx? (sameSymbol · name)
  | _ => none

def constantIdx? (name : String) : Member → Option Nat
  | constants g => g.items.findIdx? (·.name == name)
  | _ => none

def fieldIdx? (name : String) : Member → Option Nat
  | fields g => g.items.findIdx? (·.name == name)
  | _ => none

def isRoutine (name : String) : Member → Bool
  | routine r => sameWord r.name name
  | _ => false

/-- The things that are declared in one statement. -/
def itemCount : Member → Nat
  | mixins m => m.names.length
  | constants g => g.items.length
  | fields g => g.items.length
  | routine _ => 1

/-- The statement without one of the things that are declared in it. -/
def eraseItem (j : Nat) : Member → Member
  | mixins m => mixins { m with names := m.names.eraseIdx j }
  | constants g => constants { g with items := g.items.eraseIdx j }
  | fields g => fields { g with items := g.items.eraseIdx j }
  | routine r => routine r

def mapConstants (f : ConstantGroup → ConstantGroup) : Member → Member
  | constants g => constants (f g)
  | m => m

def mapFields (f : FieldGroup → FieldGroup) : Member → Member
  | fields g => fields (f g)
  | m => m

def mapRoutine (f : Routine → Routine) : Member → Member
  | routine r => routine (f r)
  | m => m

end Member

structure ParamSpec where
  name : String
  type : Option String
  default : Option Value

namespace ParamSpec

/-- A parameter with a name alone, without its sigils. -/
def named (name : String) : ParamSpec :=
  ⟨String.ofList (name.toList.dropWhile (· == '$')), none, none⟩

/-- The parameter; an empty type is none. -/
def toParam (p : ParamSpec) : Param where
  attributes := []
  modifiers := .empty
  type := p.type.filter (!·.isEmpty)
  byRef := false
  variadic := false
  name := p.name
  default := p.default.map Expr.ofValue

/-- The parameter as a map of its name, its type and its default, as far as it has them. -/
def toValue (p : ParamSpec) : Value :=
  .map ([(.string "name", .string p.name)] ++
    (p.type.map fun t => (.string "type", .string t)).toList ++
    (p.default.map fun v => (.string "default", v)).toList)

def ofValue? (v : Value) : Option ParamSpec :=
  match v with
  | .string name => some (named name)
  | .map _ =>
    ((v.get? "name").bind Value.string?).map fun name =>
      { named name with type := (v.get? "type").bind Value.string?, default := v.get? "default" }
  | _ => none

end ParamSpec

/-- A field to add, or what to change of one; what is none is not supplied. -/
structure FieldSpec where
  name : String
  default : Option Value
  visibility : Option Visibility
  /-- An empty type stands for no type. -/
  type : Option String

structure RoutineSpec where
  name : String
  params : List ParamSpec
  body : String
  visibility : Option Visibility
  /-- A routine of the same name is replaced. -/
  overwrite : Bool

structure RoutineChange where
  name : String
  params : Option (List ParamSpec)
  body : Option String
  visibility : Option Visibility

namespace RoutineSpec

/-- The routine, public if nothing else is asked for. -/
def toRoutine (s : RoutineSpec) : Routine where
  modifiers := .ofVisibility (s.visibility.getD .everyone)
  byRef := false
  name := s.name
  params := s.params.map ParamSpec.toParam
  paramsMultiline := false
  returnType := none
  body := some (Fragment.bodyOfText s.body)
  layout := .nextLine

end RoutineSpec

namespace Routine

def withParams (params : List ParamSpec) (r : Routine) : Routine :=
  { r with params := params.map ParamSpec.toParam, paramsMultiline := false }

/-- The routine with another body. It is no longer a mere declaration, nor on one line. -/
def withBody (text : String) (r : Routine) : Routine :=
  { r with
    body := some (Fragment.bodyOfText text)
    modifiers := { r.modifiers with isAbstract := false }
    layout := if r.layout = .inline then .nextLine else r.layout }

def withVisibility (v : Visibility) (r : Routine) : Routine :=
  { r with modifiers := r.modifiers.withVisibility v }

def change (c : RoutineChange) (r : Routine) : Routine :=
  let r := c.params.elim r fun params => r.withParams params
  let r := c.body.elim r fun body => r.withBody body
  c.visibility.elim r fun v => r.withVisibility v

end Routine

namespace FieldGroup

/-- The group with what is supplied changed: its type and visibility, and the default of one
field. -/
def change (s : FieldSpec) (j : Nat) (g : FieldGroup) : FieldGroup :=
  let g := s.type.elim g fun t => { g with type := if t.isEmpty then none else some t }
  let g := s.visibility.elim g fun v => { g with modifiers := g.modifiers.withVisibility v }
  s.default.elim g fun d =>
    { g with items := g.items.modify j fun f => { f with default := some (.ofValue d) } }

/-- The group with additions to the array that one field has for its default. Any other default
makes way for an array. -/
def extend (additions : Value) (j : Nat) (g : FieldGroup) : FieldGroup :=
  let array (f : Field) := (f.default.bind Expr.array?).getD (.ofItems [])
  { g with items := g.items.modify j fun f =>
      { f with default := some (.array ((array f).merge additions).1) } }

end FieldGroup

namespace ConstantGroup

def change (value : Option Value) (visibility : Option Visibility) (j : Nat) (g : ConstantGroup) :
    ConstantGroup :=
  let g := value.elim g fun v =>
    { g with items := g.items.modify j fun c => { c with value := .ofValue v } }
  visibility.elim g fun v => { g with modifiers := g.modifiers.withVisibility v }

end ConstantGroup

namespace ClassDecl

def findField (c : ClassDecl) (name : String) : Option (Nat × Nat) :=
  findIn (·.member.fieldIdx? name) c.members

def findConstant (c : ClassDecl) (name : String) : Option (Nat × Nat) :=
  findIn (·.member.constantIdx? name) c.members

def findMixin (c : ClassDecl) (name : String) : Option (Nat × Nat) :=
  findIn (·.member.mixinIdx? name) c.members

def findRoutine (c : ClassDecl) (name : String) : Option Nat :=
  c.members.findIdx? (·.member.isRoutine name)

def insertMember (c : ClassDecl) (m : Member) : ClassDecl :=
  { c with members := insertSpaced c.members (memberPosition c.members m.category) (.made m) }

def mapMember (c : ClassDecl) (i : Nat) (f : Member → Member) : ClassDecl :=
  { c with members := c.members.modify i fun m => { m with member := f m.member } }

/-- The class without one thing that a member declares. The member goes with its last one. -/
def removeItem (c : ClassDecl) (place : Nat × Nat) : ClassDecl :=
  if (c.members[place.1]?).any (1 < ·.member.itemCount)
    then c.mapMember place.1 (.eraseItem place.2)
  else { c with members := removeSpaced c.members place.1 }

/-- Adds what is found nowhere. -/
def addUnless {β : Type} (found : Option β) (m : Member) : Edit ClassDecl := fun c =>
  if found.isSome then .error .duplicate else .ok (c.insertMember m)

/-- Goes on with the place of what must be there. -/
def atPlace {β : Type} (place : Option β) (f : β → ClassDecl) : Except SkipReason ClassDecl :=
  match place with
  | some p => .ok (f p)
  | none => .error .notFound

def addMixin (name : String) : Edit ClassDecl := fun c =>
  addUnless (c.findMixin name) (.mixins ⟨[name], none⟩) c

def removeMixin (name : String) : Edit ClassDecl := fun c =>
  atPlace (c.findMixin name) c.removeItem

/-- Adds a field, for heirs if nothing else is asked for. -/
def addField (s : FieldSpec) : Edit ClassDecl := fun c =>
  addUnless (c.findField s.name)
    (.fields ⟨.ofVisibility (s.visibility.getD .heirs), s.type.filter (!·.isEmpty),
      [⟨s.name, s.default.map Expr.ofValue⟩]⟩) c

def removeField (name : String) : Edit ClassDecl := fun c =>
  atPlace (c.findField name) c.removeItem

def changeField (s : FieldSpec) : Edit ClassDecl := fun c =>
  atPlace (c.findField s.name) fun (i, j) => c.mapMember i (.mapFields (.change s j))

def extendField (name : String) (additions : Value) : Edit ClassDecl := fun c =>
  atPlace (c.findField name) fun (i, j) => c.mapMember i (.mapFields (.extend additions j))

/-- Adds a constant, public if nothing else is asked for. -/
def addConstant (name : String) (value : Value) (visibility : Option Visibility) : Edit ClassDecl :=
  fun c =>
    addUnless (c.findConstant name)
      (.constants ⟨.ofVisibility (visibility.getD .everyone), none, [⟨name, .ofValue value⟩]⟩) c

def changeConstant (name : String) (value : Option Value) (visibility : Option Visibility) :
    Edit ClassDecl := fun c =>
  atPlace (c.findConstant name) fun (i, j) =>
    c.mapMember i (.mapConstants (.change value visibility j))

def removeConstant (name : String) : Edit ClassDecl := fun c =>
  atPlace (c.findConstant name) c.removeItem

/-- Adds a routine at the end. To replace one, its comments and attributes are dropped, since they
told of the old one; its spacing stays. -/
def addRoutine (s : RoutineSpec) : Edit ClassDecl := fun c =>
  match c.findRoutine s.name with
  | some i =>
    if s.overwrite then
      .ok { c with members := c.members.modify i fun m =>
              ⟨{ Trivia.empty with blankBefore := m.trivia.blankBefore }, .routine s.toRoutine⟩ }
    else .error .duplicate
  | none => .ok { c with members := c.members ++ [.made (.routine s.toRoutine)] }

def changeRoutine (change : RoutineChange) : Edit ClassDecl := fun c =>
  atPlace (c.findRoutine change.name) fun i => c.mapMember i (.mapRoutine (.change change))

def removeRoutine (name : String) : Edit ClassDecl := fun c =>
  atPlace (c.findRoutine name) fun i => { c with members := removeSpaced c.members i }

def rename (name : String) : Edit ClassDecl := fun c =>
  .ok { c with name }

def extend (parent : String) : Edit ClassDecl := fun c =>
  if c.parent.any (sameSymbol · parent) then .error .duplicate
    else .ok { c with parent := some parent }

def implement (interface : String) : Edit ClassDecl := fun c =>
  if c.interfaces.any (sameSymbol · interface) then .error .duplicate
  else .ok { c with interfaces := c.interfaces ++ [interface] }

end ClassDecl

end ClassEdit
