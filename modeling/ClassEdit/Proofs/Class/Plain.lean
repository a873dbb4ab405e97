import ClassEdit.Class.Printer
import ClassEdit.Proofs.Class.TypeReading
import ClassEdit.Proofs.Expr.Reading

/-!
Plain classes: those without comments and attributes whose bodies are empty and whose values
are literals. `settled` is the form in which a plain class is read, except for its values,
which `mapValues` changes.
-/

namespace ClassEdit

open Scan (isName isIdentifier)

namespace Modifiers

/-- The old keyword and a visibility do not go together. -/
def IsPlain (m : Modifiers) : Prop :=
  m.isVar = true → m.visibility = none

end Modifiers

namespace TypeText

def IsOptional (type : Option String) : Prop :=
  ∀ x ∈ type, IsType x

end TypeText

namespace Constant

structure IsPlain (c : Constant) : Prop where
  name : isName c.name.toList = true
  value : c.value.IsLiteral

def mapValue (f : Expr → Expr) (c : Constant) : Constant := { c with value := f c.value }

end Constant

namespace ConstantGroup

structure IsPlain (g : ConstantGroup) : Prop where
  modifiers : g.modifiers.IsPlain
  type : TypeText.IsOptional g.type
  nonempty : g.items ≠ []
  items : ∀ c ∈ g.items, c.IsPlain

def mapValues (f : Expr → Expr) (g : ConstantGroup) : ConstantGroup :=
  { g with items := g.items.map (·.mapValue f) }

def values (g : ConstantGroup) : List Expr := g.items.map (·.value)

end ConstantGroup

namespace Field

structure IsPlain (f : Field) : Prop where
  name : isIdentifier f.name.toList = true
  default : ∀ e ∈ f.default, e.IsLiteral

def mapValue (f : Expr → Expr) (field : Field) : Field :=
  { field with default := field.default.map f }

end Field

namespace FieldGroup

/-- Without a modifier fields would not be read as a member. -/
structure IsPlain (g : FieldGroup) : Prop where
  modifiers : g.modifiers.IsPlain
  marked : g.modifiers.isEmpty = false
  type : TypeText.IsOptional g.type
  nonempty : g.items ≠ []
  items : ∀ f ∈ g.items, f.IsPlain

def mapValues (f : Expr → Expr) (g : FieldGroup) : FieldGroup :=
  { g with items := g.items.map (·.mapValue f) }

def values (g : FieldGroup) : List Expr := g.items.filterMap (·.default)

end FieldGroup

namespace Param

/-- Of the modifiers a parameter has only a visibility and the mark of a field that is
not written to again. -/
structure IsPlain (p : Param) : Prop where
  attributes : p.attributes = []
  modifiers : p.modifiers =
    { Modifiers.empty with visibility := p.modifiers.visibility, isReadonly :=
      p.modifiers.isReadonly }
  type : TypeText.IsOptional p.type
  name : isIdentifier p.name.toList = true
  default : ∀ e ∈ p.default, e.IsLiteral

def mapValue (f : Expr → Expr) (p : Param) : Param := { p with default := p.default.map f }

end Param

namespace Routine

structure IsPlain (r : Routine) : Prop where
  modifiers : r.modifiers.IsPlain
  name : isName r.name.toList = true
  params : ∀ p ∈ r.params, p.IsPlain
  returnType : TypeText.IsOptional r.returnType
  body : ∀ stmts ∈ r.body, stmts = []

def mapValues (f : Expr → Expr) (r : Routine) : Routine :=
  { r with params := r.params.map (·.mapValue f) }

def values (r : Routine) : List Expr := r.params.filterMap (·.default)

/-- No parameters are on no lines, and a body that is not there has no place. -/
def settled (r : Routine) : Routine :=
  { r with
    paramsMultiline := r.paramsMultiline && !r.params.isEmpty
    layout := if r.body.isNone then .nextLine else r.layout }

end Routine

namespace MixinUse

structure IsPlain (m : MixinUse) : Prop where
  nonempty : m.names ≠ []
  names : ∀ name ∈ m.names, isName name.toList = true
  rules : ∀ stmts ∈ m.rules, stmts = []

end MixinUse

namespace Member

def IsPlain : Member → Prop
  | mixins m => m.IsPlain
  | constants g => g.IsPlain
  | fields g => g.IsPlain
  | routine r => r.IsPlain

def mapValues (f : Expr → Expr) : Member → Member
  | mixins m => mixins m
  | constants g => constants (g.mapValues f)
  | fields g => fields (g.mapValues f)
  | routine r => routine (r.mapValues f)

def values : Member → List Expr
  | mixins _ => []
  | constants g => g.values
  | fields g => g.values
  | routine r => r.values

def settled : Member → Member
  | routine r => routine r.settled
  | m => m

theorem settled_mapValues (f : Expr → Expr) (m : Member) :
    (m.mapValues f).settled = m.settled.mapValues f := by
  cases m with
  | routine r => simp [mapValues, settled, Routine.mapValues, Routine.settled]
  | _ => rfl

end Member

namespace Trivia

/-- No comments and no attributes, whatever the spacing. -/
def IsPlain (t : Trivia) : Prop :=
  t = { empty with blankBefore := t.blankBefore }

def settled (usual : Bool) (t : Trivia) : Trivia :=
  { t with blankBefore := some (t.blankBefore.getD usual) }

end Trivia

namespace MemberStmt

structure IsPlain (m : MemberStmt) : Prop where
  trivia : m.trivia.IsPlain
  member : m.member.IsPlain

def mapValues (f : Expr → Expr) (m : MemberStmt) : MemberStmt :=
  { m with member := m.member.mapValues f }

/-- The members with the spacing that is written, behind the last of those before them. -/
def settledAfter (previous : Option MemberStmt) : List MemberStmt → List MemberStmt
  | [] => []
  | m :: ms =>
    ⟨m.trivia.settled (usualGap previous m), m.member.settled⟩ :: settledAfter (some m) ms

end MemberStmt

namespace ClassDecl

structure IsPlain (c : ClassDecl) : Prop where
  trivia : c.trivia.IsPlain
  name : isName c.name.toList = true
  parent : ∀ name ∈ c.parent, isName name.toList = true
  interfaces : ∀ name ∈ c.interfaces, isName name.toList = true
  members : ∀ m ∈ c.members, m.IsPlain
  closingComments : c.closingComments = []

def mapValues (f : Expr → Expr) (c : ClassDecl) : ClassDecl :=
  { c with members := c.members.map (·.mapValues f) }

def values (c : ClassDecl) : List Expr :=
  c.members.flatMap (·.member.values)

def settled (usual : Bool) (c : ClassDecl) : ClassDecl :=
  { c with trivia := c.trivia.settled usual, members := MemberStmt.settledAfter none c.members }

end ClassDecl

end ClassEdit
