import ClassEdit.Expr.Basic

/-!
Classes and their members. What is not looked into, such as the statements of a
routine, is kept as text.
-/

namespace ClassEdit

/-- The comments, the attributes and the spacing around a statement. -/
structure Trivia where
  comments : List String
  attributes : List String
  /-- Whether an empty line stands before the statement; none for a statement that was made and not
  read, which gets the spacing that is usual at its place. -/
  blankBefore : Option Bool
  /-- The comment behind the statement, on its last line. -/
  trailing : Option String
deriving DecidableEq

namespace Trivia

def empty : Trivia := ⟨[], [], none, none⟩

end Trivia

inductive Visibility where
  | everyone
  | heirs
  | owner
deriving DecidableEq

namespace Visibility

def keyword : Visibility → String
  | everyone => "public"
  | heirs => "protected"
  | owner => "private"

/-- The visibility of a keyword, in capitals or small letters. -/
def ofKeyword? (w : String) : Option Visibility :=
  [everyone, heirs, owner].find? fun v => sameWord w v.keyword

theorem ofKeyword?_keyword (v : Visibility) : ofKeyword? v.keyword = some v := by
  cases v <;> rfl

end Visibility

/-- The words before a member. -/
structure Modifiers where
  visibility : Option Visibility
  isStatic : Bool
  isAbstract : Bool
  isFinal : Bool
  isReadonly : Bool
  /-- The old keyword of a field without a visibility. -/
  isVar : Bool
deriving DecidableEq

namespace Modifiers

def empty : Modifiers := ⟨none, false, false, false, false, false⟩

def ofVisibility (v : Visibility) : Modifiers := { empty with visibility := some v }

def isEmpty (m : Modifiers) : Bool := m == empty

/-- The modifiers with another visibility, which also takes the place of the old keyword. -/
def withVisibility (m : Modifiers) (v : Visibility) : Modifiers :=
  { m with visibility := some v, isVar := false }

end Modifiers

/-- A statement that is kept as text, moved left to the column of its first character. -/
structure InnerStmt where
  text : String
  blankBefore : Bool
deriving DecidableEq

structure MixinUse where
  names : List String
  /-- The rules of a block behind the names. -/
  rules : Option (List InnerStmt)
deriving DecidableEq

structure Constant where
  name : String
  value : Expr

/-- Constants declared in one statement, with the same modifiers and type. -/
structure ConstantGroup where
  modifiers : Modifiers
  type : Option String
  items : List Constant

structure Field where
  /-- The name without its sigil. -/
  name : String
  default : Option Expr

/-- Fields declared in one statement, with the same modifiers and type. -/
structure FieldGroup where
  modifiers : Modifiers
  type : Option String
  items : List Field

structure Param where
  attributes : List String
  /-- The words that make a field of a parameter. -/
  modifiers : Modifiers
  type : Option String
  byRef : Bool
  variadic : Bool
  /-- The name without its sigil. -/
  name : String
  default : Option Expr

/-- Where the braces of a routine stand. -/
inductive BodyLayout where
  /-- The opening brace has a line of its own. -/
  | nextLine
  /-- The opening brace ends the line of the signature. -/
  | sameLine
  /-- The whole body is on the line of the signature. -/
  | inline
deriving DecidableEq

structure Routine where
  modifiers : Modifiers
  byRef : Bool
  name : String
  params : List Param
  /-- One parameter on a line. -/
  paramsMultiline : Bool
  returnType : Option String
  /-- None for a routine that is only declared. -/
  body : Option (List InnerStmt)
  layout : BodyLayout

inductive Member where
  | mixins (use : MixinUse)
  | constants (group : ConstantGroup)
  | fields (group : FieldGroup)
  | routine (routine : Routine)

/-- The kinds of members, which have their usual places in a class. -/
inductive MemberCategory where
  | mixin
  | constant
  | field
  | routine
deriving DecidableEq

namespace Member

def category : Member → MemberCategory
  | mixins _ => .mixin
  | constants _ => .constant
  | fields _ => .field
  | routine _ => .routine

end Member

structure MemberStmt where
  trivia : Trivia
  member : Member

namespace MemberStmt

def made (member : Member) : MemberStmt := ⟨.empty, member⟩

def category (m : MemberStmt) : MemberCategory := m.member.category

end MemberStmt

inductive ClassModifier where
  | abstract
  | final
  | readonly
deriving DecidableEq

namespace ClassModifier

def keyword : ClassModifier → String
  | abstract => "abstract"
  | final => "final"
  | readonly => "readonly"

end ClassModifier

structure ClassDecl where
  trivia : Trivia
  /-- The words before the class, in the order of the source. -/
  modifiers : List ClassModifier
  name : String
  parent : Option String
  interfaces : List String
  members : List MemberStmt
  /-- The comments before the closing brace. -/
  closingComments : List String

end ClassEdit
