import ClassEdit.Class.Basic
import ClassEdit.Expr.Printer

/-!
Writing classes. A member that was read keeps its spacing; one that was made gets an empty line
before it if it is a routine or if the member before it is of another kind.
-/

namespace ClassEdit

def spaced (text : Option String) : String :=
  text.elim "" (· ++ " ")

def lineBreak (gap : Bool) : String :=
  if gap then "\n\n" else "\n"

namespace Trivia

def leadingText (margin : String) (t : Trivia) : String :=
  String.join ((t.comments ++ t.attributes).map fun s => margin ++ reindent margin s ++ "\n")

def trailingText (t : Trivia) : String :=
  t.trailing.elim "" (" " ++ ·)

end Trivia

def closingText (margin : String) (comments : List String) : String :=
  Expr.linesAt margin (comments.map (reindent margin))

namespace InnerStmt

/-- The statements of a block behind its opening brace, and the closing brace. -/
def blockText (layout : Layout) (margin : String) (stmts : List InnerStmt) : String :=
  let inner := margin ++ layout.indent
  let line (gap : Bool) (s : InnerStmt) := lineBreak gap ++ inner ++ reindent inner s.text
  (match stmts with
    | [] => ""
    | s :: more => line false s ++ String.join (more.map fun s => line s.blankBefore s)) ++
    "\n" ++ margin ++ "\x7d"

end InnerStmt

namespace Modifiers

/-- The words before a member, each with a space behind it. A visibility hides the old keyword. -/
def text (m : Modifiers) : String :=
  let access := match m.visibility with
    | some v => [v.keyword]
    | none => if m.isVar then ["var"] else []
  let words := (if m.isFinal then ["final"] else []) ++
    (if m.isAbstract then ["abstract"] else []) ++
    access ++ (if m.isStatic then ["static"] else []) ++ (if m.isReadonly then ["readonly"] else [])
  String.join (words.map (· ++ " "))

end Modifiers

namespace MixinUse

def text (layout : Layout) (margin : String) (m : MixinUse) : String :=
  "use " ++ commaList m.names ++
    match m.rules with
    | some rules => " \x7b" ++ InnerStmt.blockText layout margin rules
    | none => ";"

end MixinUse

def assigned (layout : Layout) (margin : String) (value : Option Expr) : String :=
  match value with
  | some e => " = " ++ e.text layout margin
  | none => ""

namespace ConstantGroup

def text (layout : Layout) (margin : String) (g : ConstantGroup) : String :=
  g.modifiers.text ++ "const " ++ spaced g.type ++
    commaList (g.items.map fun c => c.name ++ assigned layout margin (some c.value)) ++ ";"

end ConstantGroup

namespace FieldGroup

def text (layout : Layout) (margin : String) (g : FieldGroup) : String :=
  g.modifiers.text ++ spaced g.type ++
    commaList (g.items.map fun f => "$" ++ f.name ++ assigned layout margin f.default) ++ ";"

end FieldGroup

namespace Param

/-- A parameter. Of its modifiers only the visibility and the mark of a field that is not written to
again have a meaning here. -/
def text (layout : Layout) (margin : String) (p : Param) : String :=
  String.join (p.attributes.map (· ++ " ")) ++
    spaced (p.modifiers.visibility.map Visibility.keyword) ++
    (if p.modifiers.isReadonly then "readonly " else "") ++ spaced p.type ++
    (if p.byRef then "&" else "") ++ (if p.variadic then "..." else "") ++ "$" ++ p.name ++
    assigned layout margin p.default

end Param

namespace Routine

def paramsText (layout : Layout) (margin : String) (r : Routine) : String :=
  let params := r.params.map (Param.text layout margin)
  if r.paramsMultiline && !params.isEmpty then
    "(\n" ++ String.join (params.map fun p => margin ++ layout.indent ++ p ++ ",\n") ++
      margin ++ ")"
  else "(" ++ commaList params ++ ")"

/-- A body behind the signature. It stays on the line of the signature only if no statement in
it has several lines. -/
def bodyText (layout : Layout) (margin : String) (place : BodyLayout) (body : List InnerStmt) :
    String :=
  let block := InnerStmt.blockText layout margin body
  match place with
  | .nextLine => "\n" ++ margin ++ "\x7b" ++ block
  | .sameLine => " \x7b" ++ block
  | .inline =>
    if body.all fun s => !s.text.toList.contains '\n' then
      " \x7b" ++ String.join (body.map fun s => " " ++ s.text) ++
        (if body.isEmpty then "" else " ") ++
        "\x7d"
    else " \x7b" ++ block

def text (layout : Layout) (margin : String) (r : Routine) : String :=
  r.modifiers.text ++ "function " ++ (if r.byRef then "&" else "") ++ r.name ++
    r.paramsText layout margin ++ (r.returnType.elim "" (": " ++ ·)) ++
    match r.body with
    | some body => bodyText layout margin r.layout body
    | none => ";"

end Routine

namespace Member

def text (layout : Layout) (margin : String) : Member → String
  | mixins m => m.text layout margin
  | constants g => g.text layout margin
  | fields g => g.text layout margin
  | routine r => r.text layout margin

end Member

namespace MemberStmt

/-- Whether an empty line stands before a member that was made, behind another one. -/
def usualGap (previous : Option MemberStmt) (m : MemberStmt) : Bool :=
  match previous with
  | none => false
  | some p => m.category == .routine || p.category != m.category

def textAfter (layout : Layout) (margin : String) (previous : Option MemberStmt) (m : MemberStmt) :
    String :=
  lineBreak (m.trivia.blankBefore.getD (usualGap previous m)) ++
    m.trivia.leadingText margin ++ margin ++
    m.member.text layout margin ++ m.trivia.trailingText

def listText (layout : Layout) (margin : String) (previous : Option MemberStmt) :
    List MemberStmt → String
  | [] => ""
  | m :: ms => m.textAfter layout margin previous ++ listText layout margin (some m) ms

end MemberStmt

namespace ClassDecl

def headerText (c : ClassDecl) : String :=
  String.join (c.modifiers.map fun m => m.keyword ++ " ") ++ "class " ++ c.name ++
    (c.parent.elim "" (" extends " ++ ·)) ++
    (if c.interfaces.isEmpty then "" else " implements " ++ commaList c.interfaces)

def text (layout : Layout) (margin : String) (c : ClassDecl) : String :=
  let inner := margin ++ layout.indent
  c.headerText ++ "\n" ++ margin ++ "\x7b" ++ MemberStmt.listText layout inner none c.members ++
    closingText inner c.closingComments ++ "\n" ++ margin ++ "\x7d" ++ c.trivia.trailingText

end ClassDecl

end ClassEdit
