import ClassEdit.Class.Parser
import ClassEdit.File.Basic

/-!
Reading files.
-/

namespace ClassEdit

def Cursor.isAtNamespace (c : Cursor) : Bool :=
  c.isAtWord "namespace" && (c.second.kind == .word || c.second.kind == .leftBrace)

/-- Whether a class is declared next: its modifiers, its keyword and a name. -/
def Cursor.isAtClass (c : Cursor) : Bool :=
  match c.ahead.dropWhile (·.isAnyWord ["abstract", "final", "readonly"]) with
  | t :: u :: _ => t.isWord "class" && u.kind == .word
  | _ => false

namespace Import

/-- The word for a kind of symbols, if a name follows it. -/
def readKind (c : Cursor) : Step 0 (Option ImportKind) c :=
  let kind := if c.isAtWord "function" then some .function
    else if c.isAtWord "const" then some .const else none
  match if c.second.kind == .word then kind else none with
  | some k => .skipping (some k) 1
  | none => .here none

/-- The other name that a symbol gets here. -/
def readLocalName (c : Cursor) : Except ParseError (Step 0 (Option String) c) := do
  match c.takeWord? "as" with
  | some ⟨_, c₁, h₁⟩ =>
    let ⟨name, c₂, h₂⟩ ← c₁.takeName
    return .weaken <| .past h₁ ⟨some name, c₂, h₂⟩
  | none => return .here none

def readItem (kind : Option ImportKind) (c : Cursor) : Except ParseError (Step 1 ImportItem c) := do
  let ⟨name, c₁, h₁⟩ ← c.takeName
  let ⟨localName, c₂, h₂⟩ ← readLocalName c₁
  return .past h₁ ⟨{ kind, name, localName }, c₂, h₂⟩

/-- The symbols of a group up to its closing brace, which stays ahead. -/
def readGroup (c : Cursor) : Except ParseError (Step 0 (List ImportItem) c) := do
  if c.isAt .rightBrace then return .here []
  else
    let ⟨kind, c₁, h₁⟩ := readKind c
    let ⟨item, c₂, h₂⟩ ← readItem kind c₁
    match c₂.take? .comma with
    | some ⟨_, c₃, h₃⟩ =>
      let ⟨items, c₄, h₄⟩ ← readGroup c₃
      return .weaken <| .after h₁ <| .past h₂ <| .past h₃ ⟨item :: items, c₄, h₄⟩
    | none => return .weaken <| .after h₁ ⟨[item], c₂, h₂⟩
termination_by c.size

def readFurther (c : Cursor) : Except ParseError (Step 0 (List ImportItem) c) := do
  match c.take? .comma with
  | some ⟨_, c₁, h₁⟩ =>
    let ⟨item, c₂, h₂⟩ ← readItem none c₁
    let ⟨items, c₃, h₃⟩ ← readFurther c₂
    return .weaken <| .past h₁ <| .past h₂ ⟨item :: items, c₃, h₃⟩
  | none => return .here []
termination_by c.size

def dropSeparators (path : String) : String :=
  String.ofList (dropEndWhile (· == '\\') path.toList)

/-- The symbols of an import behind its kind: a group, if the first name ends in a separator and a
brace follows it, or a list. -/
def readItems (c : Cursor) :
    Except ParseError (Step 1 (Option String × List ImportItem) c) := do
  let ⟨first, c₁, h₁⟩ ← c.takeName
  match if first.toList.getLast? == some '\\' then c₁.take? .leftBrace else none with
  | some ⟨_, c₂, h₂⟩ =>
    let ⟨items, c₃, h₃⟩ ← readGroup c₂
    let ⟨_, c₄, h₄⟩ ← c₃.take .rightBrace
    return .past h₁ <| .past h₂ <| .after h₃ ⟨(some (dropSeparators first), items), c₄, h₄⟩
  | none =>
    let ⟨localName, c₂, h₂⟩ ← readLocalName c₁
    let ⟨items, c₃, h₃⟩ ← readFurther c₂
    return .past h₁ <| .after h₂ ⟨(none, ⟨none, first, localName⟩ :: items), c₃, h₃⟩

/-- An import behind its comments, which are given. -/
def read (trivia : Trivia) (c : Cursor) : Except ParseError (Step 1 Import c) := do
  let ⟨_, c₁, h₁⟩ ← c.takeWord "use"
  let ⟨kind, c₂, h₂⟩ := readKind c₁
  let ⟨(base, items), c₃, h₃⟩ ← readItems c₂
  let ⟨_, c₄, h₄⟩ ← c₃.take .semicolon
  let ⟨trivia, c₅, h₅⟩ := c₄.finish trivia
  return .past h₁ <| .after h₂ <| .past h₃ <| .past h₄
    ⟨{ trivia, kind := kind.getD .class_, base, items }, c₅, h₅⟩

end Import

namespace Stmt

/-- A statement as text behind its comments and attributes, which are given. -/
def readRaw (trivia : Trivia) (c : Cursor) : Except ParseError (Step 1 RawStmt c) := do
  let ⟨ts, c₁, h₁⟩ ← c.takeStatement
  let ⟨trivia, c₂, h₂⟩ := c₁.finish trivia
  return .past h₁ ⟨⟨trivia, excerptOf ts⟩, c₂, h₂⟩

/-- A statement that is no namespace. Imports and declarations have no attributes. -/
def readOrdinary (c : Cursor) : Except ParseError (Step 1 Stmt c) := do
  let trivia := c.leadingTrivia
  let ⟨attributes, c₁, h₁⟩ ← c.takeAttributes
  let trivia := { trivia with attributes }
  if attributes.isEmpty && c₁.isAtWord "use" then
    let ⟨i, c₂, h₂⟩ ← Import.read trivia c₁
    return .after h₁ ⟨.import_ i, c₂, h₂⟩
  else if c₁.isAtClass then
    let ⟨decl, c₂, h₂⟩ ← ClassDecl.read trivia c₁
    return .after h₁ ⟨.class_ decl, c₂, h₂⟩
  else
    let ⟨stmt, c₂, h₂⟩ ← readRaw trivia c₁
    let isDeclare := attributes.isEmpty && c₁.isAtWord "declare" && c₁.second.kind == .leftParen
    return .after h₁ ⟨if isDeclare then .declare stmt else .raw stmt, c₂, h₂⟩

/-- The text behind a closing tag, up to the next opening tag or the end. -/
def readOutside (c : Cursor) : Except ParseError (Step 1 String c) := do
  let ⟨_, c₁, h₁⟩ ← c.take .closeTag
  match c₁.take? .html with
  | some ⟨t, c₂, h₂⟩ => return .past h₁ ⟨t.string, c₂, h₂⟩
  | none => return ⟨"", c₁, h₁⟩

/-- The statements of a file or of a namespace. -/
structure Listing where
  stmts : List Stmt
  /-- The comments behind the last statement. -/
  closingComments : List String
  /-- The text behind a closing tag at the end of the file. -/
  epilogue : Option String

def Listing.cons (s : Stmt) (l : Listing) : Listing := { l with stmts := s :: l.stmts }

/-- The statements of a namespace, up to its closing brace if it has braces, else up to the next
namespace. Namespaces are not nested. -/
def readInner (braced : Bool) (c : Cursor) : Except ParseError (Step 0 Listing c) := do
  let comments := Expr.commentTexts c.head.comments
  if c.ahead.isEmpty then
    if braced then .error (c.unexpected (.kind .rightBrace))
    else return .skippingComments ⟨[], comments, none⟩
  else if braced && c.isAt .rightBrace then return .here ⟨[], comments, none⟩
  else if c.isAtNamespace then
    if braced then .error (c.unexpected .statement) else return .here ⟨[], [], none⟩
  else if c.isAt .closeTag then
    let ⟨text, c₁, h₁⟩ ← readOutside c
    if c₁.ahead.isEmpty then
      if braced then .error (c₁.unexpected (.kind .rightBrace))
      else return .weaken ⟨⟨[], comments, some text⟩, c₁, h₁⟩
    else
      let ⟨_, c₂, h₂⟩ ← c₁.take .openTag
      let ⟨more, c₃, h₃⟩ ← readInner braced c₂
      return .weaken <| .past h₁ <| .past h₂ ⟨more.cons (.html text), c₃, h₃⟩
  else
    let ⟨stmt, c₁, h₁⟩ ← readOrdinary c
    let ⟨more, c₂, h₂⟩ ← readInner braced c₁
    return .weaken <| .past h₁ ⟨more.cons stmt, c₂, h₂⟩
termination_by c.size

/-- The name of a namespace, if it has one. -/
def readName? (c : Cursor) : Step 0 (Option String) c :=
  match c.take? .word with
  | some ⟨t, c₁, h₁⟩ => .weaken ⟨some t.string, c₁, h₁⟩
  | none => .here none

/-- A namespace, and the text behind a closing tag that ends it with the file. -/
def readNamespace (c : Cursor) : Except ParseError (Step 1 (NamespaceDecl × Option String) c) := do
  let trivia := c.leadingTrivia
  let ⟨_, c₁, h₁⟩ ← c.takeWord "namespace"
  let ⟨name, c₂, h₂⟩ := readName? c₁
  match c₂.take? .leftBrace, name with
  | some ⟨_, c₃, h₃⟩, _ =>
    let ⟨⟨stmts, closingComments, _⟩, c₄, h₄⟩ ← readInner true c₃
    let ⟨_, c₅, h₅⟩ ← c₄.take .rightBrace
    let ⟨trivia, c₆, h₆⟩ := c₅.finish trivia
    return .past h₁ <| .after h₂ <| .past h₃ <| .after h₄ <| .past h₅
      ⟨({ trivia, name, braced := true, stmts, closingComments }, none), c₆, h₆⟩
  | none, none => .error (c₂.unexpected .namespaceName)
  | none, some _ =>
    let ⟨_, c₃, h₃⟩ ← c₂.take .semicolon
    let ⟨trivia, c₄, h₄⟩ := c₃.finish trivia
    let ⟨⟨stmts, closingComments, epilogue⟩, c₅, h₅⟩ ← readInner false c₄
    return .past h₁ <| .after h₂ <| .past h₃ <| .after h₄
      ⟨({ trivia, name, braced := false, stmts, closingComments }, epilogue), c₅, h₅⟩

def readOuter (c : Cursor) : Except ParseError (Step 0 Listing c) := do
  let comments := Expr.commentTexts c.head.comments
  if c.ahead.isEmpty then return .here ⟨[], comments, none⟩
  else if c.isAtNamespace then
    let ⟨(decl, epilogue), c₁, h₁⟩ ← readNamespace c
    let ⟨more, c₂, h₂⟩ ← readOuter c₁
    return .weaken <| .past h₁
      ⟨{ more.cons (.namespace_ decl) with epilogue := epilogue.or more.epilogue }, c₂, h₂⟩
  else if c.isAt .closeTag then
    let ⟨text, c₁, h₁⟩ ← readOutside c
    if c₁.ahead.isEmpty then return .weaken ⟨⟨[], comments, some text⟩, c₁, h₁⟩
    else
      let ⟨_, c₂, h₂⟩ ← c₁.take .openTag
      let ⟨more, c₃, h₃⟩ ← readOuter c₂
      return .weaken <| .past h₁ <| .past h₂ ⟨more.cons (.html text), c₃, h₃⟩
  else
    let ⟨stmt, c₁, h₁⟩ ← readOrdinary c
    let ⟨more, c₂, h₂⟩ ← readOuter c₁
    return .weaken <| .past h₁ ⟨more.cons stmt, c₂, h₂⟩
termination_by c.size

end Stmt

namespace SourceFile

/-- The file that a source is. -/
def ofSource (source : String) : Except ParseError SourceFile := do
  let ls ← Lexeme.ofFile source
  let c := Cursor.ofLexemes ls
  let prologue := if c.isAt .html then some c.head.string else none
  match (c.skip (if c.isAt .html then 1 else 0)).take? .openTag with
  | none => .error ⟨.noOpenTag, ⟨0, 0, 1, 1⟩⟩
  | some ⟨_, c₁, _⟩ =>
    let ⟨⟨stmts, closingComments, epilogue⟩, _, _⟩ ← Stmt.readOuter c₁
    return { prologue, stmts, closingComments, epilogue }

end SourceFile

end ClassEdit
