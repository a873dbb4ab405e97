import ClassEdit.Class.TypeParser
import ClassEdit.Expr.Parser
import ClassEdit.Fragment.Split

/-!
Reading classes and their members.
-/

namespace ClassEdit

/-- The comments and the spacing before the next token. -/
def Cursor.leadingTrivia (c : Cursor) : Trivia :=
  { Trivia.empty with
    comments := Expr.commentTexts c.head.comments
    blankBefore := some c.head.first.followsBlankLine }

def Cursor.finish (c : Cursor) (trivia : Trivia) : Step 0 Trivia c :=
  let ⟨comment, c₁, h⟩ := c.sameLineComment
  ⟨{ trivia with trailing := comment.map Lexeme.commentText }, c₁, h⟩

/-- A group that is opened by the next token, with the tokens in it. -/
def Cursor.takeGroup (c : Cursor) (k : TokenKind) : Except ParseError (Step 1 (List Token) c) := do
  let ⟨t, c₁, h₁⟩ ← c.take k
  match k.closer? with
  | some closer =>
    let n ← Extent.groupRest c.eof closer [] c₁.ahead
    return .past h₁ (.skipping (t :: c₁.ahead.take n) n)
  | none => return ⟨[t], c₁, h₁⟩

/-- Attribute groups, each as text. -/
def Cursor.takeAttributes (c : Cursor) : Except ParseError (Step 0 (List String) c) := do
  if c.isAt .attributeOpen then
    let ⟨ts, c₁, h₁⟩ ← c.takeGroup .attributeOpen
    let ⟨more, c₂, h₂⟩ ← c₁.takeAttributes
    return .weaken <| .past h₁ ⟨excerptOf ts :: more, c₂, h₂⟩
  else return .here []
termination_by c.size

namespace Modifiers

/-- The modifiers with the one of a word, if the word is one. Of several visibilities the last
counts. -/
def add? (m : Modifiers) (t : Token) : Option Modifiers :=
  if t.isWord "public" then some { m with visibility := some .everyone }
  else if t.isWord "protected" then some { m with visibility := some .heirs }
  else if t.isWord "private" then some { m with visibility := some .owner }
  else if t.isWord "static" then some { m with isStatic := true }
  else if t.isWord "abstract" then some { m with isAbstract := true }
  else if t.isWord "final" then some { m with isFinal := true }
  else if t.isWord "readonly" then some { m with isReadonly := true }
  else if t.isWord "var" then some { m with isVar := true }
  else none

def readFrom (m : Modifiers) : List Token → Modifiers × List Token
  | [] => (m, [])
  | t :: ts =>
    match m.add? t with
    | some m' => readFrom m' ts
    | none => (m, t :: ts)

theorem length_readFrom (m : Modifiers) (ts : List Token) :
    (readFrom m ts).2.length ≤ ts.length := by
  induction ts generalizing m with
  | nil => exact Nat.le_refl _
  | cons t ts ih =>
    unfold readFrom
    split
    · exact Nat.le_succ_of_le (ih _)
    · exact Nat.le_refl _

def read (c : Cursor) : Step 0 Modifiers c :=
  ⟨(readFrom .empty c.ahead).1, { c with ahead := (readFrom .empty c.ahead).2 },
    length_readFrom _ _⟩

end Modifiers

namespace Member

/-- An expression behind an equals sign, if there is one. -/
def readDefault (c : Cursor) : Except ParseError (Step 0 (Option Expr) c) := do
  match c.take? .equals with
  | some ⟨_, c₁, h₁⟩ =>
    let ⟨e, c₂, h₂⟩ ← Expr.read c₁
    return .weaken <| .past h₁ ⟨some e, c₂, h₂⟩
  | none => return .here none

/-- A use of mixins, from its keyword on. -/
def readMixins (c : Cursor) : Except ParseError (Step 1 MixinUse c) := do
  let ⟨_, c₁, h₁⟩ ← c.takeWord "use"
  let ⟨names, c₂, h₂⟩ ← c₁.takeNames
  if c₂.isAt .leftBrace then
    let ⟨rules, c₃, h₃⟩ ← Fragment.block c₂
    return .past h₁ <| .past h₂ ⟨⟨names, some rules⟩, c₃, h₃⟩
  else
    let ⟨_, c₃, h₃⟩ ← c₂.take .semicolon
    return .past h₁ <| .past h₂ ⟨⟨names, none⟩, c₃, h₃⟩

def readConstantItems (c : Cursor) : Except ParseError (Step 1 (List Constant) c) := do
  let ⟨name, c₁, h₁⟩ ← c.takeName
  let ⟨_, c₂, h₂⟩ ← c₁.take .equals
  let ⟨value, c₃, h₃⟩ ← Expr.read c₂
  match c₃.take? .comma with
  | some ⟨_, c₄, h₄⟩ =>
    let ⟨items, c₅, h₅⟩ ← readConstantItems c₄
    return .past h₁ <| .past h₂ <| .past h₃ <| .past h₄ ⟨⟨name, value⟩ :: items, c₅, h₅⟩
  | none => return .past h₁ <| .past h₂ ⟨[⟨name, value⟩], c₃, h₃⟩
termination_by c.size

/-- A type, unless the test says that there is none. -/
def readTypeUnless (absent : Bool) (c : Cursor) : Except ParseError (Step 0 (Option String) c) := do
  if absent then return .here none
  else
    let ⟨type, c₁, h₁⟩ ← TypeText.read c
    return .weaken ⟨some type, c₁, h₁⟩

/-- Constants behind their keyword. A type stands before the first name if the token behind
that is no equals sign. -/
def readConstants (modifiers : Modifiers) (c : Cursor) :
    Except ParseError (Step 1 ConstantGroup c) := do
  let ⟨type, c₁, h₁⟩ ← readTypeUnless (c.second.kind == .equals) c
  let ⟨items, c₂, h₂⟩ ← readConstantItems c₁
  let ⟨_, c₃, h₃⟩ ← c₂.take .semicolon
  return .after h₁ <| .past h₂ ⟨⟨modifiers, type, items⟩, c₃, h₃⟩

def readFieldItems (c : Cursor) : Except ParseError (Step 1 (List Field) c) := do
  let ⟨name, c₁, h₁⟩ ← c.takeVariable
  let ⟨default, c₂, h₂⟩ ← readDefault c₁
  match c₂.take? .comma with
  | some ⟨_, c₃, h₃⟩ =>
    let ⟨items, c₄, h₄⟩ ← readFieldItems c₃
    return .past h₁ <| .after h₂ <| .past h₃ ⟨⟨name, default⟩ :: items, c₄, h₄⟩
  | none => return .past h₁ ⟨[⟨name, default⟩], c₂, h₂⟩
termination_by c.size

def readFields (modifiers : Modifiers) (c : Cursor) : Except ParseError (Step 1 FieldGroup c) := do
  let ⟨type, c₁, h₁⟩ ← readTypeUnless (c.isAt .var) c
  let ⟨items, c₂, h₂⟩ ← readFieldItems c₁
  let ⟨_, c₃, h₃⟩ ← c₂.take .semicolon
  return .after h₁ <| .past h₂ ⟨⟨modifiers, type, items⟩, c₃, h₃⟩

def readParam (c : Cursor) : Except ParseError (Step 1 Param c) := do
  let ⟨attributes, c₁, h₁⟩ ← c.takeAttributes
  let ⟨modifiers, c₂, h₂⟩ := Modifiers.read c₁
  let ⟨type, c₃, h₃⟩ ← readTypeUnless (c₂.isAt .var || c₂.isAt .ampersand || c₂.isAt .ellipsis) c₂
  let ⟨byRef, c₄, h₄⟩ := c₃.accept .ampersand
  let ⟨variadic, c₅, h₅⟩ := c₄.accept .ellipsis
  let ⟨name, c₆, h₆⟩ ← c₅.takeVariable
  let ⟨default, c₇, h₇⟩ ← readDefault c₆
  return .after h₁ <| .after h₂ <| .after h₃ <| .after h₄ <| .after h₅ <| .past h₆
    ⟨{ attributes, modifiers, type, byRef, variadic, name, default }, c₇, h₇⟩

/-- Parameters up to the closing parenthesis, which stays ahead. A comma may stand behind the
last. -/
def readParams (c : Cursor) : Except ParseError (Step 0 (List Param) c) := do
  if c.isAt .rightParen then return .here []
  else
    let ⟨param, c₁, h₁⟩ ← readParam c
    match c₁.take? .comma with
    | some ⟨_, c₂, h₂⟩ =>
      let ⟨params, c₃, h₃⟩ ← readParams c₂
      return .weaken <| .past h₁ <| .past h₂ ⟨param :: params, c₃, h₃⟩
    | none => return .weaken ⟨[param], c₁, h₁⟩
termination_by c.size

/-- A body between braces and where its braces stand, or the semicolon of a routine that has
none. -/
def readBody (c : Cursor) :
    Except ParseError (Step 1 (Option (List InnerStmt) × BodyLayout) c) := do
  match c.take? .semicolon with
  | some ⟨_, c₁, h₁⟩ => return ⟨(none, .nextLine), c₁, h₁⟩
  | none =>
    let ⟨stmts, c₁, h₁⟩ ← Fragment.block c
    let tokens := c.ahead.take (c.size - c₁.size)
    let spansLines := (tokens.take 1).any (·.text.contains '\n') ||
      (tokens.drop 1).any fun t => t.isOnNewLine || t.text.contains '\n'
    let layout := if c.head.isOnNewLine then .nextLine else if spansLines
      then .sameLine else .inline
    return ⟨(some stmts, layout), c₁, h₁⟩

/-- A routine, from its keyword on. -/
def readRoutine (modifiers : Modifiers) (c : Cursor) : Except ParseError (Step 1 Routine c) := do
  let ⟨_, c₁, h₁⟩ ← c.takeWord "function"
  let ⟨byRef, c₂, h₂⟩ := c₁.accept .ampersand
  let ⟨name, c₃, h₃⟩ ← c₂.takeName
  let ⟨_, c₄, h₄⟩ ← c₃.take .leftParen
  let paramsMultiline := !c₄.isAt .rightParen && c₄.head.isOnNewLine
  let ⟨params, c₅, h₅⟩ ← readParams c₄
  let ⟨_, c₆, h₆⟩ ← c₅.take .rightParen
  let ⟨hasType, c₇, h₇⟩ := c₆.accept .colon
  let ⟨returnType, c₈, h₈⟩ ← readTypeUnless (!hasType) c₇
  let ⟨(body, layout), c₉, h₉⟩ ← readBody c₈
  return .past h₁ <| .after h₂ <| .past h₃ <| .past h₄ <| .after h₅ <| .past h₆ <|
    .after h₇ <| .after h₈
    ⟨{ modifiers, byRef, name, params, paramsMultiline, returnType, body, layout }, c₉, h₉⟩

def readBare (c : Cursor) : Except ParseError (Step 1 Member c) := do
  if c.isAtWord "use" then
    let ⟨use, c₁, h₁⟩ ← readMixins c
    return ⟨.mixins use, c₁, h₁⟩
  else
    let ⟨modifiers, c₁, h₁⟩ := Modifiers.read c
    match c₁.takeWord? "const" with
    | some ⟨_, c₂, h₂⟩ =>
      let ⟨group, c₃, h₃⟩ ← readConstants modifiers c₂
      return .after h₁ <| .past h₂ ⟨.constants group, c₃, h₃⟩
    | none =>
      if c₁.isAtWord "function" then
        let ⟨r, c₂, h₂⟩ ← readRoutine modifiers c₁
        return .after h₁ ⟨.routine r, c₂, h₂⟩
      else if modifiers.isEmpty then .error (c₁.unexpected .member)
      else
        let ⟨group, c₂, h₂⟩ ← readFields modifiers c₁
        return .after h₁ ⟨.fields group, c₂, h₂⟩

def readStmt (c : Cursor) : Except ParseError (Step 1 MemberStmt c) := do
  let trivia := c.leadingTrivia
  let ⟨attributes, c₁, h₁⟩ ← c.takeAttributes
  let ⟨member, c₂, h₂⟩ ← readBare c₁
  let ⟨trivia, c₃, h₃⟩ := c₂.finish { trivia with attributes }
  return .after h₁ <| .past h₂ ⟨⟨trivia, member⟩, c₃, h₃⟩

/-- Members up to the closing brace, which stays ahead. -/
def readAll (c : Cursor) : Except ParseError (Step 0 (List MemberStmt) c) := do
  if c.isAt .rightBrace then return .here []
  else if c.ahead.isEmpty then .error (c.unexpected (.kind .rightBrace))
  else
    let ⟨member, c₁, h₁⟩ ← readStmt c
    let ⟨members, c₂, h₂⟩ ← readAll c₁
    return .weaken <| .past h₁ ⟨member :: members, c₂, h₂⟩
termination_by c.size

end Member

namespace ClassDecl

def takeModifier? (c : Cursor) : Option (Step 1 ClassModifier c) :=
  ((c.takeWord? "abstract").map (.map fun _ => .abstract)).or
    (((c.takeWord? "final").map (.map fun _ => .final)).or
      ((c.takeWord? "readonly").map (.map fun _ => .readonly)))

/-- The modifier words of a class that come next. -/
def readModifiers (c : Cursor) : Step 0 (List ClassModifier) c :=
  match takeModifier? c with
  | some ⟨m, c₁, h₁⟩ =>
    let ⟨ms, c₂, h₂⟩ := readModifiers c₁
    .weaken <| .past h₁ ⟨m :: ms, c₂, h₂⟩
  | none => .here []
termination_by c.size

def readParent (c : Cursor) : Except ParseError (Step 0 (Option String) c) := do
  match c.takeWord? "extends" with
  | some ⟨_, c₁, h₁⟩ =>
    let ⟨name, c₂, h₂⟩ ← c₁.takeName
    return .weaken <| .past h₁ ⟨some name, c₂, h₂⟩
  | none => return .here none

def readInterfaces (c : Cursor) : Except ParseError (Step 0 (List String) c) := do
  match c.takeWord? "implements" with
  | some ⟨_, c₁, h₁⟩ =>
    let ⟨names, c₂, h₂⟩ ← c₁.takeNames
    return .weaken <| .past h₁ ⟨names, c₂, h₂⟩
  | none => return .here []

/-- A class behind its comments and attributes, which are given. -/
def read (trivia : Trivia) (c : Cursor) : Except ParseError (Step 1 ClassDecl c) := do
  let ⟨modifiers, c₁, h₁⟩ := readModifiers c
  let ⟨_, c₂, h₂⟩ ← c₁.takeWord "class"
  let ⟨name, c₃, h₃⟩ ← c₂.takeName
  let ⟨parent, c₄, h₄⟩ ← readParent c₃
  let ⟨interfaces, c₅, h₅⟩ ← readInterfaces c₄
  let ⟨_, c₆, h₆⟩ ← c₅.take .leftBrace
  let ⟨members, c₇, h₇⟩ ← Member.readAll c₆
  let closingComments := Expr.commentTexts c₇.head.comments
  let ⟨_, c₈, h₈⟩ ← c₇.take .rightBrace
  let ⟨trivia, c₉, h₉⟩ := c₈.finish trivia
  return .after h₁ <| .past h₂ <| .past h₃ <| .after h₄ <| .after h₅ <| .past h₆ <|
    .after h₇ <| .past h₈
    ⟨{ trivia, modifiers, name, parent, interfaces, members, closingComments }, c₉, h₉⟩

end ClassDecl

end ClassEdit
