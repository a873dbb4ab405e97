import ClassEdit.Cursor
import ClassEdit.Expr.Basic
import ClassEdit.Number.Literal

/-!
Reading expressions. A literal that is the whole expression is taken apart; any other expression is
text up to the comma, the semicolon or the bracket that ends it.
-/

namespace ClassEdit

def TokenKind.endsExpr : TokenKind → Bool
  | .comma | .semicolon | .rightParen | .rightBracket | .rightBrace | .arrow | .closeTag | .eof =>
      true
  | _ => false

namespace Expr

/-- The tokens of an expression that is not taken apart, given the closers of the brackets open so
far. -/
def rawLength (eof : Token) : List TokenKind → List Token → Except ParseError Nat
  | closers, [] => if closers.isEmpty then .ok 0 else .error ⟨.ended .closingBracket, eof.span⟩
  | closers, t :: ts =>
    if closers.isEmpty && t.kind.endsExpr then .ok 0
    else
      match t.kind.closer? with
      | some closer => (· + 1) <$> rawLength eof (closer :: closers) ts
      | none =>
        if !t.kind.isCloser then (· + 1) <$> rawLength eof closers ts
        else
          match closers with
          | [] => .ok 0
          | closer :: outer =>
            if t.kind ≠ closer then .error (.unbalanced (.kind closer) t.toLexeme)
            else (· + 1) <$> rawLength eof outer ts

/-- An expression as text, of at least one token. -/
def readRaw (c : Cursor) : Except ParseError (Step 1 Expr c) := do
  let n ← rawLength c.eof [] c.ahead
  match if n = 0 then none else c.takeMore? (n - 1) with
  | some s => return s.map fun ts => .raw (excerptOf ts)
  | none => .error (c.unexpected .expression)

/-- A number after a sign. The spelling leaves out what stands between the two. -/
def negated? (t : Token) : Option Expr :=
  let spelling := some ("-" ++ t.string)
  match t.kind with
  | .int => (NumberLiteral.readInteger t.text).map fun n => .int (-n) spelling
  | .float => some (.float (NumberLiteral.readFloat t.text).neg spelling)
  | _ => none

/-- A literal that is no array: one token, or a sign and a number. -/
def scalar? (c : Cursor) : Option (Step 1 Expr c) :=
  match c.next? with
  | none => none
  | some ⟨t, c₁, h₁⟩ =>
    let one (e : Expr) : Step 1 Expr c := ⟨e, c₁, h₁⟩
    match t.kind with
    | .quoted =>
      if Quoted.isInterpolated t.text then none
      else some (one (.string (String.ofList (Quoted.value t.text)) (some t.string)))
    | .int => (NumberLiteral.readInteger t.text).map fun n => one (.int n (some t.string))
    | .float => some (one (.float (NumberLiteral.readFloat t.text) (some t.string)))
    | .word => some (one (.const t.string))
    | .minus =>
      c₁.next?.bind fun ⟨u, c₂, h₂⟩ => (negated? u).map fun e => .past h₁ ⟨e, c₂, h₂⟩
    | _ => none

/-- The opening of an array literal: the closer, and whether the syntax is the long one. -/
def arrayOpening? (c : Cursor) : Option (Step 1 (TokenKind × Bool) c) :=
  match c.take? .leftBracket with
  | some ⟨_, c₁, h₁⟩ => some ⟨(.rightBracket, false), c₁, h₁⟩
  | none =>
    (c.takeWord? "array").bind fun ⟨_, c₁, h₁⟩ =>
      (c₁.take? .leftParen).map fun ⟨_, c₂, h₂⟩ => .past h₁ ⟨(.rightParen, true), c₂, h₂⟩

/-- The literal of what was read between its brackets. Comments put each item on a line. -/
def arrayLiteral (long onNewLine : Bool) (items : List ArrayItem) (closing : List String) :
    ArrayLiteral :=
  let hasComments := !closing.isEmpty || items.any fun i => !i.comments.isEmpty || i.trailing.isSome
  ⟨items, long, onNewLine || hasComments, closing⟩

def commentTexts (comments : List Lexeme) : List String :=
  comments.map Lexeme.commentText

mutual

def read (c : Cursor) : Except ParseError (Step 1 Expr c) := do
  match ← readLiteral c with
  | some ⟨e, c', h⟩ => if c'.head.kind.endsExpr then return ⟨e, c', h⟩ else readRaw c
  | none => readRaw c
termination_by 4 * c.size + 1

/-- A literal, whatever comes behind it. An array that is broken off is an error, since no text up
to a separator could be an expression either. -/
def readLiteral (c : Cursor) : Except ParseError (Option (Step 1 Expr c)) :=
  match arrayOpening? c with
  | none => .ok (scalar? c)
  | some ⟨(closer, long), c₁, h₁⟩ => do
    let ⟨(items, closing), c₂, h₂⟩ ← readItems closer c₁
    let literal := arrayLiteral long c₁.head.isOnNewLine items closing
    return some (.past h₁ ⟨.array literal, c₂, h₂⟩)
termination_by 4 * c.size + 0

/-- The items of an array up to its closer, and the comments before the closer. -/
def readItems (closer : TokenKind) (c : Cursor) :
    Except ParseError (Step 1 (List ArrayItem × List String) c) := do
  let comments := commentTexts c.head.comments
  match c.take? closer with
  | some ⟨_, c₁, h₁⟩ => return ⟨([], comments), c₁, h₁⟩
  | none =>
    if c.ahead.isEmpty then .error (c.unexpected (.kind closer))
    else
      let ⟨item, c₁, h₁⟩ ← readItem c
      match c₁.take? .comma with
      | some ⟨_, c₂, h₂⟩ =>
        let ⟨comment, c₃, h₃⟩ := c₂.sameLineComment
        let trailing := comment.map Lexeme.commentText
        let ⟨(items, closing), c₄, h₄⟩ ← readItems closer c₃
        return .past h₁ <| .past h₂ <| .after h₃
          ⟨({ item with comments, trailing } :: items, closing), c₄, h₄⟩
      | none =>
        let closing := commentTexts c₁.head.comments
        let ⟨_, c₂, h₂⟩ ← c₁.take closer
        return .past h₁ ⟨([{ item with comments }], closing), c₂, h₂⟩
termination_by 4 * c.size + 3

/-- An item of an array: spread, keyed or a value alone. -/
def readItem (c : Cursor) : Except ParseError (Step 1 ArrayItem c) := do
  match c.take? .ellipsis with
  | some ⟨_, c₁, h₁⟩ =>
    let ⟨value, c₂, h₂⟩ ← read c₁
    return .past h₁ ⟨{ ArrayItem.positional value with spread := true }, c₂, h₂⟩
  | none =>
    let ⟨byRef, c₁, h₁⟩ := c.accept .ampersand
    let ⟨first, c₂, h₂⟩ ← read c₁
    match if byRef then none else c₂.take? .arrow with
    | some ⟨_, c₃, h₃⟩ =>
      let ⟨byRef, c₄, h₄⟩ := c₃.accept .ampersand
      let ⟨value, c₅, h₅⟩ ← read c₄
      return .after h₁ <| .past h₂ <| .past h₃ <| .after h₄
        ⟨{ ArrayItem.keyed first value with byRef }, c₅, h₅⟩
    | none => return .after h₁ ⟨{ ArrayItem.positional first with byRef }, c₂, h₂⟩
termination_by 4 * c.size + 2

end

/-- The expression that a source is, with or without a semicolon behind it. -/
def ofSource (source : String) : Except ParseError Expr := do
  let ls ← Lexeme.ofCode source.toList
  let ⟨e, c₁, _⟩ ← read (.ofLexemes ls)
  let ⟨_, c₂, _⟩ := c₁.accept .semicolon
  if c₂.ahead.isEmpty then return e else .error (c₂.unexpected (.kind .eof))

end Expr

end ClassEdit
