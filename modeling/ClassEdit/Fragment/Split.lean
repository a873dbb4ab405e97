import ClassEdit.Class.Basic
import ClassEdit.Fragment.Extent

/-!
Code cut into its statements. A statement takes with it the comments before it and one comment
behind it on its last line; comments before the end of a block stand as a statement of their own.
-/

namespace ClassEdit

/-- The tokens of the statement that comes next. -/
def Cursor.takeStatement (c : Cursor) : Except ParseError (Step 1 (List Token) c) :=
  if c.ahead.isEmpty then .error (c.unexpected (.kind .semicolon))
  else do
    let n ← Extent.statement c
    match c.takeMore? (n - 1) with
    | some s => return s
    | none => .error (c.unexpected (.kind .semicolon))

namespace Fragment

/-- The comments before the end of a block, as a statement of their own. -/
def closing (isFirst : Bool) (comments : List Lexeme) : List InnerStmt :=
  match comments with
  | [] => []
  | l :: ls => [⟨String.ofList (excerpt (l :: ls)), !isFirst && l.followsBlankLine⟩]

/-- The statements up to the end of the source, or up to a closing brace, which stays ahead. -/
def split (braced isFirst : Bool) (c : Cursor) : Except ParseError (Step 0 (List InnerStmt) c) := do
  if braced && c.ahead.isEmpty then .error (c.unexpected (.kind .rightBrace))
  else if c.ahead.isEmpty || (braced && c.isAt .rightBrace) then
    return .here (closing isFirst c.head.comments)
  else
    let ⟨ts, c₁, h₁⟩ ← c.takeStatement
    let ⟨comment, c₂, h₂⟩ := c₁.sameLineComment
    let stmt : InnerStmt :=
      ⟨String.ofList (excerpt (ts.flatMap Token.pieces ++ comment.toList)),
        !isFirst && c.head.first.followsBlankLine⟩
    let ⟨more, c₃, h₃⟩ ← split braced false c₂
    return .weaken <| .past h₁ <| .after h₂ ⟨stmt :: more, c₃, h₃⟩
termination_by c.size

def block (c : Cursor) : Except ParseError (Step 1 (List InnerStmt) c) := do
  let ⟨_, c₁, h₁⟩ ← c.take .leftBrace
  let ⟨stmts, c₂, h₂⟩ ← split true true c₁
  let ⟨_, c₃, h₃⟩ ← c₂.take .rightBrace
  return .past h₁ <| .after h₂ ⟨stmts, c₃, h₃⟩

def withoutOpenTag (cs : List Char) : List Char :=
  let trimmed := cs.dropWhile isBlank
  if (trimmed.take 5).map Char.toLower == "<?php".toList then trimmed.drop 5 else cs

/-- The statements of code that need not have an opening tag. -/
def ofSource (source : String) : Except ParseError (List InnerStmt) := do
  let ls ← Lexeme.ofCode (withoutOpenTag source.toList)
  let ⟨stmts, _, _⟩ ← split false true (.ofLexemes ls)
  return stmts

/-- The statement of a body whose text is no code. It makes the routine fail when it is called, and
the file stays whole. -/
def fallback : InnerStmt :=
  ⟨"throw new \\Exception('Method body parsing failed');", false⟩

/-- The statements of a routine's body. Text that is no code gives a body that throws. -/
def bodyOfText (text : String) : List InnerStmt :=
  if text.toList.all isBlank then []
  else
    match ofSource text with
    | .ok stmts => stmts
    | .error _ => [fallback]

end Fragment

end ClassEdit
