import ClassEdit.Text.Lines

/-!
Tokens of a class file. A lexeme is a piece of the source with the white space before it, so that
the lexemes of a source put together are the source. A token is a lexeme that is no comment, with
the comments that stand before it.
-/

namespace ClassEdit

/-- A place in a source. Lines and columns count from one; the margin is the number of spaces and
tabs that the line begins with, as far as they lie before the place. -/
structure Position where
  byte : Nat
  line : Nat
  column : Nat
  margin : Nat
  inMargin : Bool
deriving DecidableEq

namespace Position

def start : Position := ⟨0, 1, 1, 0, true⟩

/-- The place after one more character. -/
def step (p : Position) (c : Char) : Position :=
  if c = '\n' then ⟨p.byte + c.utf8Size, p.line + 1, 1, 0, true⟩
  else
    let inMargin := p.inMargin && isMargin c
    ⟨p.byte + c.utf8Size, p.line, p.column + 1, if inMargin then p.margin + 1
      else p.margin, inMargin⟩

/-- The place after a text. -/
def after (p : Position) (cs : List Char) : Position :=
  cs.foldl step p

theorem after_append (p : Position) (a b : List Char) : p.after (a ++ b) = (p.after a).after b :=
  List.foldl_append

end Position

/-- A part of a source in bytes, with the line and column of its start. -/
structure Span where
  start : Nat
  stop : Nat
  line : Nat
  column : Nat
deriving DecidableEq

namespace Span

/-- The part of the source that a text at a place takes up. -/
def covering (p : Position) (cs : List Char) : Span :=
  ⟨p.byte, (p.after cs).byte, p.line, p.column⟩

end Span

inductive TokenKind where
  | openTag
  | closeTag
  /-- Text outside of the tags. -/
  | html
  | comment
  /-- The opening of an attribute group. -/
  | attributeOpen
  /-- Keywords and names alike; most keywords are names in some place. -/
  | word
  /-- A variable with its sigil. -/
  | var
  | int
  | float
  /-- A string literal in single or double quotes or in backquotes. -/
  | quoted
  | heredoc
  | leftParen
  | rightParen
  | leftBrace
  | rightBrace
  | leftBracket
  | rightBracket
  | comma
  | semicolon
  | colon
  | doubleColon
  | equals
  | arrow
  | question
  | pipe
  | ampersand
  | ellipsis
  | minus
  /-- An operator that no rule of the grammar names. -/
  | operator
  | eof
deriving DecidableEq

namespace TokenKind

/-- The kind as a message names it. -/
def label : TokenKind → String
  | openTag => "'<?php'"
  | closeTag => "'?>'"
  | html => "inline HTML"
  | comment => "comment"
  | attributeOpen => "'#['"
  | word => "identifier"
  | var => "variable"
  | int => "integer"
  | float => "float"
  | quoted => "string"
  | heredoc => "heredoc"
  | leftParen => "'('"
  | rightParen => "')'"
  | leftBrace => "'\x7b'"
  | rightBrace => "'\x7d'"
  | leftBracket => "'['"
  | rightBracket => "']'"
  | comma => "','"
  | semicolon => "';'"
  | colon => "':'"
  | doubleColon => "'::'"
  | equals => "'='"
  | arrow => "'=>'"
  | question => "'?'"
  | pipe => "'|'"
  | ampersand => "'&'"
  | ellipsis => "'...'"
  | minus => "'-'"
  | operator => "operator"
  | eof => "end of input"

/-- The bracket that closes this one, of those that open. -/
def closer? : TokenKind → Option TokenKind
  | leftParen => some rightParen
  | leftBrace => some rightBrace
  | leftBracket | attributeOpen => some rightBracket
  | _ => none

def isCloser : TokenKind → Bool
  | rightParen | rightBrace | rightBracket => true
  | _ => false

/-- Literals whose text is data of the program. -/
def isLiteral : TokenKind → Bool
  | quoted | heredoc => true
  | _ => false

end TokenKind

/-- A piece of a source with the white space before it. -/
structure Lexeme where
  gap : List Char
  kind : TokenKind
  text : List Char
  /-- Where the text begins. -/
  start : Position
deriving DecidableEq

namespace Lexeme

def span (l : Lexeme) : Span :=
  Span.covering l.start l.text

def source (l : Lexeme) : List Char :=
  l.gap ++ l.text

def string (l : Lexeme) : String :=
  String.ofList l.text

def isWord (l : Lexeme) (w : String) : Bool :=
  l.kind == .word && l.text.map Char.toLower == w.toList

def isAnyWord (l : Lexeme) (ws : List String) : Bool :=
  ws.any l.isWord

def marked (l : Lexeme) : List MarkedChar :=
  l.text.map fun c => (c, l.kind.isLiteral)

def markedSource (l : Lexeme) : List MarkedChar :=
  l.gap.map (fun c => (c, false)) ++ l.marked

def isOnNewLine (l : Lexeme) : Bool :=
  l.gap.contains '\n'

def followsBlankLine (l : Lexeme) : Bool :=
  2 ≤ l.gap.count '\n'

end Lexeme

/-- A lexeme that is no comment, with the comments before it. Its gap lies behind the last of
them. -/
structure Token extends Lexeme where
  comments : List Lexeme
deriving DecidableEq

namespace Token

def pieces (t : Token) : List Lexeme :=
  t.comments ++ [t.toLexeme]

/-- What comes first in the source, a comment or the token. -/
def first (t : Token) : Lexeme :=
  t.comments.headD t.toLexeme

/-- Whether the token is on another line than what is before it, over its comments. -/
def isOnNewLine (t : Token) : Bool :=
  t.toLexeme.isOnNewLine || t.comments.any fun c => c.source.contains '\n'

/-- Hands each comment to the next lexeme that is none. -/
def ofLexemes (comments : List Lexeme) : List Lexeme → List Token
  | [] => []
  | l :: ls =>
    if l.kind = .comment then ofLexemes (comments ++ [l]) ls
    else { l with comments := comments } :: ofLexemes [] ls

/-- Only comments at the very end can be lost, and the last lexeme of a source is no comment. -/
theorem pieces_ofLexemes (comments ls : List Lexeme) (h : ∀ l, ls.getLast? = some l →
    l.kind ≠ .comment)
    (hne : ls ≠ []) : (ofLexemes comments ls).flatMap pieces = comments ++ ls := by
  induction ls generalizing comments with
  | nil => exact absurd rfl hne
  | cons l r ih =>
    unfold ofLexemes
    cases r with
    | nil =>
      rw [if_neg (h l (by simp))]
      simp [ofLexemes, pieces]
    | cons l' r' =>
      have hr := fun c => ih c (fun x hx => h x (by simpa using hx)) (by simp)
      split
      · rw [hr]; simp
      · rw [List.flatMap_cons, hr]; simp [pieces]

end Token

/-- The text of consecutive pieces of a source, without the white space before the first of them. It
is moved left by the indentation of the line on which the first piece begins. -/
def excerpt : List Lexeme → List Char
  | [] => []
  | l :: ls => dedent l.start.margin (l.marked ++ ls.flatMap Lexeme.markedSource)

/-- The same for tokens, without the comments before the first of them. -/
def excerptOf : List Token → String
  | [] => ""
  | t :: ts => String.ofList (excerpt (t.toLexeme :: ts.flatMap Token.pieces))

/-- The text of a comment, moved left by the indentation of its line. -/
def Lexeme.commentText (l : Lexeme) : String :=
  String.ofList (excerpt [l])

end ClassEdit
