import ClassEdit.Token.Basic

/-!
What can be wrong with a source, and where. The wording of every message is in `Cause.message`.
-/

namespace ClassEdit

/-- What a reader was looking for. -/
inductive Expectation where
  | kind (k : TokenKind)
  | keyword (w : String)
  | token
  | name
  | variable_
  | type
  | expression
  | statement
  | member
  | namespaceName
  | closingBracket
  | heredocLabel
deriving DecidableEq

namespace Expectation

def text : Expectation → String
  | kind k => k.label
  | keyword w => "'" ++ w ++ "'"
  | token => "token"
  | name => "name"
  | variable_ => "variable"
  | type => "type"
  | expression => "expression"
  | statement => "statement"
  | member => "class member"
  | namespaceName => "namespace name"
  | closingBracket => "closing bracket"
  | heredocLabel => "heredoc label"

end Expectation

/-- What stood there instead. -/
inductive Finding where
  | kind (k : TokenKind)
  | character (c : Char)
  | invalidCharacter
deriving DecidableEq

namespace Finding

def text : Finding → String
  | kind k => k.label
  | character c => "character '" ++ c.toString ++ "'"
  | invalidCharacter => "invalid character"

end Finding

/-- What can lack its end. -/
inductive Unclosed where
  | comment
  | string
  | escape
  | heredocLabel
  | heredoc
deriving DecidableEq

namespace Unclosed

def text : Unclosed → String
  | comment => "comment"
  | string => "string literal"
  | escape => "escape sequence"
  | heredocLabel => "heredoc label"
  | heredoc => "heredoc"

end Unclosed

namespace ParseError

inductive Cause where
  | unexpected (wanted : Expectation) (found : Finding)
  /-- The source ended in the middle of a construct. -/
  | ended (wanted : Expectation)
  | unterminated (what : Unclosed)
  /-- A bracket closes another one than the last that was opened. -/
  | unbalanced (wanted : Expectation) (found : TokenKind)
  | noOpenTag
deriving DecidableEq

namespace Cause

def message : Cause → String
  | unexpected wanted found => "expected " ++ wanted.text ++ ", found " ++ found.text
  | ended wanted => "unexpected end of input, expected " ++ wanted.text
  | unterminated what => "unterminated " ++ what.text
  | unbalanced wanted found =>
    "unbalanced brackets, expected " ++ wanted.text ++ ", found " ++ found.label
  | noOpenTag => "no '<?php' opening tag found"

/-- What was found, for the causes that have it. -/
def found? : Cause → Option String
  | unexpected _ found => some found.text
  | ended _ => some TokenKind.eof.label
  | unbalanced _ found => some found.label
  | unterminated _ | noOpenTag => none

end Cause

end ParseError

/-- Why a source was rejected, and the part of it that shows this. -/
structure ParseError where
  cause : ParseError.Cause
  span : Span
deriving DecidableEq

namespace ParseError

def message (e : ParseError) : String :=
  "Parse error at line " ++ toString e.span.line ++ ", column " ++ toString e.span.column ++ ": " ++
    e.cause.message

/-- The error of a token that is not the one looked for. At the end of the source there is none. -/
def unexpected (wanted : Expectation) (l : Lexeme) : ParseError :=
  if l.kind = .eof then ⟨.ended wanted, l.span⟩ else ⟨.unexpected wanted (.kind l.kind), l.span⟩

def unbalanced (wanted : Expectation) (l : Lexeme) : ParseError :=
  ⟨.unbalanced wanted l.kind, l.span⟩

end ParseError

end ClassEdit
