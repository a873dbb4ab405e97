import ClassEdit.ParseError
import ClassEdit.Token.Quoted

/-!
Cutting a source into lexemes. Outside of the tags a source is text, inside it is code. Each rule of
the code says how many characters a lexeme has behind its first one, so that the lexemes of a source
cover it without a gap or an overlap. Main statement: the lexemes put together are the source.
-/

namespace ClassEdit

/-- Whether a scanner stands outside of the tags or inside. -/
inductive Mode where
  | html
  | code
deriving DecidableEq

namespace Scan

open Quoted (isNameStart)

def isNamePart (c : Char) : Bool :=
  c == '_' || c.isAlphanum || 128 ≤ c.toNat

def startsWith (w : String) (cs : List Char) : Bool :=
  w.toList.isPrefixOf cs

def wordLength (cs : List Char) : Nat :=
  (cs.takeWhile isNamePart).length

/-- The characters of a name with its separators. A separator belongs to the name if a word follows
it, or the brace of a group of imports. -/
def nameLength : List Char → Nat
  | '\\' :: c :: r =>
    if isNameStart c then nameLength (c :: r) + 1 else if c = '\x7b' then 1 else 0
  | c :: r => if isNamePart c then nameLength r + 1 else 0
  | [] => 0

/-- The opening tag, in capitals or small letters, with white space or nothing behind it. -/
def atOpenTag (cs : List Char) : Bool :=
  (cs.take 5).map Char.toLower == "<?php".toList && (cs[5]?).all isBlank

def htmlLength : List Char → Nat
  | [] => 0
  | c :: r => if atOpenTag (c :: r) then 0 else htmlLength r + 1

/-- The characters before the end of the line or the closing tag. -/
def lineCommentLength : List Char → Nat
  | '\n' :: _ => 0
  | '?' :: '>' :: _ => 0
  | _ :: r => lineCommentLength r + 1
  | [] => 0

/-- The characters up to the end of a block comment, with the marks that end it. -/
def blockCommentLength? : List Char → Option Nat
  | '*' :: '/' :: _ => some 2
  | _ :: r => (blockCommentLength? r).map (· + 1)
  | [] => none

/-- The characters up to the closing quote, with the quote. -/
def quotedLength (quote : Char) : List Char → Except Unclosed Nat
  | [] => .error .string
  | '\\' :: [] => .error (if quote = '\x27' then .string else .escape)
  | '\\' :: _ :: r => (quotedLength quote r).map (· + 2)
  | c :: r => if c = quote then .ok 1 else (quotedLength quote r).map (· + 1)

/-- Whether a line of a heredoc, without its margin, begins with the label alone. -/
def closesHeredoc (label cs : List Char) : Bool :=
  label.isPrefixOf cs && !(cs[label.length]?).any isNamePart

/-- The characters up to the label on a line of its own, with the label. -/
def heredocBodyLength? (label : List Char) : List Char → Option Nat
  | [] => none
  | c :: r =>
    let margin := (r.takeWhile isMargin).length
    if c = '\n' && closesHeredoc label (r.drop margin) then some (1 + margin + label.length)
    else (heredocBodyLength? label r).map (· + 1)

def digitsLength (cs : List Char) : Nat :=
  (cs.takeWhile fun c => c.isDigit || c == '_').length

/-- The characters of an exponent, none if no digit follows. -/
def exponentLength : List Char → Nat
  | [] => 0
  | c :: r =>
    let sign := if r.head?.any fun s => s == '+' || s == '-' then 1 else 0
    if (c == 'e' || c == 'E') && (r[sign]?).any Char.isDigit then
      1 + sign + digitsLength (r.drop sign)
    else 0

/-- The kind and the characters of a number in base ten. -/
def decimalExtent (cs : List Char) : TokenKind × Nat :=
  let whole := digitsLength cs
  let rest := cs.drop whole
  let places := if rest.head? == some '.' && (rest[1]?).any Char.isDigit then
    1 + digitsLength rest.tail else 0
  let power := exponentLength (rest.drop places)
  (if places + power = 0 then .int else .float, whole + places + power)

def isHexDigit (c : Char) : Bool :=
  c.isDigit || ('a' ≤ c && c ≤ 'f') || ('A' ≤ c && c ≤ 'F')

/-- The kind and the characters of a number. The digits behind a base are read as if all were
hexadecimal. -/
def numberExtent : List Char → TokenKind × Nat
  | '0' :: c :: r =>
    if "xXbBoO".toList.contains c then
      (.int, 2 + (r.takeWhile fun d => isHexDigit d || d == '_').length)
    else decimalExtent ('0' :: c :: r)
  | cs => decimalExtent cs

/-- The operators, each before those that it begins with. -/
def operators : List (String × TokenKind) :=
  [("...", .ellipsis), ("::", .doubleColon), ("=>", .arrow)] ++
  (["<<=", ">>=", "**=", "<=>", "===", "!==", "??=", "?->", "->", "==", "!=",
    "<>", "<=", ">=", "&&",
    "||", "??", "++", "--", "+=", "-=", "*=", "/=", ".=", "%=", "&=", "|=", "^=", "<<", ">>",
    "**"].map fun s => (s, .operator)) ++
  [("(", .leftParen), (")", .rightParen), ("\x7b", .leftBrace), ("\x7d", .rightBrace),
   ("[", .leftBracket), ("]", .rightBracket), (",", .comma), (";", .semicolon), (":", .colon),
   ("=", .equals), ("?", .question), ("|", .pipe), ("&", .ampersand), ("-", .minus)] ++
  (["+", "*", "/", "%", ".", "!", "<", ">", "^", "~", "@", "$", "\\"].map fun s => (s, .operator))

def operator? (cs : List Char) : Option (String × TokenKind) :=
  operators.find? fun o => startsWith o.1 cs

/-- A heredoc behind its opening mark: the characters up to the end of its closing label. The place
is that of the mark, which counts with the blanks, the quote and the label of the opening. -/
def heredocLength (start : Position) (cs : List Char) : Except ParseError Nat :=
  let mark := "<<<".toList
  let blanks := (cs.takeWhile isMargin).length
  let quote := (cs.drop blanks).take 1 |>.filter fun c => c == '\x27' || c == '\x22'
  let head := blanks + quote.length
  let rest := cs.drop head
  let label := rest.take (wordLength rest)
  if !rest.head?.any isNameStart then
    .error ⟨.unexpected .heredocLabel .invalidCharacter,
      Span.covering (start.after (mark ++ cs.take head)) []⟩
  else
    let body := rest.drop label.length
    if !quote.isPrefixOf body then
      .error
        ⟨.unterminated .heredocLabel, Span.covering start (mark ++ cs.take (head + label.length))⟩
    else
      match heredocBodyLength? label (body.drop quote.length) with
      | some n => .ok (head + label.length + quote.length + n)
      | none => .error ⟨.unterminated .heredoc, Span.covering start (mark ++ cs)⟩

def stringLength (start : Position) (quote : Char) (cs : List Char) : Except ParseError Nat :=
  match quotedLength quote cs with
  | .ok n => .ok n
  | .error .escape => .error ⟨.unterminated .escape, Span.covering (start.after (quote :: cs)) []⟩
  | .error what => .error ⟨.unterminated what, Span.covering start (quote :: cs)⟩

/-- The kind of the lexeme that code begins with, and its characters behind the first. -/
def codeLexeme (start : Position) (c : Char) (r : List Char) :
    Except ParseError (TokenKind × Nat) :=
  let cs := c :: r
  if startsWith "?>" cs then .ok (.closeTag, 1)
  else if startsWith "#[" cs then .ok (.attributeOpen, 1)
  else if c = '#' || startsWith "//" cs then .ok (.comment, lineCommentLength r)
  else if startsWith "/*" cs then
    match blockCommentLength? (r.drop 1) with
    | some n => .ok (.comment, n + 1)
    | none => .error ⟨.unterminated .comment, Span.covering start (cs.take 2)⟩
  else if startsWith "<<<" cs then return (.heredoc, (← heredocLength start (r.drop 2)) + 2)
  else if c = '$' && r.head?.any isNameStart then .ok (.var, wordLength r)
  else if isNameStart c || (c == '\\' && r.head?.any isNameStart)
    then .ok (.word, nameLength cs - 1)
  else if c.isDigit || (c == '.' && r.head?.any Char.isDigit) then
    let (kind, n) := numberExtent cs
    .ok (kind, n - 1)
  else if c = '\x27' || c = '\x22' || c = '\x60' then return (.quoted, ← stringLength start c r)
  else
    match operator? cs with
    | some (s, kind) => .ok (kind, s.length - 1)
    | none => .error ⟨.unexpected .token (.character c), Span.covering start [c]⟩

/-- The kind of the lexeme that a text begins with, and its characters behind the first. -/
def lexeme (mode : Mode) (start : Position) (c : Char) (r : List Char) :
    Except ParseError (TokenKind × Nat) :=
  match mode with
  | .html => .ok (if atOpenTag (c :: r) then (.openTag, 4) else (.html, htmlLength r))
  | .code => codeLexeme start c r

def modeAfter (kind : TokenKind) : Mode :=
  if kind = .closeTag || kind = .html then .html else .code

/-- White space that is skipped; outside of the tags there is none. -/
def gapOf (mode : Mode) (cs : List Char) : List Char :=
  match mode with
  | .html => []
  | .code => cs.takeWhile isBlank

theorem length_lt_of_drop {n : Nat} {cs r : List Char} {c : Char} (h : cs.drop n = c :: r) :
    r.length < cs.length := by
  have := congrArg List.length h
  simp only [List.length_drop, List.length_cons] at this
  omega

/-- The lexemes of a text that begins at a place. The last one, and only that, is the end of the
text. -/
def lexemes (mode : Mode) (start : Position) (cs : List Char) : Except ParseError (List Lexeme) :=
  let gap := gapOf mode cs
  let here := start.after gap
  match hcs : cs.drop gap.length with
  | [] => .ok [⟨gap, .eof, [], here⟩]
  | c :: r => do
    have : r.length < cs.length := length_lt_of_drop hcs
    let (kind, n) ← lexeme mode here c r
    let text := c :: r.take n
    let more ← lexemes (modeAfter kind) (here.after text) (r.drop n)
    return ⟨gap, kind, text, here⟩ :: more
termination_by cs.length
decreasing_by
  rw [List.length_drop]
  omega

theorem gapOf_append (mode : Mode) (cs : List Char) :
    gapOf mode cs ++ cs.drop (gapOf mode cs).length = cs := by
  cases mode with
  | html => rfl
  | code => exact (List.prefix_iff_eq_append.1 (List.takeWhile_prefix _))

/-- The lexemes put together are the source. -/
theorem source_lexemes {mode : Mode} {start : Position} {cs : List Char} {ls : List Lexeme}
    (h : lexemes mode start cs = .ok ls) : ls.flatMap Lexeme.source = cs := by
  fun_induction lexemes mode start cs generalizing ls with
  | case1 mode start cs gap here =>
    rename_i hcs
    cases h
    have hg := gapOf_append mode cs
    rw [hcs, List.append_nil] at hg
    simpa [Lexeme.source] using hg
  | case2 mode start cs gap here c r hcs =>
    rename_i ih
    cases hl : lexeme mode here c r with
    | error e => simp [hl, bind, Except.bind] at h
    | ok kn =>
      obtain ⟨kind, n⟩ := kn
      cases hm : lexemes (modeAfter kind) (here.after (c :: r.take n)) (r.drop n) with
      | error e => simp [hl, hm, bind, Except.bind] at h
      | ok more =>
        simp only [hl, hm, bind, Except.bind, pure, Except.pure, Except.ok.injEq] at h
        subst h
        have hg := gapOf_append mode cs
        rw [hcs] at hg
        rw [List.flatMap_cons, ih kind n hm]
        simpa [Lexeme.source] using hg

end Scan

/-- The lexemes of a file. What stands before the opening tag is text. -/
def Lexeme.ofFile (source : String) : Except ParseError (List Lexeme) :=
  Scan.lexemes .html .start source.toList

def Lexeme.ofCode (cs : List Char) : Except ParseError (List Lexeme) :=
  Scan.lexemes .code .start cs

/-- Code moved right: every line behind the first stands behind `margin`, but for blank
lines and those that begin inside a string literal. Code that cannot be cut into lexemes is
taken to hold no literal. -/
def reindent (margin : String) (code : String) : String :=
  let cs := code.toList
  if cs.contains '\n' then
    let marked := match Lexeme.ofCode cs with
      | .ok ls => ls.flatMap Lexeme.markedSource
      | .error _ => cs.map fun c => (c, false)
    String.ofList (indentLines margin.toList marked)
  else code

end ClassEdit
