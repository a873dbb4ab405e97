import ClassEdit.Proofs.Offset.File

/-!
Sources read by offsets from beginning to end, with as many rounds for every loop as the source has
tokens. Main statements: a file, code and an expression come to the same as with the readers that go
from cursor to cursor, and code moved right comes to the same text.
-/

namespace ClassEdit

open Halt (orFault orFault_some ofResult ofResult_bind)
open Lexeme (extent)
open Scan (lexemes lexemesByOffset lexemesByOffset_eq scanned_of_lexemes)

namespace Reading

variable {α : Type}

/-- Reads a source, given a reader and the number of its rounds. -/
def ofSource (mode : Mode) (source : List Char) (x : Nat → Reading α) : Except Halt α := do
  let ls ← lexemesByOffset mode source
  let t : Tape := ⟨source, ls.filter (·.kind != .comment), ls.filter (·.kind == .comment)⟩
  Prod.fst <$> x t.tokens.length t ⟨0, 0⟩

def fragment (n : Nat) : Reading (List InnerStmt) := do split n false true (← lastEnd)

/-- An expression up to the end of the source, with or without a semicolon behind it. -/
def wholeExpr (n : Nat) : Reading Expr := do
  let e ← expr n
  let _ ← eat .semicolon
  let _ ← expect .eof
  return e

end Reading

def SourceFile.byOffset (source : String) : Except Halt SourceFile :=
  Reading.ofSource .html source.toList Reading.file

def Fragment.byOffset (source : String) : Except Halt (List InnerStmt) := do
  let code ← orFault (Fragment.withoutOpenTagAt? source.toList)
  Reading.ofSource .code code Reading.fragment

def Expr.byOffset (source : String) : Except Halt Expr :=
  Reading.ofSource .code source.toList Reading.wholeExpr

/-- The offsets of the lines that begin inside of the literals of code. Code that cannot be cut
into lexemes has none. -/
def literalLinesOf (code : List Char) : Except Halt (List Nat) :=
  match lexemesByOffset .code code with
  | .ok ls => orFault (literalLines? code ls)
  | .error (.refused _) => .ok []
  | .error e => .error e

/-- Code moved right, its lines counted by offsets. -/
def reindentByOffset (margin code : String) : Except Halt String :=
  let cs := code.toList
  if cs.contains '\n' then do
    let lines ← literalLinesOf cs
    return String.ofList (indentLines margin.toList (markLines lines 0 cs))
  else return code

def At.behind (front : List Lexeme) : At :=
  ⟨(front.filter (·.kind != .comment)).length, extent front⟩

section Places

variable {ls front back : List Lexeme}

/-- The lexemes of a source can be read from behind any of them. -/
theorem Marked.behind (h : IsWhole (front ++ back)) (hback : back ≠ []) :
    Marked (front ++ back) (.behind front) (.ofLexemes back) := by
  obtain ⟨mode, hscanned⟩ := id h
  obtain ⟨mode', hscanned⟩ := hscanned.of_append hback
  obtain ⟨hlexed, hpieces⟩ := Cursor.isLexed_ofLexemes hscanned.lexemes_eq
  exact ⟨front, ⟨h, by rw [hpieces], rfl, mode', hlexed⟩, rfl⟩

theorem Stands.size_lt {tight : Bool} {s : At} {c : Cursor} (h : Stands ls tight s c) {n : Nat}
    (hn : (Tape.ofLexemes ls).tokens.length ≤ s.pos + n) : c.size < n := by
  obtain ⟨front, hfront, -⟩ := h
  rw [hfront.length_tokens] at hn
  omega

end Places

section Sources

variable {α : Type} {mode : Mode} {source : List Char}

/-- What is read from the beginning of the lexemes is read from the source. -/
theorem Reading.ofSource_eq {x : Nat → Reading α} {f : List Lexeme → Except ParseError α}
    (h : ∀ ls n, lexemes mode .start source = .ok ls → Marked ls ⟨0, 0⟩ (.ofLexemes ls) →
      (Cursor.ofLexemes ls).size < n → Prod.fst <$> x n (Tape.ofLexemes ls) ⟨0, 0⟩ =
        ofResult (f ls)) :
    Reading.ofSource mode source x = ofResult (lexemes mode .start source >>= f) := by
  rw [Reading.ofSource, lexemesByOffset_eq, ofResult_bind]
  cases hls : lexemes mode .start source with
  | error e => rfl
  | ok ls =>
    obtain ⟨hwhole, hsource⟩ := IsWhole.of_lexemes hls
    have hmarked : Marked ([] ++ ls) (.behind []) (.ofLexemes ls) :=
      .behind hwhole (scanned_of_lexemes hls).ne_nil
    have hsize := hmarked.stands.size_lt (Nat.le_add_left _ 0)
    rw [hsource]
    exact h ls _ hls hmarked hsize

theorem SourceFile.byOffset_eq (source : String) :
    SourceFile.byOffset source = ofResult (SourceFile.ofSource source) := by
  refine Reading.ofSource_eq fun ls n hls hmarked hn => ?_
  have hfile := hmarked.stands.file hls hn
  rw [SourceFile.ofSource, Lexeme.ofFile, hls, ok_bind] at hfile
  exact hfile

theorem Fragment.byOffset_eq (source : String) :
    Fragment.byOffset source = ofResult (Fragment.ofSource source) := by
  rw [Fragment.byOffset, Fragment.withoutOpenTagAt?_eq, orFault_some, ok_bind]
  refine Reading.ofSource_eq fun ls n _ hmarked hn => ?_
  have hmarked : Reaches ls 0 ⟨0, 0⟩ (.ofLexemes ls) := hmarked
  rw [Reading.fragment, Reading.lastEnd_bind, ← bind_pure (Reading.split n false true 0)]
  exact (hmarked.split hn false true).toResult id

/-- The end of the source is all that is left. -/
theorem Stands.expectEnd {ls : List Lexeme} {tight : Bool} {s : At} {c : Cursor}
    (h : Stands ls tight s c) (e : α) :
    Prod.fst <$> (Reading.expect .eof >>= fun _ => pure e) (Tape.ofLexemes ls) s =
      ofResult (if c.ahead.isEmpty then return e else .error (c.unexpected (.kind .eof))) := by
  have heof : (c.head.kind == .eof) = c.ahead.isEmpty := h.isAt_eof
  rw [Reading.expect, Reading.expectIf, Reading.eatIf, bind_assoc, bind_assoc,
    Reading.bind_of_eq h.peek, heof]
  cases c.ahead.isEmpty with
  | true =>
    rw [if_pos rfl, if_pos rfl, bind_assoc, Reading.bind_of_eq h.advance]
    rfl
  | false =>
    rw [if_neg Bool.false_ne_true, if_neg Bool.false_ne_true, pure_bind,
      Reading.bind_of_error (h.unexpected_eq _)]
    rfl

/-- An expression that is read by offsets is the one that the reader of tokens finds. -/
theorem Expr.byOffset_eq (source : String) :
    Expr.byOffset source = ofResult (Expr.ofSource source) := by
  refine Reading.ofSource_eq fun ls n _ hmarked hn => ?_
  have hexpr := hmarked.stands.expr hn
  rw [Reading.wholeExpr]
  generalize hmachine : Reading.expr n (Tape.ofLexemes ls) ⟨0, 0⟩ = result at hexpr
  generalize Expr.read (.ofLexemes ls) = r at hexpr
  cases hexpr with
  | refused e =>
    rw [Reading.bind_of_error hmachine]
    rfl
  | @ok st s₁ hs₁ =>
    obtain ⟨e, c₁, h₁⟩ := st
    obtain ⟨s₂, haccept, hs₂⟩ :=
      (Stands.accept (c := c₁) hs₁ (by decide : TokenKind.semicolon ≠ .eof)).exists_ok
    rw [Reading.bind_of_eq hmachine, Reading.bind_of_eq haccept, ok_bind]
    exact hs₂.expectEnd e

end Sources

section Reindent

/-- Comments are no literals. -/
theorem literalLines?_filter (source : List Char) (ls : List Lexeme) :
    literalLines? source (ls.filter (·.kind != .comment)) = literalLines? source ls := by
  induction ls with
  | nil => rfl
  | cons l ls ih =>
    rw [List.filter_cons]
    split
    next => rw [literalLines?, literalLines?, ih]
    next hcomment =>
      have hliteral : l.kind.isLiteral = false := by
        rw [show l.kind = .comment by simpa using hcomment]
        rfl
      rw [ih, literalLines?, hliteral, if_neg Bool.false_ne_true]

/-- The lines that begin inside of the literals of a source are those behind the
newlines of the literals. -/
theorem literalLines?_of_lexemes {mode : Mode} {source : List Char} {ls : List Lexeme}
    (h : lexemes mode .start source = .ok ls) :
    literalLines? source ls = some (dataEnds 0 (ls.flatMap Lexeme.markedSource)) := by
  obtain ⟨hwhole, hsource⟩ := IsWhole.of_lexemes h
  have hlines := literalLines?_eq hwhole (show ls = [] ++ (ls ++ []) by simp)
  rw [literalLines?_filter, ← hsource] at hlines
  exact hlines

/-- Code with its literals marked, none if it has no lexemes. -/
def markedCode (code : List Char) : List MarkedChar :=
  match Lexeme.ofCode code with
  | .ok ls => ls.flatMap Lexeme.markedSource
  | .error _ => code.map fun c => (c, false)

theorem reindent_eq (margin code : String) : reindent margin code =
    if code.toList.contains '\n'
      then String.ofList (indentLines margin.toList (markedCode code.toList)) else code :=
  rfl

theorem map_fst_markedCode (code : List Char) : (markedCode code).map (·.1) = code := by
  rw [markedCode]
  split
  next hls => rw [Lexeme.map_fst_markedSource, (scanned_of_lexemes hls).source]
  next => simp [Function.comp_def]

/-- The lines that begin in literals are found the same by offsets. -/
theorem literalLinesOf_eq (code : List Char) :
    literalLinesOf code = .ok (dataEnds 0 (markedCode code)) := by
  rw [literalLinesOf, lexemesByOffset_eq, markedCode, Lexeme.ofCode]
  cases hls : lexemes .code .start code with
  | error e =>
    dsimp only [ofResult]
    rw [dataEnds_map, if_neg Bool.false_ne_true]
  | ok ls =>
    dsimp only [ofResult]
    rw [literalLines?_of_lexemes hls]
    rfl

theorem reindentByOffset_eq (margin code : String) :
    reindentByOffset margin code = .ok (reindent margin code) := by
  have hmoved := indentLines_markLines (isDataOf_dataEnds (markedCode code.toList)) margin.toList
  rw [map_fst_markedCode] at hmoved
  rw [reindentByOffset, reindent_eq]
  split
  next =>
    rw [literalLinesOf_eq, ok_bind, hmoved]
    rfl
  next => rfl

end Reindent

end ClassEdit
