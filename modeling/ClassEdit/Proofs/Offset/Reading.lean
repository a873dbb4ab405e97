import ClassEdit.Class.Parser
import ClassEdit.Proofs.Offset.Tape

/-!
Readers that go by the number of the next token and by offsets into the source: the steps over
tokens, and the comments, the newlines and the parts of the source that lie between two offsets.
-/

namespace ClassEdit

open Halt (orFault)

/-- Where a reader stands: the number of the next token, and the offset up to which
statements have been read. -/
structure At where
  pos : Nat
  lastEnd : Nat

abbrev Reading (α : Type) := ReaderT Tape (StateT At (Except Halt)) α

namespace Reading

variable {α : Type}

def refuse (e : ParseError) : Reading α := fun _ _ => .error (.refused e)

def exhausted : Reading α := fun _ _ => .error .exhausted

/-- What is looked up in the source and must be there. -/
def lookup (f : Tape → Option α) : Reading α := fun t s => (·, s) <$> orFault (f t)

/-- The token that is some tokens behind the next one, at last the end of the source. -/
def peekAt (n : Nat) : Reading Lexeme := fun t s =>
  .ok ((t.tokens[s.pos + n]?).getD (t.tokens.getLast?.getD ⟨[], .eof, [], .start⟩), s)

def peek : Reading Lexeme := peekAt 0

/-- Takes the next token. Behind the end of the source there is none. -/
def advance : Reading Lexeme := fun t s => do
  let (l, _) ← peek t s
  return (l, if s.pos < t.tokens.length then { s with pos := s.pos + 1 } else s)

def isAt (k : TokenKind) : Reading Bool := return (← peek).kind == k

def isAtWord (w : String) : Reading Bool := return (← peek).isWord w

def unexpected (wanted : Expectation) : Reading α := do
  refuse (.unexpected wanted (← peek))

def eatIf (p : Lexeme → Bool) : Reading (Option Lexeme) := do
  if p (← peek) then return some (← advance) else return none

def eat (k : TokenKind) : Reading Bool := return (← eatIf (·.kind == k)).isSome

def eatWord (w : String) : Reading Bool := return (← eatIf (·.isWord w)).isSome

/-- Takes the next token, which must pass a test. -/
def expectIf (p : Lexeme → Bool) (wanted : Expectation) : Reading Lexeme := do
  match ← eatIf p with
  | some l => return l
  | none => unexpected wanted

def expect (k : TokenKind) : Reading Lexeme := expectIf (·.kind == k) (.kind k)

def expectWord (w : String) : Reading Lexeme := expectIf (·.isWord w) (.keyword w)

def expectName (wanted : Expectation) : Reading String :=
  return (← expectIf (·.kind == .word) wanted).string

def expectVariable : Reading String :=
  return String.ofList ((← expectIf (·.kind == .var) .variable_).text.drop 1)

def prevEnd : Reading Nat := fun t s =>
  .ok (if s.pos = 0 then 0 else (t.tokens[s.pos - 1]?.map (·.span.stop)).getD 0, s)

def setEnd (n : Nat) : Reading Unit := fun _ s => .ok ((), { s with lastEnd := n })

def lastEnd : Reading Nat := fun _ s => .ok (s.lastEnd, s)

def commentsBetween (start stop : Nat) : Reading (List Lexeme) :=
  lookup (·.commentsBetween? start stop)

def excerptBetween (start stop : Nat) : Reading String :=
  lookup fun t => String.ofList <$> t.excerpt? start stop

def commentText (l : Lexeme) : Reading String := excerptBetween l.span.start l.span.stop

def hasNewline (start stop : Nat) : Reading Bool :=
  lookup fun t => (0 < ·) <$> t.newlines? start stop

def hasBlankLine (start stop : Nat) : Reading Bool :=
  lookup fun t => (2 ≤ ·) <$> t.newlines? start stop

/-- The comments and the spacing between the last statement and the next token. -/
def leadingTrivia : Reading Trivia := do
  let next := (← peek).span.start
  let start ← lastEnd
  let comments ← commentsBetween start next
  let first := (comments.head?.map (·.span.start)).getD next
  let texts ← comments.mapM commentText
  return { Trivia.empty with comments := texts, blankBefore := some (← hasBlankLine start first) }

/-- The comment that stands on the same line behind an offset. -/
def sameLineComment (start : Nat) : Reading (Option Lexeme) := do
  let next := (← peek).span.start
  match ← commentsBetween start next with
  | [] => return none
  | l :: _ => if ← hasNewline start l.span.start then return none else return some l

/-- Closes a statement, with a comment that stands behind it on its last line. -/
def finish (trivia : Trivia) : Reading Trivia := do
  let stop ← prevEnd
  setEnd stop
  match ← sameLineComment stop with
  | some l =>
    let text ← commentText l
    setEnd l.span.stop
    return { trivia with trailing := some text }
  | none => return { trivia with trailing := none }

/-- The comments between the last statement and the next token, which closes a block or is the
end. -/
def closingComments : Reading (List String) := do
  let next := (← peek).span.start
  let comments ← commentsBetween (← lastEnd) next
  let texts ← comments.mapM commentText
  match comments.getLast? with
  | some l =>
    setEnd l.span.stop
    return texts
  | none => return texts

end Reading

namespace Reading

variable {α β : Type} {t : Tape} {s s' : At}

theorem bind_of_eq {x : Reading α} {a : α} (h : x t s = .ok (a, s')) (f : α → Reading β) :
    (x >>= f) t s = f a t s' := by
  show (x t s >>= fun p => f p.1 t p.2) = _
  rw [h]
  rfl

theorem setEnd_bind (n : Nat) (f : Unit → Reading β) :
    (setEnd n >>= f) t s = f () t { s with lastEnd := n } := rfl

theorem lastEnd_bind (f : Nat → Reading β) : (lastEnd >>= f) t s = f s.lastEnd t s := rfl

theorem bind_of_same {x y : Reading α} (h : x t s = y t s') (f : α → Reading β) :
    (x >>= f) t s = (y >>= f) t s' := by
  show (x t s >>= fun p => f p.1 t p.2) = _
  rw [h]
  rfl

theorem lookup_eq {f : Tape → Option α} {a : α} (h : f t = some a) (s : At) :
    lookup f t s = .ok (a, s) := by
  rw [lookup, h]
  rfl

theorem excerptBetween_eq {start stop : Nat} {cs : List Char} (h : t.excerpt? start stop = some cs)
    (s : At) :
    excerptBetween start stop t s = .ok (String.ofList cs, s) :=
  lookup_eq (by rw [h]; rfl) s

theorem hasNewline_eq {start stop n : Nat} (h : t.newlines? start stop = some n) (s : At) :
    hasNewline start stop t s = .ok (decide (0 < n), s) :=
  lookup_eq (by rw [h]; rfl) s

theorem hasBlankLine_eq {start stop n : Nat} (h : t.newlines? start stop = some n) (s : At) :
    hasBlankLine start stop t s = .ok (decide (2 ≤ n), s) :=
  lookup_eq (by rw [h]; rfl) s

theorem bind_of_error {x : Reading α} {e : Halt} (h : x t s = .error e) (f : α → Reading β) :
    (x >>= f) t s = .error e := by
  show (x t s >>= fun p => f p.1 t p.2) = _
  rw [h]
  rfl

end Reading

end ClassEdit
