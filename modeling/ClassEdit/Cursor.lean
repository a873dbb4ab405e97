import ClassEdit.Token.Scan

/-!
Where a reader stands in the tokens of a source. A reading step carries the proof that it did not go
back (`Step 0`) or that it took a token (`Step 1`); that is why every loop of the readers ends.
-/

namespace ClassEdit

/-- The tokens ahead, and the end of the source behind them. -/
structure Cursor where
  ahead : List Token
  eof : Token

namespace Cursor

/-- The cursor before the lexemes of a source, of which the last is the end. -/
def ofLexemes (ls : List Lexeme) : Cursor :=
  let ts := Token.ofLexemes [] ls
  ⟨ts.dropLast, ts.getLast?.getD ⟨⟨[], .eof, [], .start⟩, []⟩⟩

def size (c : Cursor) : Nat := c.ahead.length

/-- The token that comes next, at last the end of the source. -/
def head (c : Cursor) : Token := c.ahead.headD c.eof

def second (c : Cursor) : Token := c.ahead.tail.headD c.eof

def isAt (c : Cursor) (k : TokenKind) : Bool := c.head.kind == k

def isAtWord (c : Cursor) (w : String) : Bool := c.head.isWord w

def skip (c : Cursor) (n : Nat) : Cursor := { c with ahead := c.ahead.drop n }

theorem size_skip (c : Cursor) (n : Nat) : (c.skip n).size = c.size - n := by
  simp [size, skip]

def unexpected (c : Cursor) (wanted : Expectation) : ParseError :=
  ParseError.unexpected wanted c.head.toLexeme

def withComments (c : Cursor) (comments : List Lexeme) : Cursor :=
  match c.ahead with
  | t :: ts => { c with ahead := { t with comments := comments } :: ts }
  | [] => { c with eof := { c.eof with comments := comments } }

theorem size_withComments (c : Cursor) (comments : List Lexeme) :
    (c.withComments comments).size = c.size := by
  unfold withComments
  split
  next h => simp [size, h]
  next => rfl

end Cursor

/-- What was read from a cursor on, and the cursor behind it, at least `k` tokens further. -/
structure Step (k : Nat) (α : Type) (c : Cursor) where
  value : α
  rest : Cursor
  progress : rest.size + k ≤ c.size

namespace Step

variable {α β : Type} {k : Nat} {c c₁ : Cursor}

/-- What is known without reading on. -/
def here (x : α) : Step 0 α c := ⟨x, c, Nat.le_refl _⟩

def skipping (x : α) (n : Nat) : Step 0 α c := ⟨x, c.skip n, by rw [Cursor.size_skip]; omega⟩

/-- What is known without reading on, past the comments before the next token. -/
def skippingComments (x : α) : Step 0 α c :=
  ⟨x, c.withComments [], Nat.le_of_eq (c.size_withComments [])⟩

/-- A step from behind a token, as one from before the token. -/
def past (h : c₁.size + 1 ≤ c.size) (s : Step k α c₁) : Step 1 α c :=
  ⟨s.value, s.rest, by have := s.progress; omega⟩

/-- A step from where one ended that need not have taken a token, as one from where that began. -/
def after (h : c₁.size + 0 ≤ c.size) (s : Step k α c₁) : Step k α c :=
  ⟨s.value, s.rest, Nat.le_trans s.progress h⟩

def weaken (s : Step k α c) : Step 0 α c :=
  ⟨s.value, s.rest, Nat.le_trans (Nat.le_add_right _ k) s.progress⟩

def map (f : α → β) (s : Step k α c) : Step k β c :=
  ⟨f s.value, s.rest, s.progress⟩

end Step

namespace Cursor

/-- The comment that follows on the same line what was read last. -/
def sameLineComment (c : Cursor) : Step 0 (Option Lexeme) c :=
  match c.head.comments with
  | l :: ls =>
    if l.isOnNewLine then ⟨none, c, Nat.le_refl _⟩
    else ⟨some l, c.withComments ls, Nat.le_of_eq (size_withComments c ls)⟩
  | [] => ⟨none, c, Nat.le_refl _⟩

/-- The next token, if there is one. -/
def next? (c : Cursor) : Option (Step 1 Token c) :=
  match h : c.ahead with
  | t :: ts => some ⟨t, { c with ahead := ts }, by simp [size, h]⟩
  | [] => none

def take? (c : Cursor) (k : TokenKind) : Option (Step 1 Token c) :=
  c.next?.filter (·.value.kind == k)

def takeWord? (c : Cursor) (w : String) : Option (Step 1 Token c) :=
  c.next?.filter (·.value.isWord w)

def take (c : Cursor) (k : TokenKind) : Except ParseError (Step 1 Token c) :=
  match c.take? k with
  | some s => .ok s
  | none => .error (c.unexpected (.kind k))

def takeWord (c : Cursor) (w : String) : Except ParseError (Step 1 Token c) :=
  match c.takeWord? w with
  | some s => .ok s
  | none => .error (c.unexpected (.keyword w))

/-- A word, whether keyword or name. -/
def takeName (c : Cursor) : Except ParseError (Step 1 String c) :=
  match c.take? .word with
  | some ⟨t, c', h⟩ => .ok ⟨t.string, c', h⟩
  | none => .error (c.unexpected .name)

/-- The name of a variable, without its sigil. -/
def takeVariable (c : Cursor) : Except ParseError (Step 1 String c) :=
  match c.take? .var with
  | some ⟨t, c', h⟩ => .ok ⟨String.ofList (t.text.drop 1), c', h⟩
  | none => .error (c.unexpected .variable_)

/-- Takes the token of the kind if it comes next, and says whether it did. -/
def accept (c : Cursor) (k : TokenKind) : Step 0 Bool c :=
  match c.take? k with
  | some ⟨_, c', h⟩ => .weaken ⟨true, c', h⟩
  | none => .here false

def takeMore? (c : Cursor) (n : Nat) : Option (Step 1 (List Token) c) :=
  c.next?.map fun ⟨t, c₁, h₁⟩ => .past h₁ (.skipping (t :: c₁.ahead.take n) n)

/-- Names behind the word or the comma before each of them. -/
def takeNames (c : Cursor) : Except ParseError (Step 1 (List String) c) := do
  let ⟨name, c₁, h₁⟩ ← c.takeName
  match c₁.take? .comma with
  | some ⟨_, c₂, h₂⟩ =>
    let ⟨names, c₃, h₃⟩ ← c₂.takeNames
    return .past h₁ <| .past h₂ ⟨name :: names, c₃, h₃⟩
  | none => return ⟨[name], c₁, h₁⟩
termination_by c.size

end Cursor

end ClassEdit
