import ClassEdit.Cursor

/-!
Reading types: names joined by bars and ampersands, groups in parentheses, and a mark for null.
-/

namespace ClassEdit.TypeText

/-- Names joined by ampersands. -/
def readIntersection (c : Cursor) : Except ParseError (Step 1 String c) := do
  let ⟨name, c₁, h₁⟩ ← c.takeName
  match c₁.take? .ampersand with
  | some ⟨_, c₂, h₂⟩ =>
    let ⟨names, c₃, h₃⟩ ← readIntersection c₂
    return .past h₁ <| .past h₂ ⟨name ++ "&" ++ names, c₃, h₃⟩
  | none => return ⟨name, c₁, h₁⟩
termination_by c.size

/-- A name, or an intersection in parentheses. -/
def readPart (c : Cursor) : Except ParseError (Step 1 String c) := do
  match c.take? .leftParen with
  | some ⟨_, c₁, h₁⟩ =>
    let ⟨names, c₂, h₂⟩ ← readIntersection c₁
    let ⟨_, c₃, h₃⟩ ← c₂.take .rightParen
    return .past h₁ <| .past h₂ ⟨"(" ++ names ++ ")", c₃, h₃⟩
  | none =>
    match c.take? .word with
    | some ⟨t, c₁, h₁⟩ => return ⟨t.string, c₁, h₁⟩
    | none => .error (c.unexpected .type)

/-- The sign that joins two parts of a type. An ampersand before a variable or before the mark of a
list of arguments belongs to the parameter and not to the type. -/
def joint? (c : Cursor) : Option (Step 1 String c) :=
  match c.take? .pipe with
  | some ⟨_, c₁, h₁⟩ => some ⟨"|", c₁, h₁⟩
  | none =>
    match c.take? .ampersand with
    | some ⟨_, c₁, h₁⟩ =>
      if c₁.isAt .var || c₁.isAt .ellipsis then none else some ⟨"&", c₁, h₁⟩
    | none => none

def readParts (c : Cursor) : Except ParseError (Step 1 String c) := do
  let ⟨part, c₁, h₁⟩ ← readPart c
  match joint? c₁ with
  | some ⟨sign, c₂, h₂⟩ =>
    let ⟨parts, c₃, h₃⟩ ← readParts c₂
    return .past h₁ <| .past h₂ ⟨part ++ sign ++ parts, c₃, h₃⟩
  | none => return ⟨part, c₁, h₁⟩
termination_by c.size

/-- A type, written without white space. -/
def read (c : Cursor) : Except ParseError (Step 1 String c) := do
  match c.take? .question with
  | some ⟨_, c₁, h₁⟩ =>
    let ⟨parts, c₂, h₂⟩ ← readParts c₁
    return .past h₁ ⟨"?" ++ parts, c₂, h₂⟩
  | none => readParts c

end ClassEdit.TypeText
