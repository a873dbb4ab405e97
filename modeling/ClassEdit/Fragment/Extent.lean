import ClassEdit.Cursor

/-!
How far a statement goes. Statements are not taken apart; only the brackets are followed, and the
shapes that do not end in a semicolon: blocks, and the blocks between a colon and an ending word.
-/

namespace ClassEdit.Extent

/-- The tokens behind an opening bracket up to the one that closes it. The closer of that bracket
and of those around it inside the group are given, the innermost first. -/
def groupRest (eof : Token) : TokenKind → List TokenKind → List Token → Except ParseError Nat
  | _, _, [] => .error ⟨.ended .closingBracket, eof.span⟩
  | closer, outer, t :: ts =>
    match t.kind.closer? with
    | some inner => (· + 1) <$> groupRest eof inner (closer :: outer) ts
    | none =>
      if !t.kind.isCloser then (· + 1) <$> groupRest eof closer outer ts
      else if t.kind ≠ closer then .error (.unbalanced (.kind closer) t.toLexeme)
      else
        match outer with
        | [] => .ok 1
        | o :: os => (· + 1) <$> groupRest eof o os ts

/-- Words whose header may be followed by a colon and a block up to an ending word. -/
def headers : List String := ["if", "foreach", "for", "while", "switch", "declare"]

def endings : List String :=
  ["endif", "endforeach", "endfor", "endwhile", "endswitch", "enddeclare"]

def continuations : List String := ["else", "elseif", "catch", "finally"]

/-- What the beginning of a statement says about its end. -/
structure Shape where
  /-- The statement can end with a block. -/
  isCompound : Bool
  /-- The statement goes on with a condition behind its block. -/
  isDo : Bool

/-- The tokens behind the attribute groups that tokens begin with, none if a group is open at the
end. The number is the depth of brackets inside a group. -/
def pastAttributes : Nat → List Token → Option (List Token)
  | 0, [] => some []
  | 0, t :: ts => if t.kind = .attributeOpen then pastAttributes 1 ts else some (t :: ts)
  | _ + 1, [] => none
  | d + 1, t :: ts =>
    if t.kind.closer?.isSome then pastAttributes (d + 2) ts
    else if t.kind.isCloser then pastAttributes d ts
    else pastAttributes (d + 1) ts

/-- Whether a statement behind its attributes can end with a block. -/
def beginsCompound : List Token → Bool
  | [] => false
  | t :: ts =>
    let next := ts.head?.map (·.kind)
    t.kind == .leftBrace ||
      t.isAnyWord ["if", "for", "foreach", "while", "switch", "try", "do", "declare"] ||
      (t.isWord "function" && (next == some .word || next == some .ampersand)) ||
      (t.isAnyWord ["class", "interface", "trait", "enum"] && next == some .word) ||
      t.isAnyWord ["abstract", "final", "readonly"]

def shapeOf (ts : List Token) : Shape where
  isCompound := (pastAttributes 0 ts).any beginsCompound
  isDo := ts.head?.any (·.isWord "do")

def continues (shape : Shape) (ts : List Token) : Bool :=
  ts.head?.any fun t => t.isAnyWord continuations || (shape.isDo && t.isWord "while")

def namesNext (t : Token) : Bool :=
  t.kind == .doubleColon || (t.kind == .operator && (t.string == "->" || t.string == "?->")) ||
    t.isWord "function" || t.isWord "fn"

theorem length_drop_le_of_le {ts : List Token} {n k : Nat} (h : ts.length < k) :
    (ts.drop n).length < k :=
  Nat.lt_of_le_of_lt (by rw [List.length_drop]; omega) h

/-- The tokens of a statement, given the closers of the brackets open so far, the number of blocks
open behind a colon, and whether the next word is a name. -/
def rest (eof : Token) (shape : Shape) (closers : List TokenKind) (blocks : Nat) (isName : Bool) :
    List Token → Except ParseError Nat
  | [] => .error ⟨.ended (.kind (closers.headD .semicolon)), eof.span⟩
  | t :: ts =>
    let outermost := closers.isEmpty && blocks == 0
    match t.kind.closer? with
    | some closer => (· + 1) <$> rest eof shape (closer :: closers) blocks false ts
    | none =>
      if t.kind.isCloser then
        match closers with
        | [] => .error (.unexpected (.kind .semicolon) t.toLexeme)
        | closer :: outer =>
          if t.kind ≠ closer then .error (.unbalanced (.kind closer) t.toLexeme)
          else if shape.isCompound && outer.isEmpty && blocks == 0 && t.kind == .rightBrace &&
              !continues shape ts then .ok 1
          else (· + 1) <$> rest eof shape outer blocks false ts
      else if t.kind == .semicolon && outermost then
        if shape.isCompound && continues shape ts then
          (· + 1) <$> rest eof shape closers blocks false ts
        else .ok 1
      else if t.kind == .closeTag && outermost then .ok 0
      else if closers.isEmpty && t.isAnyWord headers && !isName &&
          ts.head?.any (·.kind == .leftParen) then do
        let n ← groupRest eof .rightParen [] ts.tail
        let behind := ts.drop (n + 1)
        if behind.head?.any (·.kind == .colon) then
          (· + (n + 3)) <$> rest eof shape closers (blocks + 1) false (ts.drop (n + 2))
        else (· + (n + 2)) <$> rest eof shape closers blocks false behind
      else if closers.isEmpty && t.isAnyWord endings then
        (· + 1) <$> rest eof shape closers (blocks - 1) (namesNext t) ts
      else (· + 1) <$> rest eof shape closers blocks (namesNext t) ts
termination_by ts => ts.length
decreasing_by
  all_goals first
    | exact length_drop_le_of_le (Nat.lt_succ_self _)
    | exact Nat.lt_succ_self _

/-- The tags and the text between them, which make a statement of their own. -/
def isOutside (t : Token) : Bool :=
  t.kind == .closeTag || t.kind == .html || t.kind == .openTag

def statement (c : Cursor) : Except ParseError Nat :=
  let outside := c.ahead.takeWhile isOutside
  if outside.isEmpty then rest c.eof (shapeOf c.ahead) [] 0 false c.ahead else .ok outside.length

end ClassEdit.Extent
