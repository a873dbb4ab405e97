import ClassEdit.Proofs.Offset.Expr
import ClassEdit.Proofs.Offset.Fragment
import ClassEdit.Proofs.Offset.Type

/-!
Reading classes and their members by the number of the next token and the offset up to which members
have been read. Main statement: with a round for each token that is left and one for the end, they
come to the same as with the readers that go from cursor to cursor.
-/

namespace ClassEdit

namespace Reading

/-- The modifier words that come next, in addition to some. -/
def modifiers : Nat → Modifiers → Reading Modifiers
  | 0, _ => exhausted
  | n + 1, m => do
    match m.add? (Token.bare (← peek)) with
    | some m' =>
      let _ ← advance
      modifiers n m'
    | none => return m

def defaultValue (n : Nat) : Reading (Option Expr) := do
  if ← eat .equals then return some (← expr n) else return none

/-- A use of mixins, from its keyword on. -/
def mixins (n : Nat) : Reading MixinUse := do
  let _ ← expectWord "use"
  let names ← names n
  if ← isAt .leftBrace then return ⟨names, some (← block n)⟩
  else
    let _ ← expect .semicolon
    return ⟨names, none⟩

def constantItems : Nat → Reading (List Constant)
  | 0 => exhausted
  | n + 1 => do
    let name ← expectName .name
    let _ ← expect .equals
    let value ← expr (n + 1)
    if ← eat .comma then return ⟨name, value⟩ :: (← constantItems n) else return [⟨name, value⟩]

def constants (n : Nat) (m : Modifiers) : Reading ConstantGroup := do
  let type ← typeUnless n ((← peekAt 1).kind == .equals)
  let items ← constantItems n
  let _ ← expect .semicolon
  return ⟨m, type, items⟩

def fieldItems : Nat → Reading (List Field)
  | 0 => exhausted
  | n + 1 => do
    let name ← expectVariable
    let value ← defaultValue (n + 1)
    if ← eat .comma then return ⟨name, value⟩ :: (← fieldItems n) else return [⟨name, value⟩]

def fields (n : Nat) (m : Modifiers) : Reading FieldGroup := do
  let type ← typeUnless n (← isAt .var)
  let items ← fieldItems n
  let _ ← expect .semicolon
  return ⟨m, type, items⟩

def param (n : Nat) : Reading Param := do
  let attributes ← attributes n
  let modifiers ← modifiers n .empty
  let kind := (← peek).kind
  let type ← typeUnless n (kind == .var || kind == .ampersand || kind == .ellipsis)
  let byRef ← eat .ampersand
  let variadic ← eat .ellipsis
  let name ← expectVariable
  let default ← defaultValue n
  return { attributes, modifiers, type, byRef, variadic, name, default }

/-- Parameters up to the closing parenthesis, which stays ahead. -/
def params : Nat → Reading (List Param)
  | 0 => exhausted
  | n + 1 => do
    if ← isAt .rightParen then return []
    else
      let param ← param (n + 1)
      if ← eat .comma then return param :: (← params n) else return [param]

/-- A body between braces and where its braces stand, or the semicolon of a routine that has
none. -/
def body (n : Nat) : Reading (Option (List InnerStmt) × BodyLayout) := do
  if ← eat .semicolon then return (none, .nextLine)
  else
    let signatureEnd ← prevEnd
    let start := (← peek).span.start
    let stmts ← block n
    if ← hasNewline signatureEnd start then return (some stmts, .nextLine)
    else
      let spansLines ← hasNewline start (← prevEnd)
      return (some stmts, if spansLines then .sameLine else .inline)

def opensLine (stop : Nat) : Reading Bool := do
  if ← isAt .rightParen then return false else hasNewline stop (← peek).span.start

/-- A routine, from its keyword on. -/
def routine (n : Nat) (modifiers : Modifiers) : Reading Routine := do
  let _ ← expectWord "function"
  let byRef ← eat .ampersand
  let name ← expectName .name
  let opening ← expect .leftParen
  let paramsMultiline ← opensLine opening.span.stop
  let params ← params n
  let _ ← expect .rightParen
  let hasType ← eat .colon
  let returnType ← typeUnless n (!hasType)
  let (body, layout) ← body n
  return { modifiers, byRef, name, params, paramsMultiline, returnType, body, layout }

def bareMember (n : Nat) : Reading Member := do
  if ← isAtWord "use" then return .mixins (← mixins n)
  else
    let m ← modifiers n .empty
    if ← eatWord "const" then return .constants (← constants n m)
    else if ← isAtWord "function" then return .routine (← routine n m)
    else if m.isEmpty then unexpected .member
    else return .fields (← fields n m)

def member (n : Nat) : Reading MemberStmt := do
  let trivia ← leadingTrivia
  let attributes ← attributes n
  let member ← bareMember n
  let trivia ← finish { trivia with attributes }
  return ⟨trivia, member⟩

/-- Members up to the closing brace, which stays ahead. -/
def members : Nat → Reading (List MemberStmt)
  | 0 => exhausted
  | n + 1 => do
    if ← isAt .rightBrace then return []
    else if ← isAt .eof then unexpected (.kind .rightBrace)
    else
      let m ← member (n + 1)
      return m :: (← members n)

def classModifiers : Nat → Reading (List ClassModifier)
  | 0 => exhausted
  | n + 1 => do
    if ← eatWord "abstract" then return .abstract :: (← classModifiers n)
    else if ← eatWord "final" then return .final :: (← classModifiers n)
    else if ← eatWord "readonly" then return .readonly :: (← classModifiers n)
    else return []

def parent : Reading (Option String) := do
  if ← eatWord "extends" then return some (← expectName .name) else return none

def interfaces (n : Nat) : Reading (List String) := do
  if ← eatWord "implements" then names n else return []

/-- A class behind its comments and attributes, which are given. -/
def classDecl (n : Nat) (trivia : Trivia) : Reading ClassDecl := do
  let modifiers ← classModifiers n
  let _ ← expectWord "class"
  let name ← expectName .name
  let parent ← parent
  let interfaces ← interfaces n
  let opening ← expect .leftBrace
  setEnd opening.span.stop
  let members ← members n
  let closingComments ← closingComments
  let _ ← expect .rightBrace
  let trivia ← finish trivia
  return { trivia, modifiers, name, parent, interfaces, members, closingComments }

end Reading

section Members

variable {ls : List Lexeme} {tight : Bool} {s : At} {c : Cursor} {n : Nat}

/-- The modifiers are the same by offsets, and so is where they end. -/
theorem Stands.modifiersFrom (h : Stands ls tight s c) (hn : c.size < n) (m : Modifiers) :
    ∃ s', Reading.modifiers n m (Tape.ofLexemes ls) s = .ok ((Modifiers.readFrom m c.ahead).1, s') ∧
      Stands ls tight s' { c with ahead := (Modifiers.readFrom m c.ahead).2 } := by
  induction n generalizing tight s c m with
  | zero => cases hn
  | succ n ih =>
    have hbare (t : Token) : m.add? (Token.bare t.toLexeme) = m.add? t := rfl
    rw [Reading.modifiers, Reading.bind_of_eq h.peek, hbare]
    rcases c.eq_push with hnil | ⟨c, t, rfl⟩
    · have hword (w : String) : c.head.isWord w = false := isWord_of_eof w _ (h.head_of_nil hnil).2
      have hnone : m.add? c.head = none := by simp [Modifiers.add?, hword]
      have hsame : ({ c with ahead := [] } : Cursor) = c := by rw [← hnil]
      rw [hnone, hnil, Modifiers.readFrom, hsame]
      exact ⟨s, rfl, h⟩
    · rw [Cursor.head_push, Cursor.ahead_push, Modifiers.readFrom]
      cases m.add? t with
      | none => exact ⟨s, rfl, h⟩
      | some m' =>
        obtain ⟨-, -, -, -, hskip⟩ := h.uncons (Cursor.ahead_push c t)
        have hskip : Stands ls true { s with pos := s.pos + 1 } c := hskip
        obtain ⟨s', hmodifiers, hs'⟩ := ih hskip (Nat.lt_of_succ_lt_succ hn) m'
        dsimp only
        rw [Reading.bind_of_eq h.advance]
        exact ⟨s', hmodifiers, hs'.of_true⟩

theorem Stands.modifiers (h : Stands ls tight s c) (hn : c.size < n) :
    Tracks (Stands ls tight) (Reading.modifiers n .empty (Tape.ofLexemes ls) s)
      (.ok (Modifiers.read c)) := by
  obtain ⟨s', hmodifiers, hs'⟩ := h.modifiersFrom hn .empty
  rw [hmodifiers]
  exact .ok (r := Modifiers.read c) hs'

theorem Stands.defaultValue (h : Stands ls tight s c) (hn : c.size < n) :
    Tracks (Stands ls tight) (Reading.defaultValue n (Tape.ofLexemes ls) s)
      (Member.readDefault c) := by
  rw [Reading.defaultValue, Member.readDefault]
  refine .eat h (by decide) (fun ⟨_, c₁, h₁⟩ s₁ htake hs₁ => ?_) fun htake => ?_
  · rw [htake]
    exact .bind (Stands.expr (c := c₁) hs₁ (by omega)) fun _ _ hs₂ =>
      .pure (t := Tape.ofLexemes ls) rfl hs₂.of_true
  · rw [htake]
    exact .pure (t := Tape.ofLexemes ls) rfl h

theorem Stands.mixins (h : Stands ls tight s c) (hn : c.size < n) :
    Tracks (Stands ls true) (Reading.mixins n (Tape.ofLexemes ls) s) (Member.readMixins c) := by
  rw [Reading.mixins, Member.readMixins]
  refine .expectWord h fun ⟨_, c₁, h₁⟩ s₁ hs₁ => ?_
  refine .bind (Stands.names (c := c₁) hs₁ (by omega)) fun ⟨names, c₂, h₂⟩ s₂ hs₂ => ?_
  have hs₂ : Stands ls true s₂ c₂ := hs₂
  rw [Reading.bind_of_eq (hs₂.isAt _)]
  refine .ite (fun _ => ?_) fun _ => ?_
  · exact .bind (hs₂.block (by omega)) fun _ _ hs₃ => .pure (t := Tape.ofLexemes ls) rfl hs₃
  · exact .expect hs₂ (by decide) fun _ _ hs₃ _ => .pure (t := Tape.ofLexemes ls) rfl hs₃

/-- Constants are read the same by offsets. -/
theorem Stands.constantItems (h : Stands ls tight s c) (hn : c.size < n) :
    Tracks (Stands ls true) (Reading.constantItems n (Tape.ofLexemes ls) s)
      (Member.readConstantItems c) := by
  induction n generalizing tight s c with
  | zero => cases hn
  | succ n ih =>
    rw [Reading.constantItems, Member.readConstantItems]
    refine .bind h.takeName fun ⟨name, c₁, h₁⟩ s₁ hs₁ => ?_
    refine .expect hs₁ (by decide) fun ⟨_, c₂, h₂⟩ s₂ hs₂ _ => ?_
    dsimp only at h₂
    refine .bind (Stands.expr (c := c₂) hs₂ (by omega)) fun ⟨value, c₃, h₃⟩ s₃ hs₃ => ?_
    refine .eat hs₃ (by decide) (fun ⟨_, c₄, h₄⟩ s₄ htake hs₄ => ?_) fun htake => ?_
    · dsimp only at h₄ htake ⊢
      rw [htake]
      exact .bind (ih hs₄ (by omega)) fun _ _ hs₅ => .pure (t := Tape.ofLexemes ls) rfl hs₅
    · dsimp only at htake ⊢
      rw [htake]
      exact .pure (t := Tape.ofLexemes ls) rfl hs₃

theorem Cursor.second_eq (c : Cursor) : c.second = (c.skip 1).head := by
  rw [second, head, skip, List.drop_one]

theorem Stands.constants (h : Stands ls tight s c) (hn : c.size < n) (m : Modifiers) :
    Tracks (Stands ls true) (Reading.constants n m (Tape.ofLexemes ls) s)
      (Member.readConstants m c) := by
  rw [Reading.constants, Reading.bind_of_eq (h.peekAt 1), Member.readConstants, c.second_eq]
  refine .bind (h.typeUnless hn _) fun ⟨type, c₁, h₁⟩ s₁ hs₁ => ?_
  refine .bind (Stands.constantItems (c := c₁) hs₁ (by omega)) fun ⟨items, c₂, h₂⟩ s₂ hs₂ => ?_
  exact .expect hs₂ (by decide) fun _ _ hs₃ _ => .pure (t := Tape.ofLexemes ls) rfl hs₃

/-- Fields are read the same by offsets. -/
theorem Stands.fieldItems (h : Stands ls tight s c) (hn : c.size < n) :
    Tracks (Stands ls true) (Reading.fieldItems n (Tape.ofLexemes ls) s)
      (Member.readFieldItems c) := by
  induction n generalizing tight s c with
  | zero => cases hn
  | succ n ih =>
    rw [Reading.fieldItems, Member.readFieldItems]
    refine .bind h.takeVariable fun ⟨name, c₁, h₁⟩ s₁ hs₁ => ?_
    refine .bind (Stands.defaultValue (c := c₁) hs₁ (by omega)) fun ⟨value, c₂, h₂⟩ s₂ hs₂ => ?_
    refine .eat hs₂ (by decide) (fun ⟨_, c₃, h₃⟩ s₃ htake hs₃ => ?_) fun htake => ?_
    · dsimp only at h₃ htake ⊢
      rw [htake]
      exact .bind (ih hs₃ (by omega)) fun _ _ hs₄ => .pure (t := Tape.ofLexemes ls) rfl hs₄
    · dsimp only at htake ⊢
      rw [htake]
      exact .pure (t := Tape.ofLexemes ls) rfl hs₂

theorem Stands.fields (h : Stands ls tight s c) (hn : c.size < n) (m : Modifiers) :
    Tracks (Stands ls true) (Reading.fields n m (Tape.ofLexemes ls) s) (Member.readFields m c) := by
  rw [Reading.fields, Reading.bind_of_eq (h.isAt _), Member.readFields]
  refine .bind (h.typeUnless hn _) fun ⟨type, c₁, h₁⟩ s₁ hs₁ => ?_
  refine .bind (Stands.fieldItems (c := c₁) hs₁ (by omega)) fun ⟨items, c₂, h₂⟩ s₂ hs₂ => ?_
  exact .expect hs₂ (by decide) fun _ _ hs₃ _ => .pure (t := Tape.ofLexemes ls) rfl hs₃

/-- A parameter is read the same by offsets. -/
theorem Stands.param (h : Stands ls tight s c) (hn : c.size < n) :
    Tracks (Stands ls true) (Reading.param n (Tape.ofLexemes ls) s) (Member.readParam c) := by
  rw [Reading.param, Member.readParam]
  refine .bind (h.attributes hn) fun ⟨attributes, c₁, h₁⟩ s₁ hs₁ => ?_
  have hs₁ : Stands ls tight s₁ c₁ := hs₁
  have hmodifiers := hs₁.modifiers (n := n) (by omega)
  dsimp only
  generalize Modifiers.read c₁ = st at hmodifiers
  obtain ⟨modifiers, c₂, h₂⟩ := st
  refine .step hmodifiers fun s₂ hs₂ => ?_
  have hs₂ : Stands ls tight s₂ c₂ := hs₂
  dsimp only
  rw [Reading.bind_of_eq hs₂.peek]
  refine .bind (hs₂.typeUnless (by omega) _) fun ⟨type, c₃, h₃⟩ s₃ hs₃ => ?_
  have hs₃ : Stands ls tight s₃ c₃ := hs₃
  have hampersand := hs₃.accept (k := .ampersand) (by decide)
  dsimp only
  generalize c₃.accept .ampersand = st at hampersand
  obtain ⟨byRef, c₄, h₄⟩ := st
  refine .step hampersand fun s₄ hs₄ => ?_
  have hs₄ : Stands ls tight s₄ c₄ := hs₄
  have hellipsis := hs₄.accept (k := .ellipsis) (by decide)
  dsimp only
  generalize c₄.accept .ellipsis = st at hellipsis
  obtain ⟨variadic, c₅, h₅⟩ := st
  refine .step hellipsis fun s₅ hs₅ => ?_
  dsimp only
  refine .bind (Stands.takeVariable (c := c₅) hs₅) fun ⟨name, c₆, h₆⟩ s₆ hs₆ => ?_
  exact .bind (Stands.defaultValue (c := c₆) hs₆ (by omega)) fun _ _ hs₇ =>
    .pure (t := Tape.ofLexemes ls) rfl hs₇

/-- The parameters of a routine are the same by offsets, and their loop ends. -/
theorem Stands.params (h : Stands ls tight s c) (hn : c.size < n) :
    Tracks (Stands ls tight) (Reading.params n (Tape.ofLexemes ls) s) (Member.readParams c) := by
  induction n generalizing tight s c with
  | zero => cases hn
  | succ n ih =>
    rw [Reading.params, Reading.bind_of_eq (h.isAt _), Member.readParams]
    refine .ite (fun _ => .pure (t := Tape.ofLexemes ls) rfl h) fun _ => ?_
    refine .bind (h.param hn) fun ⟨param, c₁, h₁⟩ s₁ hs₁ => ?_
    refine .eat hs₁ (by decide) (fun ⟨_, c₂, h₂⟩ s₂ htake hs₂ => ?_) fun htake => ?_
    · dsimp only at h₂ htake ⊢
      rw [htake]
      exact .bind (ih hs₂ (by omega)) fun _ _ hs₃ => .pure (t := Tape.ofLexemes ls) rfl hs₃.of_true
    · dsimp only at htake ⊢
      rw [htake]
      exact .pure (t := Tape.ofLexemes ls) rfl hs₁.of_true

/-- What is known of where a reader of cursors stops holds also for a reader by offsets. -/
theorem Tracks.leaves {α : Type} {k : Nat} {c₀ c : Cursor} {loose : Bool} {Q : At → Cursor → Prop}
    {m : Except Halt (α × At)} {r : Except ParseError (Step k α c)} (h : Tracks Q m r)
    (hr : Leaves c₀ loose r) :
    Tracks (fun s c' => Q s c' ∧ c₀.Behind loose c') m r := by
  cases h with
  | ok h => exact .ok ⟨h, hr⟩
  | refused e => exact .refused e

theorem Cursor.Behind.eq_skip {c₁ : Cursor} (h : c.Behind false c₁) :
    c₁ = c.skip (c.size - c₁.size) := by
  cases h with
  | tokens k =>
    rw [Cursor.size_skip]
    rcases Nat.le_total k c.size with hk | hk
    · rw [Nat.sub_sub_self hk]
    · rw [Nat.sub_eq_zero_of_le hk, Cursor.skip, Cursor.skip, Nat.sub_zero, Cursor.size,
        List.drop_length, List.drop_eq_nil_of_le hk]

/-- Whether a line begins inside of tokens that stand in a row, before any of them but the
first or in its text. -/
def Token.spanLines (ts : List Token) : Bool :=
  (ts.take 1).any (·.text.contains '\n') || (ts.drop 1).any fun t => t.isOnNewLine ||
    t.text.contains '\n'

theorem Token.contains_pieces (ts : List Token) :
    ((ts.flatMap Token.pieces).flatMap Lexeme.source).contains '\n' =
    ts.any fun t => t.isOnNewLine || t.text.contains '\n' := by
  have hpieces (t : Token) : (t.pieces.any fun l => l.source.any ('\n' == ·)) =
      (t.isOnNewLine || t.text.contains '\n') := by
    simp only [Token.pieces, Token.isOnNewLine, Lexeme.isOnNewLine, Lexeme.source,
      List.contains_eq_any_beq, List.any_append, List.any_cons, List.any_nil, Bool.or_false]
    rw [← Bool.or_assoc, Bool.or_comm (t.comments.any _)]
  rw [List.contains_eq_any_beq, List.any_flatMap, List.any_flatMap]
  exact congrArg ts.any (funext hpieces)

/-- Whether tokens stand on one line is told by the text between their offsets. -/
theorem Stands.spanLines {k : Nat} {stop : Nat} {s' : At} (h : Stands ls tight s c)
    (hk : k ≤ c.size) (hpos : 0 < k) (hstop : Reaches ls stop s' (c.skip k)) (s'' : At) :
    Reading.hasNewline c.head.span.start stop (Tape.ofLexemes ls) s'' =
      .ok (Token.spanLines (c.ahead.take k), s'') := by
  obtain ⟨front, hfront, -⟩ := id h
  cases hahead : c.ahead with
  | nil =>
    rw [Cursor.size, hahead] at hk
    exact absurd hk (Nat.not_le.2 hpos)
  | cons t ts =>
    obtain ⟨j, rfl⟩ := Nat.exists_eq_succ_of_ne_zero (Nat.ne_of_gt hpos)
    have hsplit : ls = (front ++ t.comments) ++
        (t.toLexeme :: (ts.take j).flatMap Token.pieces ++ (c.skip (j + 1)).pieces) := by
      rw [hfront.split, c.pieces_skip (j + 1), hahead]
      simp [Token.pieces]
    have hnewlines := newlines?_across hfront.whole hsplit
    rw [← hstop.eq_extent (by rw [hsplit]; simp)] at hnewlines
    have hcount :
        decide
          (0 < (t.text ++ ((ts.take j).flatMap Token.pieces).flatMap Lexeme.source).count '\n') =
        Token.spanLines ((t :: ts).take (j + 1)) := by
      have hlater := Token.contains_pieces (ts.take j)
      have hcontains (cs : List Char) : decide (0 < cs.count '\n') = cs.contains '\n' := by
        rw [Bool.eq_iff_iff, decide_eq_true_eq, List.count_pos_iff, List.contains_iff_mem]
      rw [hcontains, List.contains_append, hlater]
      simp [Token.spanLines]
    rw [(h.uncons hahead).1, Reading.hasNewline_eq hnewlines s'', hcount]

/-- A body is read the same by offsets, and its layout is told from the same places. -/
theorem Stands.body (h : Stands ls true s c) (hn : c.size < n) :
    Tracks (Stands ls true) (Reading.body n (Tape.ofLexemes ls) s) (Member.readBody c) := by
  rw [Reading.body, Member.readBody]
  refine .eat h (by decide) (fun ⟨_, c₁, h₁⟩ s₁ htake hs₁ => ?_) fun htake => ?_
  · rw [htake]
    exact .pure (t := Tape.ofLexemes ls) rfl hs₁
  · obtain ⟨stop, hprev, hreaches⟩ := h.prevEnd
    rw [htake, Reading.bind_of_eq hprev, Reading.bind_of_eq h.peek]
    refine .bind ((h.block hn).leaves (Fragment.leaves_block .refl)) fun ⟨stmts, c₁, h₁⟩ s₁
      ⟨hs₁, hbehind⟩ => ?_
    have hs₁ : Stands ls true s₁ c₁ := hs₁
    obtain ⟨stop', hprev', hreaches'⟩ := hs₁.prevEnd
    have hskip : Reaches ls stop' s₁ (c.skip (c.size - c₁.size)) := by
      rwa [← Cursor.Behind.eq_skip hbehind]
    rw [Reading.bind_of_eq (hreaches.hasNewline _)]
    dsimp only
    cases c.head.isOnNewLine with
    | true => exact .pure (t := Tape.ofLexemes ls) rfl hs₁
    | false =>
      rw [if_neg Bool.false_ne_true, Reading.bind_of_eq hprev',
        Reading.bind_of_eq (h.spanLines (by omega) (by omega) hskip s₁)]
      exact .pure (t := Tape.ofLexemes ls) rfl hs₁

theorem Stands.opensLine {stop : Nat} (h : Reaches ls stop s c) :
    Reading.opensLine stop (Tape.ofLexemes ls) s =
    .ok (!c.isAt .rightParen && c.head.isOnNewLine, s) := by
  rw [Reading.opensLine, Reading.bind_of_eq (h.stands.isAt _)]
  cases c.isAt .rightParen with
  | true => rfl
  | false =>
    rw [if_neg Bool.false_ne_true, Reading.bind_of_eq h.stands.peek, h.hasNewline s]
    rfl

/-- A routine is read the same by offsets. -/
theorem Stands.routine (h : Stands ls tight s c) (hn : c.size < n) (m : Modifiers) :
    Tracks (Stands ls true) (Reading.routine n m (Tape.ofLexemes ls) s)
      (Member.readRoutine m c) := by
  rw [Reading.routine, Member.readRoutine]
  refine .expectWord h fun ⟨_, c₁, h₁⟩ s₁ hs₁ => ?_
  have hs₁ : Stands ls true s₁ c₁ := hs₁
  have hampersand := hs₁.accept (k := .ampersand) (by decide)
  dsimp only
  generalize c₁.accept .ampersand = st at hampersand
  obtain ⟨byRef, c₂, h₂⟩ := st
  refine .step hampersand fun s₂ hs₂ => ?_
  dsimp only
  refine .bind (Stands.takeName (c := c₂) hs₂) fun ⟨name, c₃, h₃⟩ s₃ hs₃ => ?_
  refine .expect hs₃ (by decide) fun ⟨opening, c₄, h₄⟩ s₄ hs₄ hreaches => ?_
  have hs₄ : Stands ls true s₄ c₄ := hs₄
  dsimp only at h₄ hreaches ⊢
  rw [Reading.bind_of_eq (Stands.opensLine hreaches)]
  refine .bind (hs₄.params (by omega)) fun ⟨params, c₅, h₅⟩ s₅ hs₅ => ?_
  refine .expect hs₅ (by decide) fun ⟨_, c₆, h₆⟩ s₆ hs₆ _ => ?_
  have hs₆ : Stands ls true s₆ c₆ := hs₆
  have hcolon := hs₆.accept (k := .colon) (by decide)
  dsimp only at h₆ ⊢
  generalize c₆.accept .colon = st at hcolon
  obtain ⟨hasType, c₇, h₇⟩ := st
  refine .step hcolon fun s₇ hs₇ => ?_
  dsimp only
  refine .bind (Stands.typeUnless (c := c₇) hs₇ (by omega) _) fun ⟨returnType, c₈, h₈⟩ s₈ hs₈ => ?_
  exact .bind (Stands.body (c := c₈) hs₈ (by omega)) fun _ _ hs₉ =>
    .pure (t := Tape.ofLexemes ls) rfl hs₉

/-- A member of any kind is read the same by offsets. -/
theorem Stands.bareMember (h : Stands ls tight s c) (hn : c.size < n) :
    Tracks (Stands ls true) (Reading.bareMember n (Tape.ofLexemes ls) s) (Member.readBare c) := by
  rw [Reading.bareMember, Reading.bind_of_eq (h.isAtWord _), Member.readBare]
  refine .ite (fun _ => ?_) fun _ => ?_
  · exact .bind (h.mixins hn) fun _ _ hs₁ => .pure (t := Tape.ofLexemes ls) rfl hs₁
  have hmodifiers := h.modifiers hn
  generalize Modifiers.read c = st at hmodifiers
  obtain ⟨m, c₁, h₁⟩ := st
  refine .step hmodifiers fun s₁ hs₁ => ?_
  have hs₁ : Stands ls tight s₁ c₁ := hs₁
  refine .eatWord hs₁ (fun ⟨_, c₂, h₂⟩ s₂ htake hs₂ => ?_) fun htake => ?_
  · dsimp only
    rw [htake]
    exact .bind (Stands.constants (c := c₂) hs₂ (by omega) m) fun _ _ hs₃ =>
      .pure (t := Tape.ofLexemes ls) rfl hs₃
  · dsimp only
    rw [htake, Reading.bind_of_eq (hs₁.isAtWord _)]
    refine .ite (fun _ => ?_) fun _ => .ite (fun _ => hs₁.unexpected _) fun _ => ?_
    · exact .bind (hs₁.routine (by omega) m) fun _ _ hs₂ => .pure (t := Tape.ofLexemes ls) rfl hs₂
    · exact .bind (hs₁.fields (by omega) m) fun _ _ hs₂ => .pure (t := Tape.ofLexemes ls) rfl hs₂

/-- A member is read behind another one or behind the opening brace, and a reader stands
behind it with its comment. -/
theorem Marked.member (h : Marked ls s c) (hn : c.size < n) :
    Tracks (Marked ls) (Reading.member n (Tape.ofLexemes ls) s) (Member.readStmt c) := by
  rw [Reading.member, Reading.bind_of_eq h.leadingTrivia, Member.readStmt]
  refine .bind (h.stands.attributes hn) fun ⟨attributes, c₁, h₁⟩ s₁ hs₁ => ?_
  refine .bind (Stands.bareMember (c := c₁) hs₁ (by omega)) fun ⟨member, c₂, h₂⟩ s₂ hs₂ => ?_
  have hfinish := Stands.finish (c := c₂) hs₂ { c.leadingTrivia with attributes }
  dsimp only
  generalize c₂.finish { c.leadingTrivia with attributes } = st at hfinish
  obtain ⟨trivia, c₃, h₃⟩ := st
  exact .step hfinish fun _ hs₃ => .pure (t := Tape.ofLexemes ls) rfl hs₃

/-- The members of a class are read the same by offsets, with the comments between them. -/
theorem Marked.members (h : Marked ls s c) (hn : c.size < n) :
    Tracks (Marked ls) (Reading.members n (Tape.ofLexemes ls) s) (Member.readAll c) := by
  induction n generalizing s c with
  | zero => cases hn
  | succ n ih =>
    have hc := h.stands
    rw [Reading.members, Reading.bind_of_eq (hc.isAt _), Member.readAll]
    refine .ite (fun _ => .pure (t := Tape.ofLexemes ls) rfl h) fun _ => ?_
    rw [Reading.bind_of_eq (hc.isAt _), hc.isAt_eof]
    refine .ite (fun _ => hc.unexpected _) fun _ => ?_
    refine .bind (h.member hn) fun ⟨member, c₁, h₁⟩ s₁ hs₁ => ?_
    exact .bind (ih (c := c₁) hs₁ (by omega)) fun _ _ hs₂ => .pure (t := Tape.ofLexemes ls) rfl hs₂

end Members

section Classes

variable {ls : List Lexeme} {tight : Bool} {s : At} {c : Cursor} {n : Nat}

/-- The modifiers of a class are the same by offsets, and their loop ends. -/
theorem Stands.classModifiers (h : Stands ls tight s c) (hn : c.size < n) :
    Tracks (Stands ls tight) (Reading.classModifiers n (Tape.ofLexemes ls) s)
      (.ok (ClassDecl.readModifiers c)) := by
  induction n generalizing tight s c with
  | zero => cases hn
  | succ n ih =>
    have htaken {m : ClassModifier} (st : Step 1 ClassModifier c) {s' : At} (hvalue : st.value = m)
        (htake : ClassDecl.takeModifier? c = some st) (hs' : Stands ls true s' st.rest) :
        Tracks (Stands ls tight)
          ((do return m :: (← Reading.classModifiers n)) (Tape.ofLexemes ls) s')
          (.ok (ClassDecl.readModifiers c)) := by
      obtain ⟨m', c₁, h₁⟩ := st
      obtain rfl : m' = m := hvalue
      have hmore := ih (c := c₁) hs' (by omega)
      rw [ClassDecl.readModifiers, htake]
      exact .step hmore fun _ hs₂ => .pure (t := Tape.ofLexemes ls) rfl hs₂.of_true
    rw [Reading.classModifiers]
    refine .eatWord h (fun st s₁ htake hs₁ => ?_) fun habstract => ?_
    · exact htaken (st.map fun _ => .abstract) rfl (by rw [ClassDecl.takeModifier?, htake]; rfl) hs₁
    refine .eatWord h (fun st s₁ htake hs₁ => ?_) fun hfinal => ?_
    · exact htaken (st.map fun _ => .final) rfl
        (by rw [ClassDecl.takeModifier?, habstract, htake]; rfl) hs₁
    refine .eatWord h (fun st s₁ htake hs₁ => ?_) fun hreadonly => ?_
    · exact htaken (st.map fun _ => .readonly) rfl
        (by rw [ClassDecl.takeModifier?, habstract, hfinal, htake]; rfl) hs₁
    · have hnone : ClassDecl.takeModifier? c = none := by
        rw [ClassDecl.takeModifier?, habstract, hfinal, hreadonly]
        rfl
      rw [ClassDecl.readModifiers, hnone]
      exact .pure (t := Tape.ofLexemes ls) rfl h

theorem Stands.parent (h : Stands ls tight s c) :
    Tracks (Stands ls tight) (Reading.parent (Tape.ofLexemes ls) s) (ClassDecl.readParent c) := by
  rw [Reading.parent, ClassDecl.readParent]
  refine .eatWord h (fun ⟨_, c₁, h₁⟩ s₁ htake hs₁ => ?_) fun htake => ?_
  · rw [htake]
    exact .bind (Stands.takeName (c := c₁) hs₁) fun _ _ hs₂ =>
      .pure (t := Tape.ofLexemes ls) rfl hs₂.of_true
  · rw [htake]
    exact .pure (t := Tape.ofLexemes ls) rfl h

theorem Stands.interfaces (h : Stands ls tight s c) (hn : c.size < n) :
    Tracks (Stands ls tight) (Reading.interfaces n (Tape.ofLexemes ls) s)
      (ClassDecl.readInterfaces c) := by
  rw [Reading.interfaces, ClassDecl.readInterfaces]
  refine .eatWord h (fun ⟨_, c₁, h₁⟩ s₁ htake hs₁ => ?_) fun htake => ?_
  · rw [htake]
    have hnames := Stands.names (c := c₁) (n := n) hs₁ (by omega)
    exact (hnames.mono fun _ _ hs₂ => hs₂.of_true).carry fun _ => ⟨_, rfl, rfl, rfl⟩
  · rw [htake]
    exact .pure (t := Tape.ofLexemes ls) rfl h

/-- A class is read, and a reader stands behind its closing brace with the comment there. -/
theorem Stands.classDecl (h : Stands ls tight s c) (hn : c.size < n) (trivia : Trivia) :
    Tracks (Marked ls) (Reading.classDecl n trivia (Tape.ofLexemes ls) s)
      (ClassDecl.read trivia c) := by
  have hmodifiers := h.classModifiers hn
  rw [Reading.classDecl, ClassDecl.read]
  generalize ClassDecl.readModifiers c = st at hmodifiers
  obtain ⟨modifiers, c₁, h₁⟩ := st
  refine .step hmodifiers fun s₁ hs₁ => ?_
  dsimp only
  refine .expectWord (c := c₁) hs₁ fun ⟨_, c₂, h₂⟩ s₂ hs₂ => ?_
  dsimp only
  refine .bind (Stands.takeName (c := c₂) hs₂) fun ⟨name, c₃, h₃⟩ s₃ hs₃ => ?_
  dsimp only
  refine .bind (Stands.parent (c := c₃) hs₃) fun ⟨parent, c₄, h₄⟩ s₄ hs₄ => ?_
  dsimp only
  refine .bind (Stands.interfaces (c := c₄) hs₄ (by omega)) fun ⟨interfaces, c₅, h₅⟩ s₅ hs₅ => ?_
  refine .expect hs₅ (by decide) fun ⟨opening, c₆, h₆⟩ s₆ hs₆ hreaches => ?_
  have hmarked : Marked ls { s₆ with lastEnd := opening.span.stop } c₆ := hreaches.of_pos rfl
  dsimp only at h₆ ⊢
  rw [Reading.setEnd_bind]
  refine .bind (hmarked.members (by omega)) fun ⟨members, c₇, h₇⟩ s₇ hs₇ => ?_
  have hs₇ : Marked ls s₇ c₇ := hs₇
  obtain ⟨s₈, hpos, -, hclosing⟩ := hs₇.closingComments
  have hs₈ : Stands ls false s₈ c₇ := hs₇.stands.of_pos hpos
  rw [Reading.bind_of_eq hclosing]
  refine .expect hs₈ (by decide) fun ⟨_, c₈, h₈⟩ s₉ hs₉ _ => ?_
  have hfinish := Stands.finish (c := c₈) hs₉ trivia
  dsimp only
  generalize c₈.finish trivia = st at hfinish
  obtain ⟨trivia, c₉, h₉⟩ := st
  exact .step hfinish fun _ hs => .pure (t := Tape.ofLexemes ls) rfl hs

end Classes

end ClassEdit
