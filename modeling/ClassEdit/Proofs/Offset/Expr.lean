import ClassEdit.Proofs.Offset.Extent
import ClassEdit.Proofs.Offset.Number

/-!
Reading expressions by the number of the next token. A literal is tried first; behind one that does
not end the expression the reader goes back to where it began. Main statement: with a round for
each token that is left and one for the end, it comes to the same expression as the reader that
goes from cursor to cursor.
-/

namespace ClassEdit

namespace Reading

open NumberLiteral (integerAt? negate? readFloat)

def position : Reading Nat := fun _ s => .ok (s.pos, s)

def setPos (n : Nat) : Reading Unit := fun _ s => .ok ((), { s with pos := n })

def commentTextsFrom (start : Nat) : Reading (List String) := do
  let comments ← commentsBetween start (← peek).span.start
  comments.mapM commentText

/-- Takes the tokens of an expression that is not taken apart, given the closers of the
brackets open so far. -/
def rawRest : Nat → List TokenKind → Reading Unit
  | 0, _ => exhausted
  | n + 1, closers => do
    let l ← peek
    if closers.isEmpty && l.kind.endsExpr then return ()
    else if l.kind = .eof then refuse ⟨.ended .closingBracket, l.span⟩
    else
      match l.kind.closer? with
      | some closer =>
        let _ ← advance
        rawRest n (closer :: closers)
      | none =>
        if !l.kind.isCloser then
          let _ ← advance
          rawRest n closers
        else
          match closers with
          | [] => return ()
          | closer :: outer =>
            if l.kind ≠ closer then refuse (.unbalanced (.kind closer) l)
            else
              let _ ← advance
              rawRest n outer

/-- Takes the tokens of an expression, at least one. -/
def rawTokens (n : Nat) : Reading Unit := do
  let first ← position
  rawRest n []
  if (← position) = first then unexpected .expression else return ()

def raw (n : Nat) : Reading Expr := return .raw (← textOf (rawTokens n))

/-- A number after a sign. -/
def negated : Reading (Option Expr) := do
  let number ← advance
  let digits ← lookup fun t => cut? t.source number.span.start number.span.stop
  let spelling := some ("-" ++ String.ofList digits)
  match number.kind with
  | .int =>
    match ← lookup fun _ => integerAt? number.text with
    | some n => return some (.int (← lookup fun _ => negate? n) spelling)
    | none => return none
  | .float => return some (.float (readFloat number.text).neg spelling)
  | _ => return none

/-- A literal that is no array: one token, or a sign and a number. -/
def scalar : Reading (Option Expr) := do
  let l ← peek
  match l.kind with
  | .quoted =>
    if Quoted.isInterpolated l.text then return none
    else
      let _ ← advance
      return some (.string (String.ofList (Quoted.value l.text)) (some l.string))
  | .int =>
    let _ ← advance
    let value ← lookup fun _ => integerAt? l.text
    return value.map fun n => .int n (some l.string)
  | .float =>
    let _ ← advance
    return some (.float (readFloat l.text) (some l.string))
  | .word =>
    let _ ← advance
    return some (.const l.string)
  | .minus =>
    let _ ← advance
    negated
  | _ => return none

section Arrays

variable (items : TokenKind → Nat → Reading (List ArrayItem × List String))

def arrayWith (closer : TokenKind) (long : Bool) : Reading ArrayLiteral := do
  let opening ← advance
  let onNewLine ← hasNewline opening.span.stop (← peek).span.start
  let (list, closing) ← items closer opening.span.stop
  return Expr.arrayLiteral long onNewLine list closing

/-- A literal, whatever comes behind it. -/
def literalWith : Reading (Option Expr) := do
  if ← isAt .leftBracket then return some (.array (← arrayWith items .rightBracket false))
  else if (← isAtWord "array") && (← peekAt 1).kind == .leftParen then
    let _ ← advance
    return some (.array (← arrayWith items .rightParen true))
  else scalar

/-- An expression, of which the literal is tried first. -/
def exprWith (n : Nat) : Reading Expr := do
  let start ← position
  match ← literalWith items with
  | some e =>
    if (← peek).kind.endsExpr then return e
    else
      setPos start
      raw n
  | none =>
    setPos start
    raw n

def itemWith (n : Nat) : Reading ArrayItem := do
  if ← eat .ellipsis then return { ArrayItem.positional (← exprWith items n) with spread := true }
  else
    let byRef ← eat .ampersand
    let first ← exprWith items n
    if ← if byRef then pure false else eat .arrow then
      let byRef ← eat .ampersand
      return { ArrayItem.keyed first (← exprWith items n) with byRef }
    else return { ArrayItem.positional first with byRef }

end Arrays

/-- The items of an array behind an offset, up to the closer, and the comments before the closer. -/
def items : Nat → TokenKind → Nat → Reading (List ArrayItem × List String)
  | 0, _, _ => exhausted
  | n + 1, closer, start => do
    let comments ← commentTextsFrom start
    if ← eat closer then return ([], comments)
    else if ← isAt .eof then unexpected (.kind closer)
    else
      let item ← itemWith (items n) (n + 1)
      if ← eat .comma then
        let start ← prevEnd
        let comment ← sameLineComment start
        let trailing ← comment.mapM commentText
        let (more, closing) ← items n closer ((comment.map (·.span.stop)).getD start)
        return ({ item with comments, trailing } :: more, closing)
      else
        let closing ← commentTextsFrom (← prevEnd)
        let _ ← expect closer
        return ([{ item with comments }], closing)

def expr (n : Nat) : Reading Expr := exprWith (items n) n

def item (n : Nat) : Reading ArrayItem := itemWith (items n) n

end Reading

/-- A reader by offsets and one that goes from cursor to cursor find the same or find both nothing,
and then it does not matter where the reader by offsets stands. -/
inductive Tries {α : Type} {k : Nat} {c : Cursor} (Q : At → Cursor → Prop) :
    Except Halt (Option α × At) → Except ParseError (Option (Step k α c)) → Prop where
  | some {r : Step k α c} {s : At} (h : Q s r.rest) : Tries Q (.ok (some r.value, s)) (.ok (some r))
  | none (s : At) : Tries Q (.ok (none, s)) (.ok none)
  | refused (e : ParseError) : Tries Q (.error (.refused e)) (.error e)

theorem Tries.bind {α β : Type} {t : Tape} {s : At} {c c' : Cursor} {k j : Nat}
    {Q R : At → Cursor → Prop} {x : Reading α} {f : α → Reading (Option β)}
    {r : Except ParseError (Step k α c)} {g : Step k α c → Except ParseError (Option (Step j β c'))}
    (h : Tracks Q (x t s) r) (hf : ∀ st s', Q s' st.rest → Tries R (f st.value t s') (g st)) :
    Tries R ((x >>= f) t s) (r >>= g) := by
  generalize hx : x t s = m at h
  cases h with
  | @ok st s' h =>
    rw [Reading.bind_of_eq hx]
    exact hf st s' h
  | refused e =>
    rw [Reading.bind_of_error hx]
    exact .refused e

section Raw

variable {ls : List Lexeme} {tight : Bool} {s : At} {c : Cursor} {n : Nat}

/-- The tokens of an expression that is kept as text are counted the same by offsets. -/
theorem Stands.rawRest (h : Stands ls tight s c) (hn : c.size < n) (closers : List TokenKind) :
    Counts s c (Reading.rawRest n closers (Tape.ofLexemes ls) s)
      (Expr.rawLength c.eof closers c.ahead) := by
  induction n generalizing tight s c closers with
  | zero => cases hn
  | succ n ih =>
    rw [Reading.rawRest.eq_def]
    dsimp only
    rw [Reading.bind_of_eq h.peek]
    cases hahead : c.ahead with
    | nil =>
      obtain ⟨hhead, hkind⟩ := h.head_of_nil hahead
      have hends : c.head.kind.endsExpr = true := by rw [hkind]; rfl
      rw [hends, Bool.and_true, Expr.rawLength]
      split
      next => exact .ok (Nat.zero_le _)
      next =>
        rw [hhead]
        exact .refused _
    | cons t ts =>
      obtain ⟨hhead, hkind, hsize, hbehind, hskip⟩ := h.uncons hahead
      have hrest :=
        fun closers => Counts.add hsize (ih hskip (by rw [Cursor.size_skip]; omega) closers)
      rw [hbehind] at hrest
      have hadvance := h.advance
      rw [hhead] at hadvance
      rw [hhead, Expr.rawLength.eq_def]
      dsimp only
      split
      next => exact .ok (Nat.zero_le _)
      next =>
        cases hopen : t.kind.closer? with
        | some closer =>
          dsimp only
          rw [Reading.bind_of_eq hadvance]
          exact hrest (closer :: closers)
        | none =>
          dsimp only
          split
          next =>
            rw [Reading.bind_of_eq hadvance]
            exact hrest closers
          next =>
            cases closers with
            | nil => exact .ok (Nat.zero_le _)
            | cons closer outer =>
              dsimp only
              split
              next => exact .refused _
              next =>
                rw [Reading.bind_of_eq hadvance]
                exact hrest outer

/-- The tokens of an expression that is not taken apart. -/
theorem Stands.rawTokens (h : Stands ls tight s c) (hn : c.size < n) :
    ∃ r, Takes s c (Reading.rawTokens n (Tape.ofLexemes ls) s) r ∧
      Expr.readRaw c = do return (← r).map fun ts => .raw (ClassEdit.excerptOf ts) := by
  have hposition (s : At) : Reading.position (Tape.ofLexemes ls) s = .ok (s.pos, s) := rfl
  have hrest := h.rawRest hn []
  rw [Reading.rawTokens, Reading.bind_of_eq (hposition s), Expr.readRaw]
  cases hlength : Expr.rawLength c.eof [] c.ahead with
  | error e =>
    rw [hlength] at hrest
    refine ⟨.error e, ?_, rfl⟩
    rw [Reading.bind_of_error hrest.eq_error]
    exact .refused e
  | ok k =>
    rw [hlength] at hrest
    obtain ⟨hrest, hk⟩ := hrest.eq_ok
    rw [Reading.bind_of_eq hrest, Reading.bind_of_eq (hposition _), ok_bind]
    cases k with
    | zero =>
      refine ⟨.error (c.unexpected .expression), ?_, rfl⟩
      have hsame : Stands ls tight { s with pos := s.pos + 0 } c := h
      rw [if_pos (Nat.add_zero s.pos), hsame.unexpected_eq]
      exact .refused _
    | succ k =>
      have hne : c.ahead ≠ [] := by
        intro hnil
        rw [Cursor.size, hnil] at hk
        cases hk
      obtain ⟨st, hst, hvalue, hskip⟩ := Cursor.exists_takeMore? hne k
      refine ⟨.ok st, ?_, ?_⟩
      · rw [if_neg (by simp)]
        exact .ok hk (Nat.succ_pos k) hvalue hskip
      · rw [if_neg (Nat.succ_ne_zero k), Nat.add_sub_cancel, hst]
        rfl

theorem Stands.raw (h : Stands ls tight s c) (hn : c.size < n) :
    Tracks (Stands ls true) (Reading.raw n (Tape.ofLexemes ls) s) (Expr.readRaw c) := by
  obtain ⟨r, htakes, hmodel⟩ := h.rawTokens hn
  rw [Reading.raw, hmodel]
  exact .textOf h htakes fun _ _ hs => .pure (t := Tape.ofLexemes ls) rfl hs

theorem Reaches.commentTextsFrom {stop : Nat} (h : Reaches ls stop s c) :
    Reading.commentTextsFrom stop (Tape.ofLexemes ls) s =
      .ok (Expr.commentTexts c.head.comments, s) := by
  obtain ⟨front, hfront, -⟩ := id h
  rw [Reading.commentTextsFrom, Reading.bind_of_eq hfront.peek,
    Reading.bind_of_eq (h.commentsBetween s)]
  exact hfront.commentTexts h.mem_comments s

end Raw

section Literals

open NumberLiteral (integerAt? integerAt?_eq negate?_eq readInteger_nonneg)

variable {ls : List Lexeme} {tight : Bool} {s : At} {c : Cursor} {n : Nat}

theorem Stands.mem_head (h : Stands ls tight s c) : IsWhole ls ∧ c.head.toLexeme ∈ ls := by
  obtain ⟨front, hfront, -⟩ := h
  exact ⟨hfront.whole, hfront.mem_head⟩

/-- An integer literal has a value or is out of range, and offsets do not fail. -/
theorem Stands.integerAt? (h : Stands ls tight s c) (hkind : c.head.kind = .int) (s' : At) :
    Reading.lookup (fun _ => integerAt? c.head.text) (Tape.ofLexemes ls) s' =
      .ok (NumberLiteral.readInteger c.head.text, s') :=
  Reading.lookup_eq (integerAt?_eq (h.mem_head.1.isUnsigned h.mem_head.2 hkind)) s'

/-- A number behind a sign is the same by offsets, and its negation never overflows. -/
theorem Stands.negated (h : Stands ls tight s c) :
    Reading.negated (Tape.ofLexemes ls) s =
      .ok (Expr.negated? c.head, { s with pos := s.pos + 1 }) := by
  have hcut := h.mem_head.1.cut?_span h.mem_head.2
  rw [Reading.negated, Reading.bind_of_eq h.advance, Reading.bind_of_eq (Reading.lookup_eq hcut _),
    Expr.negated?]
  generalize hkind : c.head.kind = kind
  cases kind
  case int =>
    dsimp only
    rw [Reading.bind_of_eq (h.integerAt? hkind _)]
    cases hvalue : NumberLiteral.readInteger c.head.text with
    | none => rfl
    | some n =>
      dsimp only
      rw [Reading.bind_of_eq (Reading.lookup_eq (negate?_eq (readInteger_nonneg hvalue)) _)]
      rfl
  all_goals rfl

/-- A number, a string or a constant is found the same by offsets. -/
theorem Stands.scalar (h : Stands ls tight s c) :
    Tries (Stands ls true) (Reading.scalar (Tape.ofLexemes ls) s) (.ok (Expr.scalar? c)) := by
  rw [Reading.scalar, Reading.bind_of_eq h.peek]
  rcases c.eq_push with hnil | ⟨c, t, rfl⟩
  · rw [(h.head_of_nil hnil).2, Expr.scalar?, Cursor.next?_eq_none hnil]
    exact .none s
  · obtain ⟨-, -, -, -, hskip⟩ := h.uncons (Cursor.ahead_push c t)
    have hskip : Stands ls true { s with pos := s.pos + 1 } c := hskip
    have hadvance := h.advance
    have hvalue := h.integerAt?
    rw [Cursor.head_push] at hadvance hvalue
    rw [Cursor.head_push, Expr.scalar?, Cursor.next?_push]
    dsimp only
    generalize hkind : t.kind = kind at hvalue
    cases kind
    case quoted =>
      dsimp only
      split
      next => exact .none s
      next =>
        rw [Reading.bind_of_eq hadvance]
        exact .some (r := ⟨_, c, c.size_push t⟩) hskip
    case int =>
      dsimp only
      rw [Reading.bind_of_eq hadvance, Reading.bind_of_eq (hvalue rfl _)]
      cases NumberLiteral.readInteger t.text with
      | none => exact .none _
      | some n => exact .some (r := ⟨_, c, c.size_push t⟩) hskip
    case float | word =>
      dsimp only
      rw [Reading.bind_of_eq hadvance]
      exact .some (r := ⟨_, c, c.size_push t⟩) hskip
    case minus =>
      dsimp only
      rw [Reading.bind_of_eq hadvance, hskip.negated]
      rcases c.eq_push with hnil | ⟨c, u, rfl⟩
      · have hnone : Expr.negated? c.head = none := by
          rw [Expr.negated?, (hskip.head_of_nil hnil).2]
        rw [hnone, Cursor.next?_eq_none hnil]
        exact .none _
      · obtain ⟨-, -, -, -, hskip⟩ := hskip.uncons (Cursor.ahead_push c u)
        rw [Cursor.head_push, Cursor.next?_push, Option.bind_some]
        dsimp only
        cases Expr.negated? u with
        | none => exact .none _
        | some e => exact .some (r := .past (Cursor.size_push _ t) ⟨e, c, c.size_push u⟩) hskip
    all_goals exact .none s

end Literals

section Arrays

variable {ls : List Lexeme} {tight : Bool} {s : At} {c c₁ : Cursor} {t : Token} {n m : Nat}
  {items : TokenKind → Nat → Reading (List ArrayItem × List String)}

/-- The items are read from every place with fewer tokens ahead than a number. -/
def ReadsItems (ls : List Lexeme) (m : Nat)
    (items : TokenKind → Nat → Reading (List ArrayItem × List String)) : Prop :=
  ∀ {s : At} {c : Cursor} {stop : Nat} {closer : TokenKind}, closer ≠ .eof → c.size < m →
    Reaches ls stop s c →
    Tracks (Stands ls true) (items closer stop (Tape.ofLexemes ls) s) (Expr.readItems closer c)

/-- An array is read the same by offsets if its items are. -/
theorem Stands.arrayWith (h : Stands ls tight s (c₁.push t)) (hitems : ReadsItems ls m items)
    (hm : c₁.size < m) (h₁ : c₁.size + 1 ≤ c.size) {closer : TokenKind} (hcloser : closer ≠ .eof)
    (long : Bool) :
    Tries (Stands ls true)
      ((do return some (Expr.array (← Reading.arrayWith items closer long))) (Tape.ofLexemes ls) s)
        (do
      let ⟨(list, closing), c₂, h₂⟩ ← Expr.readItems closer c₁
      return some
        (.past h₁ ⟨Expr.array (Expr.arrayLiteral long c₁.head.isOnNewLine list closing), c₂, h₂⟩) :
        Except ParseError (Option (Step 1 Expr c))) := by
  have hreaches : Reaches ls t.span.stop { s with pos := s.pos + 1 } c₁ :=
    h.reaches_skip (Cursor.ahead_push c₁ t)
  rw [Reading.arrayWith, bind_assoc, Reading.bind_of_eq h.advance, bind_assoc,
    Reading.bind_of_eq hreaches.stands.peek, bind_assoc, Cursor.head_push,
    Reading.bind_of_eq (hreaches.hasNewline _), bind_assoc]
  exact .bind (hitems hcloser hm hreaches) fun ⟨(list, closing), c₂, h₂⟩ s₂ hs₂ =>
    .some
      (r := .past h₁ ⟨Expr.array (Expr.arrayLiteral long c₁.head.isOnNewLine list closing), c₂, h₂⟩)
        hs₂

/-- A literal is found the same by offsets if the items of arrays are read the same. -/
theorem Stands.literalWith (h : Stands ls tight s c) (hitems : ReadsItems ls m items)
    (hm : c.size ≤ m) :
    Tries (Stands ls true) (Reading.literalWith items (Tape.ofLexemes ls) s)
      (Expr.readLiteral c) := by
  have hscalar := h.scalar
  rw [Reading.literalWith, Reading.bind_of_eq (h.isAt _), Expr.readLiteral, Expr.arrayOpening?]
  rcases c.eq_push with hnil | ⟨c, t, rfl⟩
  · have hkind := (h.head_of_nil hnil).2
    have hbracket : c.isAt .leftBracket = false := by rw [Cursor.isAt, hkind]; rfl
    have hword : c.isAtWord "array" = false := isWord_of_eof _ _ hkind
    rw [hbracket, if_neg Bool.false_ne_true, Reading.bind_of_eq (h.isAtWord _),
      Reading.bind_of_eq (h.peekAt 1), hword, Bool.false_and, if_neg Bool.false_ne_true,
      Cursor.take?_eq_none (by rw [hkind]; decide), Cursor.takeWord?_eq_none hword]
    exact hscalar
  · obtain ⟨-, -, -, -, hskip⟩ := h.uncons (Cursor.ahead_push c t)
    have hskip : Stands ls true { s with pos := s.pos + 1 } c := hskip
    have hsecond : Cursor.skip (c.push t) 1 = c := rfl
    rw [Cursor.take?_push, Cursor.isAt_push]
    by_cases hbracket : t.kind = .leftBracket
    · rw [if_pos (beq_iff_eq.2 hbracket), if_pos hbracket]
      exact h.arrayWith hitems hm (c.size_push t) (by decide) false
    · rw [if_neg (mt beq_iff_eq.1 hbracket), if_neg hbracket, Reading.bind_of_eq (h.isAtWord _),
        Reading.bind_of_eq (h.peekAt 1), hsecond, Cursor.isAtWord_push, Cursor.takeWord?_push]
      cases hword : t.isWord "array" with
      | false => exact hscalar
      | true =>
        rw [Bool.true_and, if_pos rfl, Option.bind_some]
        dsimp only
        by_cases hparen : c.head.kind = .leftParen
        · rcases c.eq_push with hnil | ⟨c, u, rfl⟩
          · rw [(hskip.head_of_nil hnil).2] at hparen
            cases hparen
          · have hkind : u.kind = .leftParen := hparen
            rw [if_pos (beq_iff_eq.2 hparen), Reading.bind_of_eq h.advance,
              Cursor.take?_push, if_pos hkind]
            exact hskip.arrayWith (c := (c.push u).push t) hitems (Nat.lt_of_succ_lt hm)
              (Nat.le_succ_of_le (c.size_push u))
              (by decide) true
        · rw [if_neg (mt beq_iff_eq.1 hparen), Cursor.take?_eq_none hparen]
          exact hscalar

/-- An expression is read from where it begins, also where a literal has been tried before. -/
theorem Stands.exprWith (h : Stands ls tight s c) (hitems : ReadsItems ls m items) (hm : c.size ≤ m)
    (hn : c.size < n) :
    Tracks (Stands ls true) (Reading.exprWith items n (Tape.ofLexemes ls) s) (Expr.read c) := by
  have hposition : Reading.position (Tape.ofLexemes ls) s = .ok (s.pos, s) := rfl
  have hback (s' : At) : Tracks (Stands ls true)
      ((do Reading.setPos s.pos; Reading.raw n : Reading Expr) (Tape.ofLexemes ls) s')
        (Expr.readRaw c) := by
    have hset : Reading.setPos s.pos (Tape.ofLexemes ls) s' = .ok ((), { s' with pos := s.pos }) :=
      rfl
    have hstands : Stands ls tight { s' with pos := s.pos } c := h.of_pos rfl
    rw [Reading.bind_of_eq hset]
    exact hstands.raw hn
  have htries := h.literalWith hitems hm
  rw [Reading.exprWith, Reading.bind_of_eq hposition, Expr.read]
  generalize hmachine : Reading.literalWith items (Tape.ofLexemes ls) s = result at htries
  generalize Expr.readLiteral c = r at htries
  cases htries with
  | refused e =>
    rw [Reading.bind_of_error hmachine]
    exact .refused e
  | none s' =>
    rw [Reading.bind_of_eq hmachine]
    exact hback s'
  | @some st s' hst =>
    rw [Reading.bind_of_eq hmachine, ok_bind]
    dsimp only
    rw [Reading.bind_of_eq hst.peek]
    exact .ite (fun _ => .pure (t := Tape.ofLexemes ls) rfl hst) fun _ => hback s'

/-- An item is read the same by offsets if the items of the arrays in it are. -/
theorem Stands.itemWith (h : Stands ls tight s c) (hitems : ReadsItems ls m items) (hm : c.size ≤ m)
    (hn : c.size < n) :
    Tracks (Stands ls true) (Reading.itemWith items n (Tape.ofLexemes ls) s) (Expr.readItem c) := by
  have hexpr {tight : Bool} {s' : At} {c' : Cursor} (h' : Stands ls tight s' c')
      (hsize : c'.size ≤ c.size) :=
    h'.exprWith hitems (Nat.le_trans hsize hm) (Nat.lt_of_le_of_lt hsize hn)
  rw [Reading.itemWith, Expr.readItem]
  refine .eat h (by decide) (fun ⟨_, c₁, h₁⟩ s₁ htake hs₁ => ?spread) fun htake => ?plain
  case spread =>
    rw [htake]
    have hs₁ : Stands ls true s₁ c₁ := hs₁
    exact .bind (hexpr hs₁ (by omega)) fun _ _ hs₂ => .pure (t := Tape.ofLexemes ls) rfl hs₂
  case plain =>
    have haccept := h.accept (k := .ampersand) (by decide)
    rw [htake]
    dsimp only
    generalize c.accept .ampersand = st at haccept
    obtain ⟨byRef, c₁, h₁⟩ := st
    refine .step haccept fun s₁ hs₁ => ?_
    refine .bind (hexpr hs₁ h₁) fun ⟨first, c₂, h₂⟩ s₂ hs₂ => ?_
    cases byRef with
    | true => exact .pure (t := Tape.ofLexemes ls) rfl hs₂
    | false =>
      rw [if_neg Bool.false_ne_true, if_neg Bool.false_ne_true]
      refine .eat hs₂ (by decide) (fun ⟨_, c₃, h₃⟩ s₃ htake hs₃ => ?keyed) fun htake => ?_
      case keyed =>
        have haccept := hs₃.accept (k := .ampersand) (by decide)
        rw [htake]
        dsimp only at haccept ⊢
        generalize c₃.accept .ampersand = st at haccept
        obtain ⟨byRef, c₄, h₄⟩ := st
        refine .step haccept fun s₄ hs₄ => ?_
        have hs₄ : Stands ls true s₄ c₄ := hs₄
        dsimp only at h₁ h₂ h₃ h₄ ⊢
        exact .bind (hexpr hs₄ (by omega)) fun _ _ hs₅ => .pure (t := Tape.ofLexemes ls) rfl hs₅
      · rw [htake]
        exact .pure (t := Tape.ofLexemes ls) rfl hs₂

/-- What stands behind the last item of an array. -/
theorem Stands.commentTextsFrom (h : Stands ls true s c) :
    ∃ stop, Reading.prevEnd (Tape.ofLexemes ls) s = .ok (stop, s) ∧
    Reading.commentTextsFrom stop (Tape.ofLexemes ls) s =
      .ok (Expr.commentTexts c.head.comments, s) := by
  obtain ⟨stop, hprev, hreaches⟩ := h.prevEnd
  exact ⟨stop, hprev, hreaches.commentTextsFrom⟩

/-- With a round for each item and one for the end, the items are read. -/
theorem readsItems (ls : List Lexeme) (n : Nat) : ReadsItems ls n (Reading.items n) := by
  induction n with
  | zero => exact fun _ hn => absurd hn (Nat.not_lt_zero _)
  | succ n ih =>
    intro s c stop closer hcloser hn h
    have hc := h.stands
    rw [Reading.items, Reading.bind_of_eq h.commentTextsFrom, Expr.readItems]
    refine .eat hc hcloser (fun ⟨_, c₁, h₁⟩ s₁ htake hs₁ => ?closed) fun htake => ?_
    case closed =>
      rw [htake]
      exact .pure (t := Tape.ofLexemes ls) rfl hs₁
    rw [htake, Reading.bind_of_eq (hc.isAt .eof), hc.isAt_eof]
    refine .ite (fun _ => hc.unexpected _) fun _ => ?_
    refine .bind (hc.itemWith ih (Nat.lt_succ_iff.1 hn) hn) fun ⟨item, c₁, h₁⟩ s₁ hs₁ => ?_
    have hs₁ : Stands ls true s₁ c₁ := hs₁
    dsimp only
    refine .eat hs₁ (by decide) (fun ⟨_, c₂, h₂⟩ s₂ htake hs₂ => ?further) fun htake => ?last
    case further =>
      obtain ⟨stop, hprev, hreaches⟩ := hs₂.prevEnd
      have hreaches : Reaches ls stop s₂ c₂ := hreaches
      obtain ⟨hcomment, hbehind⟩ := hreaches.sameLineComment
      have hprogress := c₂.sameLineComment.progress
      rw [htake, Reading.bind_of_eq hprev, Reading.bind_of_eq hcomment,
        Reading.bind_of_eq (hreaches.trailingText _)]
      exact .bind (ih hcloser (by omega) hbehind) fun _ _ hs₄ =>
        .pure (t := Tape.ofLexemes ls) rfl hs₄
    case last =>
      obtain ⟨stop, hprev, htexts⟩ := hs₁.commentTextsFrom
      rw [htake, Reading.bind_of_eq hprev, Reading.bind_of_eq htexts]
      exact .expect hs₁ hcloser fun _ _ hs₂ _ => .pure (t := Tape.ofLexemes ls) rfl hs₂

theorem Stands.expr (h : Stands ls tight s c) (hn : c.size < n) :
    Tracks (Stands ls true) (Reading.expr n (Tape.ofLexemes ls) s) (Expr.read c) :=
  h.exprWith (readsItems ls n) (Nat.le_of_lt hn) hn

theorem Stands.item (h : Stands ls tight s c) (hn : c.size < n) :
    Tracks (Stands ls true) (Reading.item n (Tape.ofLexemes ls) s) (Expr.readItem c) :=
  h.itemWith (readsItems ls n) (Nat.le_of_lt hn) hn

end Arrays

end ClassEdit
