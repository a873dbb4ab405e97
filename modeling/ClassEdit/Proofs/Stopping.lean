import ClassEdit.Class.Parser

/-!
Where readers stop, and what they blame. A reader takes tokens from the front and leaves those
behind them as they are. A comment that belongs to what was read is taken off the next token, so
between two readers the cursor may stand among the comments of a token. A reader that refuses what
is ahead blames one of the tokens, or the end behind them. Main statements: readers of types,
expressions and blocks stop behind a token.
-/

namespace ClassEdit

namespace Cursor

/-- The second cursor stands further on in the tokens of the first. If it is loose, comments before
the next token may have been taken. -/
inductive Behind (c : Cursor) : Bool → Cursor → Prop where
  | tokens {loose : Bool} (n : Nat) : Behind c loose (c.skip n)
  | comments (n : Nat) (comments : List Lexeme) : Behind c true ((c.skip n).withComments comments)

variable {c c₀ : Cursor} {loose : Bool}

theorem skip_skip (c : Cursor) (m n : Nat) : (c.skip m).skip n = c.skip (m + n) := by
  simp [skip]

theorem skip_of_nil (n : Nat) (h : c.ahead = []) : c.skip n = c := by
  obtain ⟨ahead, eof⟩ := c
  subst h
  simp [skip]

theorem skip_withComments (c : Cursor) (comments : List Lexeme) (n : Nat) (h : c.ahead ≠ []) :
    (c.withComments comments).skip (n + 1) = c.skip (n + 1) := by
  unfold withComments
  split
  next t ts hts => simp [skip, hts]
  next hnil => exact absurd hnil h

theorem ahead_withComments (c : Cursor) (comments : List Lexeme) (h : c.ahead = []) :
    (c.withComments comments).ahead = [] := by
  rw [withComments, h]

def lexemes (c : Cursor) : List Lexeme :=
  c.ahead.map Token.toLexeme ++ [c.eof.toLexeme]

theorem mem_lexemes_of_ahead {t : Token} (h : t ∈ c.ahead) : t.toLexeme ∈ c.lexemes :=
  List.mem_append_left _ (List.mem_map_of_mem h)

theorem eof_mem_lexemes (c : Cursor) : c.eof.toLexeme ∈ c.lexemes :=
  List.mem_append_right _ List.mem_cons_self

theorem head_mem_lexemes (c : Cursor) : c.head.toLexeme ∈ c.lexemes := by
  unfold head
  cases hahead : c.ahead with
  | nil => exact c.eof_mem_lexemes
  | cons t ts => exact mem_lexemes_of_ahead (t := t) (hahead ▸ List.mem_cons_self)

theorem lexemes_withComments (c : Cursor) (comments : List Lexeme) :
    (c.withComments comments).lexemes = c.lexemes := by
  unfold withComments
  split
  next t ts hts => simp [lexemes, hts]
  next hnil => rfl

theorem eof_withComments (c : Cursor) (comments : List Lexeme) :
    (c.withComments comments).eof.toLexeme = c.eof.toLexeme := by
  unfold withComments
  split <;> rfl

theorem withComments_withComments (c : Cursor) (a b : List Lexeme) :
    (c.withComments a).withComments b = c.withComments b := by
  obtain ⟨ahead, eof⟩ := c
  cases ahead <;> rfl

theorem next?_eq_some {s : Step 1 Token c} (hs : c.next? = some s) :
    c.ahead = s.value :: s.rest.ahead ∧ s.rest = c.skip 1 := by
  unfold next? at hs
  split at hs
  next t ts hts =>
    obtain rfl := Option.some.inj hs
    exact ⟨hts, by simp [skip, hts]⟩
  next => cases hs

theorem take_eq_ok {k : TokenKind} {s : Step 1 Token c} (hs : c.take k = .ok s) :
    c.ahead = s.value :: s.rest.ahead ∧ s.rest = c.skip 1 ∧ s.value.kind = k := by
  unfold Cursor.take at hs
  split at hs
  next htake =>
    cases hs
    obtain ⟨hnext, hkind⟩ := Option.filter_eq_some_iff.1 htake
    obtain ⟨hahead, hrest⟩ := next?_eq_some hnext
    exact ⟨hahead, hrest, eq_of_beq hkind⟩
  next => cases hs

namespace Behind

theorem refl : c.Behind false c := .tokens 0

theorem cons (t : Token) (ts : List Token) (eof : Token) :
    Behind ⟨t :: ts, eof⟩ false ⟨ts, eof⟩ := .tokens 1

theorem loosen (h : c₀.Behind false c) : c₀.Behind loose c := by
  cases h with
  | tokens n => exact .tokens n

theorem slacken (h : c₀.Behind loose c) : c₀.Behind true c := by
  cases h with
  | tokens n => exact .tokens n
  | comments n comments => exact .comments n comments

/-- Further tokens that are skipped lead further behind. -/
theorem skip (h : c₀.Behind loose c) (n : Nat) : c₀.Behind loose (c.skip n) := by
  cases h with
  | tokens m =>
      rw [skip_skip]
      exact .tokens _
  | comments m comments =>
      cases n with
      | zero => exact .comments m comments
      | succ n =>
          by_cases hnil : (c₀.skip m).ahead = []
          · rw [skip_of_nil _ (ahead_withComments _ _ hnil)]
            exact .comments m comments
          · rw [skip_withComments _ _ _ hnil, skip_skip]
            exact .tokens _

/-- Behind a token all comments before it were taken. -/
theorem next? (h : c₀.Behind loose c) {s : Step 1 Token c} (hs : c.next? = some s) :
    c₀.Behind false s.rest := by
  obtain ⟨hahead, hrest⟩ := next?_eq_some hs
  rw [hrest]
  cases h with
  | tokens m => exact skip (.tokens m) 1
  | comments m comments =>
      have hne : (c₀.skip m).ahead ≠ [] := by
        intro hnil
        rw [ahead_withComments _ _ hnil] at hahead
        cases hahead
      rw [skip_withComments _ _ _ hne]
      exact skip (.tokens m) 1

theorem take? (h : c₀.Behind loose c) {k : TokenKind} {s : Step 1 Token c}
    (hs : c.take? k = some s) :
    c₀.Behind false s.rest :=
  h.next? (Option.filter_eq_some_iff.1 hs).1

theorem takeWord? (h : c₀.Behind loose c) {w : String} {s : Step 1 Token c}
    (hs : c.takeWord? w = some s) :
    c₀.Behind false s.rest :=
  h.next? (Option.filter_eq_some_iff.1 hs).1

/-- The tokens further on are among those of the first cursor. -/
theorem mem_lexemes (h : c₀.Behind loose c) {l : Lexeme} (hl : l ∈ c.lexemes) : l ∈ c₀.lexemes := by
  have hskip {n : Nat} (hl : l ∈ (c₀.skip n).lexemes) : l ∈ c₀.lexemes :=
    ((((List.drop_sublist n c₀.ahead).map _).append_right _).subset hl)
  cases h with
  | tokens n => exact hskip hl
  | comments n comments =>
      rw [lexemes_withComments] at hl
      exact hskip hl

theorem eof_eq (h : c₀.Behind loose c) : c.eof.toLexeme = c₀.eof.toLexeme := by
  cases h with
  | tokens n => rfl
  | comments n comments => exact eof_withComments _ _

theorem takeMore? (h : c₀.Behind loose c) {n : Nat} {s : Step 1 (List Token) c}
    (hs : c.takeMore? n = some s) :
    c₀.Behind false s.rest := by
  obtain ⟨s₁, hs₁, rfl⟩ := Option.map_eq_some_iff.1 hs
  exact (h.next? hs₁).skip n

theorem accept (h : c₀.Behind loose c) (k : TokenKind) : c₀.Behind loose (c.accept k).rest := by
  unfold Cursor.accept
  split
  next hs => exact (h.take? hs).loosen
  next => exact h

theorem withComments (h : c₀.Behind loose c) (comments : List Lexeme) :
    c₀.Behind true (c.withComments comments) := by
  cases h with
  | tokens m => exact .comments m comments
  | comments m _ =>
      rw [withComments_withComments]
      exact .comments m comments

theorem sameLineComment (h : c₀.Behind loose c) : c₀.Behind true c.sameLineComment.rest := by
  unfold Cursor.sameLineComment
  split
  next l ls _ =>
    split
    next => exact h.slacken
    next => exact h.withComments ls
  next => exact h.slacken

end Behind

end Cursor

section Blames

variable {c c₀ : Cursor} {loose : Bool} {α β : Type}

/-- The error shows a lexeme ahead of the cursor. If something is missing there, this is the end. -/
def ParseError.Shows (c : Cursor) (e : ParseError) : Prop :=
  ∃ l ∈ c.lexemes, e.span = l.span ∧
    (c.eof.kind = .eof → ∀ wanted, e.cause = .ended wanted → l.kind = .eof)

namespace ParseError

theorem shows_unexpected {l : Lexeme} (h : l ∈ c.lexemes) (wanted : Expectation) :
    (unexpected wanted l).Shows c := by
  unfold unexpected
  split
  next heof => exact ⟨l, h, rfl, fun _ _ _ => heof⟩
  next => exact ⟨l, h, rfl, fun _ => nofun⟩

theorem shows_unbalanced {l : Lexeme} (h : l ∈ c.lexemes) (wanted : Expectation) :
    (unbalanced wanted l).Shows c :=
  ⟨l, h, rfl, fun _ => nofun⟩

theorem shows_ended (c : Cursor) (wanted : Expectation) : Shows c ⟨.ended wanted, c.eof.span⟩ :=
  ⟨_, c.eof_mem_lexemes, rfl, fun heof _ _ => heof⟩

theorem Shows.mono {e : ParseError} (he : e.Shows c) (hlexemes : ∀ l ∈ c.lexemes, l ∈ c₀.lexemes)
    (heof : c.eof.toLexeme = c₀.eof.toLexeme) : e.Shows c₀ := by
  obtain ⟨l, hl, hspan, hended⟩ := he
  exact ⟨l, hlexemes l hl, hspan, fun hkind => hended (heof ▸ hkind)⟩

end ParseError

theorem Cursor.Behind.unexpected (h : c₀.Behind loose c) (wanted : Expectation) :
    (c.unexpected wanted).Shows c₀ :=
  ParseError.shows_unexpected (h.mem_lexemes c.head_mem_lexemes) wanted

/-- What comes out satisfies the predicate, and an error shows a lexeme ahead of the cursor. -/
def Blames (c : Cursor) (Q : α → Prop) : Except ParseError α → Prop
  | .ok a => Q a
  | .error e => e.Shows c

namespace Blames

variable {Q : α → Prop} {r : Except ParseError α}

theorem bind {R : β → Prop} {g : α → Except ParseError β} (hr : Blames c Q r)
    (hg : ∀ a, Q a → Blames c R (g a)) : Blames c R (r >>= g) := by
  cases r with
  | error e => exact hr
  | ok a => exact hg a hr

/-- Where nothing is asked of what comes out. -/
theorem map {f : α → β} (hr : Blames c (fun _ => True) r) : Blames c (fun _ => True) (f <$> r) := by
  cases r with
  | error e => exact hr
  | ok a => trivial

theorem mono (hr : Blames c Q r) (hlexemes : ∀ l ∈ c.lexemes, l ∈ c₀.lexemes)
    (heof : c.eof.toLexeme = c₀.eof.toLexeme) : Blames c₀ Q r := by
  cases r with
  | error e => exact ParseError.Shows.mono hr hlexemes heof
  | ok a => exact hr

theorem of_behind (hr : Blames c Q r) (h : c₀.Behind loose c) : Blames c₀ Q r :=
  hr.mono (fun _ => h.mem_lexemes) h.eof_eq

theorem of_error {e : ParseError} (hr : Blames c Q r) (h : r = .error e) : e.Shows c := by
  subst h
  exact hr

end Blames

/-- What is read leaves a cursor behind the first one, and an error shows a lexeme ahead of that. -/
def Leaves (c₀ : Cursor) (loose : Bool) {k : Nat} {c : Cursor}
    (r : Except ParseError (Step k α c)) : Prop :=
  Blames c₀ (fun s => c₀.Behind loose s.rest) r

namespace Leaves

variable {k k' : Nat} {c' : Cursor} {loose' : Bool}

theorem ok {s : Step k α c} (h : c₀.Behind loose s.rest) : Leaves c₀ loose (.ok s) := h

theorem error {e : ParseError} (h : e.Shows c₀) :
    Leaves c₀ loose (.error e : Except ParseError (Step k α c)) := h

theorem bind {r : Except ParseError (Step k α c)}
    {g : Step k α c → Except ParseError (Step k' β c')} (hr : Leaves c₀ loose r)
    (hg : ∀ s, c₀.Behind loose s.rest → Leaves c₀ loose' (g s)) :
    Leaves c₀ loose' (r >>= g) :=
  Blames.bind hr hg

/-- Where the first reader looks ahead and takes nothing. -/
theorem behind {Q : α → Prop} {r : Except ParseError α} {g : α → Except ParseError (Step k β c)}
    (hr : Blames c₀ Q r) (hg : ∀ x, Q x → Leaves c₀ loose (g x)) : Leaves c₀ loose (r >>= g) :=
  Blames.bind hr hg

theorem rest {r : Except ParseError (Step k α c)} (h : Leaves c₀ loose r) {s : Step k α c}
    (hs : r = .ok s) :
    c₀.Behind loose s.rest := by
  subst hs
  exact h

end Leaves

end Blames

namespace Cursor.Behind

variable {c c₀ : Cursor} {loose : Bool}

theorem take (h : c₀.Behind loose c) (k : TokenKind) : Leaves c₀ false (c.take k) := by
  unfold Cursor.take
  split
  next hs => exact .ok (h.take? hs)
  next => exact .error (h.unexpected _)

theorem takeWord (h : c₀.Behind loose c) (w : String) : Leaves c₀ false (c.takeWord w) := by
  unfold Cursor.takeWord
  split
  next hs => exact .ok (h.takeWord? hs)
  next => exact .error (h.unexpected _)

theorem takeName (h : c₀.Behind loose c) : Leaves c₀ false c.takeName := by
  unfold Cursor.takeName
  split
  next hs => exact .ok (h.take? hs)
  next => exact .error (h.unexpected _)

theorem takeVariable (h : c₀.Behind loose c) : Leaves c₀ false c.takeVariable := by
  unfold Cursor.takeVariable
  split
  next hs => exact .ok (h.take? hs)
  next => exact .error (h.unexpected _)

theorem takeNames {c : Cursor} {loose : Bool} (h : c₀.Behind loose c) :
    Leaves c₀ false c.takeNames := by
  unfold Cursor.takeNames
  refine .bind h.takeName fun ⟨name, c₁, h₁⟩ hc₁ => ?_
  dsimp only
  split
  next _ c₂ h₂ hs => exact .bind (takeNames (hc₁.take? hs)) fun _ hc₃ => .ok hc₃
  next => exact .ok hc₁
termination_by c.size

end Cursor.Behind

namespace TypeText

variable {c c₀ : Cursor} {loose : Bool}

theorem leaves_readIntersection {c : Cursor} {loose : Bool} (h : c₀.Behind loose c) :
    Leaves c₀ false (readIntersection c) := by
  unfold readIntersection
  refine .bind h.takeName fun ⟨name, c₁, h₁⟩ hc₁ => ?_
  dsimp only
  split
  next _ c₂ h₂ hs => exact .bind (leaves_readIntersection (hc₁.take? hs)) fun _ hc₃ => .ok hc₃
  next => exact .ok hc₁
termination_by c.size

theorem leaves_readPart (h : c₀.Behind loose c) : Leaves c₀ false (readPart c) := by
  unfold readPart
  split
  next hs =>
    refine .bind (leaves_readIntersection (h.take? hs)) fun _ hc₂ => ?_
    exact .bind (hc₂.take _) fun _ hc₃ => .ok hc₃
  next =>
    split
    next hs => exact .ok (h.take? hs)
    next => exact .error (h.unexpected _)

/-- The mark between two parts of a type is one token ahead. -/
theorem behind_joint? (h : c₀.Behind loose c) {s : Step 1 String c} (hs : joint? c = some s) :
    c₀.Behind false s.rest := by
  unfold joint? at hs
  split at hs
  next htake =>
    obtain rfl := Option.some.inj hs
    exact h.take? htake
  next =>
    split at hs
    next htake =>
      split at hs
      next => cases hs
      next =>
        obtain rfl := Option.some.inj hs
        exact h.take? htake
    next => cases hs

theorem leaves_readParts {c : Cursor} {loose : Bool} (h : c₀.Behind loose c) :
    Leaves c₀ false (readParts c) := by
  unfold readParts
  refine .bind (leaves_readPart h) fun ⟨part, c₁, h₁⟩ hc₁ => ?_
  dsimp only
  split
  next _ c₂ h₂ hs => exact .bind (leaves_readParts (behind_joint? hc₁ hs)) fun _ hc₃ => .ok hc₃
  next => exact .ok hc₁
termination_by c.size

/-- A type is left behind its last token, and what refuses it is a token ahead or the end. -/
theorem leaves_read (h : c₀.Behind loose c) : Leaves c₀ false (read c) := by
  unfold read
  split
  next hs => exact .bind (leaves_readParts (h.take? hs)) fun _ hc₂ => .ok hc₂
  next => exact leaves_readParts h

end TypeText

namespace Expr

variable {c c₀ : Cursor} {loose : Bool}

/-- What refuses an expression is one of the tokens that were looked at, or the end. -/
theorem blames_rawLength (eof : Token) (closers : List TokenKind) (ts : List Token) :
    Blames ⟨ts, eof⟩ (fun _ => True) (rawLength eof closers ts) := by
  induction ts generalizing closers with
  | nil =>
    unfold rawLength
    split
    next => trivial
    next => exact ParseError.shows_ended ⟨[], eof⟩ _
  | cons t ts ih =>
    have hnext (closers : List TokenKind) : Blames ⟨t :: ts, eof⟩ (fun _ => True)
        (rawLength eof closers ts) :=
      (ih closers).of_behind (.cons t ts eof)
    unfold rawLength
    split
    next => trivial
    next =>
      split
      next => exact (hnext _).map
      next =>
        split
        next => exact (hnext _).map
        next =>
          split
          next => trivial
          next =>
            split
            next =>
              exact ParseError.shows_unbalanced (Cursor.mem_lexemes_of_ahead List.mem_cons_self) _
            next => exact (hnext _).map

theorem leaves_readRaw (h : c₀.Behind loose c) : Leaves c₀ false (readRaw c) := by
  unfold readRaw
  refine .behind ((blames_rawLength c.eof [] c.ahead).of_behind h) fun n _ => ?_
  split
  next s hs =>
    split at hs
    next => cases hs
    next => exact .ok (h.takeMore? hs)
  next => exact .error (h.unexpected _)

/-- A literal of one token, or of two with a sign, leaves the cursor behind it. -/
theorem behind_scalar? (h : c₀.Behind loose c) {s : Step 1 Expr c} (hs : scalar? c = some s) :
    c₀.Behind false s.rest := by
  unfold scalar? at hs
  split at hs
  next => cases hs
  next t c₁ h₁ ht =>
    have hc₁ : c₀.Behind false c₁ := h.next? ht
    dsimp only at hs
    split at hs
    next =>
      split at hs
      next => cases hs
      next =>
        obtain rfl := Option.some.inj hs
        exact hc₁
    next =>
      obtain ⟨n, -, rfl⟩ := Option.map_eq_some_iff.1 hs
      exact hc₁
    next =>
      obtain rfl := Option.some.inj hs
      exact hc₁
    next =>
      obtain rfl := Option.some.inj hs
      exact hc₁
    next =>
      obtain ⟨u, hu, hs⟩ := Option.bind_eq_some_iff.1 hs
      obtain ⟨e, -, rfl⟩ := Option.map_eq_some_iff.1 hs
      exact hc₁.next? hu
    next => cases hs

theorem behind_arrayOpening? (h : c₀.Behind loose c) {s : Step 1 (TokenKind × Bool) c}
    (hs : arrayOpening? c = some s) : c₀.Behind false s.rest := by
  unfold arrayOpening? at hs
  split at hs
  next ht =>
    obtain rfl := Option.some.inj hs
    exact h.take? ht
  next =>
    obtain ⟨t, ht, hs⟩ := Option.bind_eq_some_iff.1 hs
    obtain ⟨u, hu, rfl⟩ := Option.map_eq_some_iff.1 hs
    exact (h.takeWord? ht).take? hu

mutual

theorem leaves_read {c : Cursor} {loose : Bool} (h : c₀.Behind loose c) :
    Leaves c₀ false (read c) := by
  unfold read
  refine .behind (blames_readLiteral h) fun literal hliteral => ?_
  split
  next e c₁ h₁ =>
    split
    next => exact .ok (hliteral _ rfl)
    next => exact leaves_readRaw h
  next => exact leaves_readRaw h
termination_by 4 * c.size + 1

theorem blames_readLiteral {c : Cursor} {loose : Bool} (h : c₀.Behind loose c) :
    Blames c₀ (fun literal => ∀ s, literal = some s → c₀.Behind false s.rest) (readLiteral c) := by
  unfold readLiteral
  split
  next => exact fun s hs => behind_scalar? h hs
  next closer long c₁ h₁ hopening =>
    have hc₁ : c₀.Behind false c₁ := behind_arrayOpening? h hopening
    refine Blames.bind (leaves_readItems closer hc₁) fun s hs => ?_
    rintro _ ⟨⟩
    exact hs
termination_by 4 * c.size + 0

/-- Items leave the cursor behind their closer, and an error shows what is ahead. -/
theorem leaves_readItems {c : Cursor} {loose : Bool} (closer : TokenKind) (h : c₀.Behind loose c) :
    Leaves c₀ false (readItems closer c) := by
  unfold readItems
  dsimp only
  split
  next hs => exact .ok (h.take? hs)
  next =>
    split
    next => exact .error (h.unexpected _)
    next =>
      refine .bind (leaves_readItem h) fun ⟨item, c₁, h₁⟩ hc₁ => ?_
      dsimp only
      split
      next _ c₂ h₂ hs =>
        have hc₂ : c₀.Behind false c₂ := hc₁.take? hs
        have hprogress := c₂.sameLineComment.progress
        exact .bind (leaves_readItems closer hc₂.sameLineComment) fun _ hc₄ => .ok hc₄
      next => exact .bind (hc₁.take _) fun _ hc₂ => .ok hc₂
termination_by 4 * c.size + 3

/-- An item leaves the cursor behind it, and an error shows what is ahead. -/
theorem leaves_readItem {c : Cursor} {loose : Bool} (h : c₀.Behind loose c) :
    Leaves c₀ false (readItem c) := by
  unfold readItem
  split
  next _ c₁ h₁ hs => exact .bind (leaves_read (h.take? hs)) fun _ hc₂ => .ok hc₂
  next =>
    have hc₁ := h.accept .ampersand
    generalize c.accept .ampersand = step at hc₁ ⊢
    obtain ⟨byRef, c₁, h₁⟩ := step
    refine .bind (leaves_read hc₁) fun ⟨first, c₂, h₂⟩ hc₂ => ?_
    dsimp only
    split
    next _ c₃ h₃ hs =>
      have hc₄ : c₀.Behind false (c₃.accept .ampersand).rest := by
        split at hs
        next => cases hs
        next => exact (hc₂.take? hs).accept _
      generalize c₃.accept .ampersand = step at hc₄ ⊢
      obtain ⟨byRef', c₄, h₄⟩ := step
      exact .bind (leaves_read hc₄) fun _ hc₅ => .ok hc₅
    next => exact .ok hc₂
termination_by 4 * c.size + 2

end

end Expr

namespace Extent

variable {eof : Token}

/-- What refuses a group is one of the tokens in it, or the end. -/
theorem blames_groupRest (closer : TokenKind) (outer : List TokenKind) (ts : List Token) :
    Blames ⟨ts, eof⟩ (fun _ => True) (groupRest eof closer outer ts) := by
  induction ts generalizing closer outer with
  | nil => exact ParseError.shows_ended ⟨[], eof⟩ _
  | cons t ts ih =>
    have hnext (closer : TokenKind) (outer : List TokenKind) :
        Blames ⟨t :: ts, eof⟩ (fun _ => True) (groupRest eof closer outer ts) :=
      (ih closer outer).of_behind (.cons t ts eof)
    unfold groupRest
    split
    next => exact (hnext _ _).map
    next =>
      split
      next => exact (hnext _ _).map
      next =>
        split
        next => exact ParseError.shows_unbalanced (Cursor.mem_lexemes_of_ahead List.mem_cons_self) _
        next =>
          split
          next => trivial
          next => exact (hnext _ _).map

/-- What refuses a statement is one of its tokens, or the end. -/
theorem blames_rest (shape : Shape) (closers : List TokenKind) (blocks : Nat) (isName : Bool)
    (ts : List Token) :
    Blames ⟨ts, eof⟩ (fun _ => True) (rest eof shape closers blocks isName ts) := by
  induction hn : ts.length using Nat.strongRecOn generalizing closers blocks isName ts with
  | ind n ih =>
    subst hn
    cases ts with
    | nil =>
      unfold rest
      exact ParseError.shows_ended ⟨[], eof⟩ _
    | cons t ts =>
      have ht : t.toLexeme ∈ Cursor.lexemes ⟨t :: ts, eof⟩ :=
        Cursor.mem_lexemes_of_ahead List.mem_cons_self
      have hnext (closers : List TokenKind) (blocks : Nat) (isName : Bool) (n : Nat) :
          Blames ⟨t :: ts, eof⟩ (fun _ => True)
            (rest eof shape closers blocks isName (ts.drop n)) :=
        (ih _ (length_drop_le_of_le (Nat.lt_succ_self _)) closers blocks isName _ rfl).of_behind
          ((Cursor.Behind.cons t ts eof).skip n)
      have hbehind (closers : List TokenKind) (blocks : Nat) (isName : Bool) :
          Blames ⟨t :: ts, eof⟩ (fun _ => True) (rest eof shape closers blocks isName ts) :=
        hnext closers blocks isName 0
      have hgroup (closer : TokenKind) (outer : List TokenKind) :
          Blames ⟨t :: ts, eof⟩ (fun _ => True) (groupRest eof closer outer ts.tail) := by
        rw [← List.drop_one]
        exact (blames_groupRest closer outer _).of_behind ((Cursor.Behind.cons t ts eof).skip 1)
      unfold rest
      dsimp only
      split
      next => exact (hbehind _ _ _).map
      next =>
        split
        next =>
          split
          next => exact ParseError.shows_unexpected ht _
          next =>
            split
            next => exact ParseError.shows_unbalanced ht _
            next =>
              split
              next => trivial
              next => exact (hbehind _ _ _).map
        next =>
          split
          next =>
            split
            next => exact (hbehind _ _ _).map
            next => trivial
          next =>
            split
            next => trivial
            next =>
              split
              next =>
                refine .bind (hgroup _ _) fun n _ => ?_
                split
                next => exact (hnext _ _ _ _).map
                next => exact (hnext _ _ _ _).map
              next =>
                split
                next => exact (hbehind _ _ _).map
                next => exact (hbehind _ _ _).map

theorem blames_statement (c : Cursor) : Blames c (fun _ => True) (statement c) := by
  unfold statement
  dsimp only
  split
  next => exact blames_rest _ _ _ _ c.ahead
  next => trivial

end Extent

theorem Cursor.Behind.takeStatement {c c₀ : Cursor} {loose : Bool} (h : c₀.Behind loose c) :
    Leaves c₀ false c.takeStatement := by
  unfold Cursor.takeStatement
  split
  next => exact .error (h.unexpected _)
  next =>
    refine .behind ((Extent.blames_statement c).of_behind h) fun n _ => ?_
    split
    next s hs => exact .ok (h.takeMore? hs)
    next => exact .error (h.unexpected _)

namespace Fragment

variable {c₀ : Cursor}

/-- Statements are left before the brace behind them or at the end, perhaps without some
comments. -/
theorem leaves_split {c : Cursor} {loose : Bool} (braced isFirst : Bool) (h : c₀.Behind loose c) :
    Leaves c₀ true (split braced isFirst c) := by
  unfold split
  split
  next => exact .error (h.unexpected _)
  next =>
    split
    next => exact .ok h.slacken
    next =>
      refine .bind h.takeStatement fun ⟨ts, c₁, h₁⟩ hc₁ => ?_
      have hc₂ := hc₁.sameLineComment
      dsimp only at hc₂ ⊢
      generalize c₁.sameLineComment = step at hc₂ ⊢
      obtain ⟨comment, c₂, h₂⟩ := step
      exact .bind (leaves_split braced false hc₂) fun _ hc₃ => .ok hc₃
termination_by c.size

theorem leaves_block {c : Cursor} {loose : Bool} (h : c₀.Behind loose c) :
    Leaves c₀ false (block c) := by
  unfold block
  refine .bind (h.take _) fun _ hc₁ => ?_
  refine .bind (leaves_split true true hc₁) fun _ hc₂ => ?_
  exact .bind (hc₂.take _) fun _ hc₃ => .ok hc₃

end Fragment

end ClassEdit
