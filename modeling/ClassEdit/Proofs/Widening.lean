import ClassEdit.Proofs.Reading
import ClassEdit.Proofs.Token.Widening

/-!
Reading two sources of which one has a carriage return before each newline. The cursors stand before
the same tokens, so a reader takes the same number of them from both, finds related things, or fails
on both. Main statements: the readers of single tokens do so.
-/

namespace ClassEdit

namespace Cursor

/-- The second cursor stands before the tokens of the first, with carriage returns. The flag says
whether the carriage return of the next newline was taken before. -/
inductive Widened : Bool → Cursor → Cursor → Prop where
  | eof {cut : Bool} {e e' : Token} (h : e.Widened cut e') : Widened cut ⟨[], e⟩ ⟨[], e'⟩
  | push {cut : Bool} {t t' : Token} {c c' : Cursor} (ht : t.Widened cut t')
      (hc : Widened false c c') :
      Widened cut (c.push t) (c'.push t')

def Alike (c c' : Cursor) : Prop := ∃ cut, Widened cut c c'

end Cursor

/-- Related things were found, and the readers stopped at the same place. -/
def Step.Alike {k k' : Nat} {α β : Type} {c c' : Cursor} (R : α → β → Prop) (s : Step k α c)
    (s' : Step k' β c') : Prop :=
  R s.value s'.value ∧ s.rest.Alike s'.rest

/-- Both readers find related things and stop at the same place, or both fail. -/
abbrev Agrees {k k' : Nat} {α β : Type} {c c' : Cursor} (R : α → β → Prop) :
    Except ParseError (Step k α c) → Except ParseError (Step k' β c') → Prop :=
  Agree (Step.Alike R)

/-- Both find related things and stop at the same place, or neither finds anything. -/
abbrev Finds {k k' : Nat} {α β : Type} {c c' : Cursor} (R : α → β → Prop) :
    Option (Step k α c) → Option (Step k' β c') → Prop :=
  Option.Rel (Step.Alike R)

section Runs

variable {k k' : Nat} {α α' β β' : Type} {c c' d d' : Cursor} {R : α → α' → Prop}

/-- Readers that agree and go on with readers that agree. -/
theorem Agrees.bind {S : β → β' → Prop} {j j' : Nat} {x : Except ParseError (Step k α c)}
    {x' : Except ParseError (Step k' α' c')} {g : Step k α c → Except ParseError (Step j β d)}
    {g' : Step k' α' c' → Except ParseError (Step j' β' d')} (hx : Agrees R x x')
    (hg : ∀ a c₁ h a' c₁' h', R a a' → c₁.Alike c₁' → Agrees S (g ⟨a, c₁, h⟩) (g' ⟨a', c₁', h'⟩)) :
    Agrees S (x >>= g) (x' >>= g') :=
  Agree.bind hx fun s s' h => hg s.value s.rest s.progress s'.value s'.rest s'.progress h.1 h.2

theorem Finds.cases {x : Option (Step k α c)} {x' : Option (Step k' α' c')} (h : Finds R x x') :
    (x = none ∧ x' = none) ∨ ∃ a c₁ h a' c₁' h',
      x = some ⟨a, c₁, h⟩ ∧ x' = some ⟨a', c₁', h'⟩ ∧ R a a' ∧ c₁.Alike c₁' := by
  cases h with
  | none => exact .inl ⟨rfl, rfl⟩
  | @some s s' h => exact .inr ⟨_, _, s.progress, _, _, s'.progress, rfl, rfl, h⟩

end Runs

namespace Cursor

/-- The cursors before the tokens of two sources. -/
theorem widened_ofTokens {cut : Bool} {t t' : Token} {ts ts' : List Token}
    (h : Token.Chain cut (t :: ts) (t' :: ts')) (d d' : Token) :
    Widened cut ⟨(t :: ts).dropLast, (t :: ts).getLast?.getD d⟩
      ⟨(t' :: ts').dropLast, (t' :: ts').getLast?.getD d'⟩ := by
  induction ts generalizing cut t t' ts' with
  | nil =>
      cases h with
      | cons ht hts =>
          cases hts
          exact .eof ht
  | cons u us ih =>
      cases h with
      | cons ht hts =>
          cases hts with
          | cons hu hus => exact .push ht (ih (.cons hu hus))

/-- Lexemes that go together make cursors that do. -/
theorem alike_ofLexemes {ls ls' : List Lexeme} (h : Lexeme.Chain false ls ls' false) :
    (ofLexemes ls).Alike (ofLexemes ls') := by
  have htokens := Token.chain_ofLexemes (.nil false) h
  unfold ofLexemes
  generalize Token.ofLexemes [] ls = ts, Token.ofLexemes [] ls' = ts' at htokens
  cases htokens with
  | nil =>
      refine ⟨false, .eof ⟨⟨false, .nil false, rfl, rfl, rfl, rfl, nofun, nofun, ?_, ?_⟩, ?_⟩⟩
      · simp
      · simp [Lexeme.source]
      · simp
  | cons ht hts => exact ⟨false, widened_ofTokens (.cons ht hts) _ _⟩

namespace Widened

variable {cut : Bool} {c c' : Cursor}

theorem head (h : Widened cut c c') : c.head.Widened cut c'.head := by
  cases h with
  | eof h => exact h
  | push ht _ => exact ht

theorem size (h : Widened cut c c') : c'.size = c.size := by
  induction h with
  | eof => rfl
  | push _ _ ih => exact congrArg (· + 1) ih

/-- The tokens ahead, and the end. -/
theorem ahead (h : Widened cut c c') : Token.Chain cut c.ahead c'.ahead := by
  induction h with
  | eof => exact .nil _
  | push ht _ ih => exact .cons ht ih

theorem skip (h : Widened false c c') (n : Nat) : Widened false (c.skip n) (c'.skip n) := by
  induction n generalizing c c' with
  | zero => exact h
  | succ n ih =>
      cases h with
      | eof h => exact .eof h
      | push _ hc => exact ih hc

end Widened

namespace Alike

variable {c c' : Cursor}

theorem head (h : c.Alike c') : ∃ cut, c.head.Widened cut c'.head := by
  obtain ⟨cut, h⟩ := h
  exact ⟨cut, h.head⟩

theorem skip (h : c.Alike c') (n : Nat) : (c.skip n).Alike (c'.skip n) := by
  obtain ⟨cut, h⟩ := h
  cases n with
  | zero => exact ⟨cut, h⟩
  | succ n =>
      cases h with
      | eof h => exact ⟨cut, .eof h⟩
      | push _ hc => exact ⟨false, hc.skip n⟩

theorem size (h : c.Alike c') : c'.size = c.size := by
  obtain ⟨cut, h⟩ := h
  exact h.size

theorem isEmpty (h : c.Alike c') : c'.ahead.isEmpty = c.ahead.isEmpty := by
  obtain ⟨cut, h⟩ := h
  cases h <;> rfl

theorem kind (h : c.Alike c') : c'.head.kind = c.head.kind := by
  obtain ⟨cut, h⟩ := h.head
  exact h.kind

theorem isAt (h : c.Alike c') (k : TokenKind) : c'.isAt k = c.isAt k := by
  rw [Cursor.isAt, Cursor.isAt, h.kind]

theorem isAtWord (h : c.Alike c') (w : String) : c'.isAtWord w = c.isAtWord w := by
  obtain ⟨cut, h⟩ := h.head
  exact h.isWord w

theorem second (h : c.Alike c') : c'.second.kind = c.second.kind := by
  obtain ⟨cut, h⟩ := h
  cases h with
  | eof h => exact h.kind
  | push _ hc => exact Alike.kind ⟨_, hc⟩

theorem commentTexts (h : c.Alike c') :
    c'.head.comments.map Lexeme.commentText = c.head.comments.map Lexeme.commentText := by
  obtain ⟨cut, h⟩ := h.head
  exact h.commentTexts

theorem isOnNewLine (h : c.Alike c') : c'.head.isOnNewLine = c.head.isOnNewLine := by
  obtain ⟨cut, h⟩ := h.head
  exact h.isOnNewLine

theorem followsBlankLine (h : c.Alike c') :
    c'.head.first.followsBlankLine = c.head.first.followsBlankLine := by
  obtain ⟨cut, h⟩ := h.head
  exact h.followsBlankLine

theorem next? (h : c.Alike c') : Finds (fun t t' => ∃ cut, t.Widened cut t') c.next? c'.next? := by
  obtain ⟨cut, h⟩ := h
  cases h with
  | eof => exact .none
  | push ht hc => exact .some ⟨⟨_, ht⟩, _, hc⟩

theorem take? (h : c.Alike c') (k : TokenKind) :
    Finds (fun t t' => t.kind = k ∧ ∃ cut, t.Widened cut t') (c.take? k) (c'.take? k) := by
  obtain ⟨cut, h⟩ := h
  cases h with
  | eof => exact .none
  | push ht hc =>
      rw [take?_push, take?_push, ht.kind]
      split
      next hk => exact .some ⟨⟨hk, _, ht⟩, _, hc⟩
      next => exact .none

theorem takeWord? (h : c.Alike c') (w : String) :
    Finds (fun _ _ => True) (c.takeWord? w) (c'.takeWord? w) := by
  obtain ⟨cut, h⟩ := h
  cases h with
  | eof => exact .none
  | push ht hc =>
      rw [takeWord?_push, takeWord?_push, ht.isWord]
      split
      next => exact .some ⟨trivial, _, hc⟩
      next => exact .none

theorem take (h : c.Alike c') (k : TokenKind) :
    Agrees (fun t t' => t.kind = k ∧ ∃ cut, t.Widened cut t') (c.take k) (c'.take k) := by
  unfold Cursor.take
  obtain ⟨hs, hs'⟩ | ⟨t, c₁, _, t', c₁', _, hs, hs', ht, hc₁⟩ := (h.take? k).cases <;> rw [hs, hs']
  · trivial
  · exact ⟨ht, hc₁⟩

theorem takeWord (h : c.Alike c') (w : String) :
    Agrees (fun _ _ => True) (c.takeWord w) (c'.takeWord w) := by
  unfold Cursor.takeWord
  obtain ⟨hs, hs'⟩ | ⟨t, c₁, _, t', c₁', _, hs, hs', ht, hc₁⟩ :=
    (h.takeWord? w).cases <;> rw [hs, hs']
  · trivial
  · exact ⟨ht, hc₁⟩

theorem takeName (h : c.Alike c') : Agrees Eq c.takeName c'.takeName := by
  unfold Cursor.takeName
  obtain ⟨hs, hs'⟩ | ⟨t, c₁, _, t', c₁', _, hs, hs', ⟨hk, cut, ht⟩, hc₁⟩ :=
    (h.take? .word).cases <;> rw [hs, hs']
  · trivial
  · exact ⟨(ht.string_eq (by rw [hk]; rfl)).symm, hc₁⟩

theorem takeVariable (h : c.Alike c') : Agrees Eq c.takeVariable c'.takeVariable := by
  unfold Cursor.takeVariable
  obtain ⟨hs, hs'⟩ | ⟨t, c₁, _, t', c₁', _, hs, hs', ⟨hk, cut, ht⟩, hc₁⟩ :=
    (h.take? .var).cases <;> rw [hs, hs']
  · trivial
  · exact ⟨by rw [ht.text_eq (by rw [hk]; rfl)], hc₁⟩

theorem accept (h : c.Alike c') (k : TokenKind) : Step.Alike Eq (c.accept k) (c'.accept k) := by
  unfold Cursor.accept
  obtain ⟨hs, hs'⟩ | ⟨t, c₁, _, t', c₁', _, hs, hs', -, hc₁⟩ := (h.take? k).cases <;> rw [hs, hs']
  · exact ⟨rfl, h⟩
  · exact ⟨rfl, hc₁⟩

theorem takeNames (h : c.Alike c') : Agrees Eq c.takeNames c'.takeNames := by
  induction c using Cursor.takeNames.induct generalizing c' with
  | case1 c ih =>
      rw [Cursor.takeNames, Cursor.takeNames]
      refine h.takeName.bind ?_
      rintro name c₁ h₁ _ c₁' h₁' rfl hc₁
      obtain ⟨hs, hs'⟩ | ⟨_, c₂, h₂, _, c₂', h₂', hs, hs', -, hc₂⟩ := (hc₁.take? .comma).cases <;>
        simp only [hs, hs']
      · exact ⟨rfl, hc₁⟩
      · refine (ih c₁ h₁ c₂ h₂ hc₂).bind ?_
        rintro names c₃ h₃ _ c₃' h₃' rfl hc₃
        exact ⟨rfl, hc₃⟩

end Alike

namespace Widened

variable {cut : Bool} {c c' : Cursor}

theorem withComments (h : Widened cut c c') {cut' : Bool} {ls ls' : List Lexeme}
    (hls : ∃ mid, Lexeme.Chain cut' ls ls' mid ∧
      c.head.toLexeme.Widened mid false c'.head.toLexeme) :
    Widened cut' (c.withComments ls) (c'.withComments ls') := by
  cases h with
  | eof h => exact .eof ⟨hls, h.notComment⟩
  | push ht hc => exact .push ⟨hls, ht.notComment⟩ hc

/-- The comment, and the comments before the next token without it. -/
theorem sameLineComment (h : Widened cut c c') : ∃ mid,
    Lexeme.Chain cut c.sameLineComment.value.toList c'.sameLineComment.value.toList mid ∧
      Widened mid c.sameLineComment.rest c'.sameLineComment.rest := by
  obtain ⟨mid, hcomments, ht⟩ := h.head.token
  unfold Cursor.sameLineComment
  generalize c.head.comments = ls, c'.head.comments = ls' at hcomments
  cases hcomments with
  | nil => exact ⟨_, .nil _, h⟩
  | @cons _ cut' _ l l' ls ls' hl hls =>
      simp only [hl.isOnNewLine]
      split
      next => exact ⟨_, .nil _, h⟩
      next => exact ⟨_, .cons hl (.nil _), h.withComments ⟨mid, hls, ht⟩⟩

end Widened

namespace Alike

variable {c c' : Cursor}

/-- A comment on the same line is found in both sources or in neither, with the same text. -/
theorem sameLineComment (h : c.Alike c') :
    Step.Alike (fun l l' => l'.map Lexeme.commentText = l.map Lexeme.commentText) c.sameLineComment
      c'.sameLineComment := by
  obtain ⟨cut, h⟩ := h
  obtain ⟨mid, hcomment, hrest⟩ := h.sameLineComment
  refine ⟨?_, mid, hrest⟩
  generalize c.sameLineComment.value = l, c'.sameLineComment.value = l' at hcomment
  cases l with
  | none => cases l' with
    | none => rfl
    | some l' => cases hcomment
  | some l => cases l' with
    | none => cases hcomment
    | some l' => exact congrArg List.head? hcomment.commentTexts

theorem withoutComments (h : c.Alike c') : (c.withComments []).Alike (c'.withComments []) := by
  obtain ⟨cut, h⟩ := h
  obtain ⟨mid, -, ht⟩ := h.head.token
  exact ⟨_, h.withComments ⟨mid, .nil mid, ht⟩⟩

end Alike

namespace Widened

variable {cut : Bool} {c c' : Cursor}

/-- The next tokens, and behind them no carriage return that was taken before. -/
theorem takeMore? (h : Widened cut c c') (n : Nat) :
    Option.Rel (fun s s' => Token.Chain cut s.value s'.value ∧ Widened false s.rest s'.rest)
      (c.takeMore? n) (c'.takeMore? n) := by
  cases h with
  | eof => exact .none
  | push ht hc => exact .some ⟨.cons ht (hc.ahead.take n), hc.skip n⟩

end Widened

theorem Alike.takeMore? {c c' : Cursor} (h : c.Alike c') (n : Nat) :
    Finds (fun ts ts' => ∃ cut, Token.Chain cut ts ts') (c.takeMore? n) (c'.takeMore? n) := by
  obtain ⟨cut, h⟩ := h
  have hmore := h.takeMore? n
  generalize c.takeMore? n = s, c'.takeMore? n = s' at hmore
  cases hmore with
  | none => exact .none
  | some hs => exact .some ⟨⟨cut, hs.1⟩, false, hs.2⟩

end Cursor

end ClassEdit
