import ClassEdit.Fragment.Split
import ClassEdit.Proofs.Fragment.Extent
import ClassEdit.Proofs.Widening

/-!
Statements that are kept as text, read from two sources of which one has a carriage return before
each newline. How far a statement goes depends on the kinds of the tokens and on the words among
them. Main statement: a block is cut into the same statements in both sources.
-/

namespace ClassEdit

namespace Token.Chain

variable {cut : Bool} {ts ts' : List Token}

theorem drop (h : Chain cut ts ts') (n : Nat) : ∃ cut, Chain cut (ts.drop n) (ts'.drop n) := by
  induction n generalizing cut ts ts' with
  | zero => exact ⟨cut, h⟩
  | succ n ih =>
      cases h with
      | nil => exact ⟨cut, .nil cut⟩
      | cons _ hts => exact ih hts

theorem any (h : Chain cut ts ts') {p : Token → Bool}
    (hp : ∀ {cut t t'}, Token.Widened cut t t' → p t' = p t) : ts'.any p = ts.any p := by
  induction h with
  | nil => rfl
  | cons ht _ ih => rw [List.any_cons, List.any_cons, hp ht, ih]

theorem alike (h : Chain cut ts ts') : Alike ts ts' := by
  induction h with
  | nil => exact .nil
  | cons ht _ ih => exact .cons ht.same ih

end Token.Chain

namespace Extent

variable {cut : Bool} {ts ts' : List Token}

theorem takeWhile_isOutside (h : Token.Chain cut ts ts') :
    (ts'.takeWhile isOutside).length = (ts.takeWhile isOutside).length := by
  induction h with
  | nil => rfl
  | cons ht _ ih =>
      rw [List.takeWhile_cons, List.takeWhile_cons, isOutside, isOutside, ht.kind]
      split
      next => exact congrArg (· + 1) ih
      next => rfl

theorem statement_widened {c c' : Cursor} (h : c.Alike c') :
    Agree Eq (statement c) (statement c') := by
  obtain ⟨cut, h⟩ := h
  have hlength := takeWhile_isOutside h.ahead
  unfold statement
  simp only [List.isEmpty_iff_length_eq_zero, hlength, shapeOf_alike h.ahead.alike]
  split
  next => exact rest_alike _ _ _ _ h.ahead.alike
  next => rfl

end Extent

namespace Cursor

/-- The tokens of a statement, and behind them no carriage return that was taken before. -/
theorem Widened.takeStatement {cut : Bool} {c c' : Cursor} (h : Widened cut c c') :
    Agree (fun s s' => Token.Chain cut s.value s'.value ∧ Widened false s.rest s'.rest)
      c.takeStatement
      c'.takeStatement := by
  unfold Cursor.takeStatement
  rw [Alike.isEmpty ⟨cut, h⟩]
  split
  next => trivial
  next =>
    refine Agree.bind (Extent.statement_widened ⟨cut, h⟩) ?_
    rintro n _ rfl
    have hmore := h.takeMore? (n - 1)
    generalize c.takeMore? (n - 1) = s, c'.takeMore? (n - 1) = s' at hmore
    cases hmore with
    | none => trivial
    | some hs => exact hs

end Cursor

namespace Fragment

open Cursor (Widened)

theorem closing_widened {cut cut' : Bool} {ls ls' : List Lexeme} (isFirst : Bool)
    (h : Lexeme.Chain cut ls ls' cut') :
    closing isFirst ls' = closing isFirst ls := by
  cases h with
  | nil => rfl
  | cons hl hls =>
      rw [closing, closing, Lexeme.Chain.excerpt_eq (.cons hl hls), hl.followsBlankLine]

/-- A statement and the comment behind it. -/
theorem excerpt_widened {cut mid : Bool} {ts ts' : List Token} {ls ls' : List Lexeme}
    (h : Token.Chain cut ts ts') (hls : Lexeme.Chain false ls ls' mid) :
    excerpt (ts'.flatMap Token.pieces ++ ls') = excerpt (ts.flatMap Token.pieces ++ ls) := by
  cases h with
  | nil => exact hls.excerpt_eq
  | cons ht hts => exact ((ht.pieces.append hts.pieces).append hls).excerpt_eq

/-- Code is cut into the same statements. -/
theorem split_widened (braced isFirst : Bool) {c c' : Cursor} (h : c.Alike c') :
    Agrees Eq (split braced isFirst c) (split braced isFirst c') := by
  have ⟨cut, hcut⟩ := h
  obtain ⟨mid, hcomments, -⟩ := hcut.head.token
  rw [split, split]
  simp only [h.isEmpty, h.isAt, h.followsBlankLine]
  split
  next => trivial
  next =>
    split
    next => exact ⟨(closing_widened isFirst hcomments).symm, h⟩
    next =>
      refine Agree.bind hcut.takeStatement ?_
      rintro ⟨ts, c₁, h₁⟩ ⟨ts', c₁', h₁'⟩ ⟨hts, hc₁⟩
      obtain ⟨mid, hcomment, hc₂⟩ := hc₁.sameLineComment
      have h₂ := c₁.sameLineComment.progress
      refine (split_widened braced false ⟨mid, hc₂⟩).bind ?_
      rintro more c₃ h₃ _ c₃' h₃' rfl hc₃
      refine ⟨?_, hc₃⟩
      simp [excerpt_widened hts hcomment]
termination_by c.size

theorem block_widened {c c' : Cursor} (h : c.Alike c') : Agrees Eq (block c) (block c') := by
  unfold block
  refine (h.take .leftBrace).bind ?_
  rintro _ c₁ h₁ _ c₁' h₁' - hc₁
  refine (split_widened true true hc₁).bind ?_
  rintro stmts c₂ h₂ _ c₂' h₂' rfl hc₂
  refine (hc₂.take .rightBrace).bind ?_
  rintro _ c₃ h₃ _ c₃' h₃' - hc₃
  exact ⟨rfl, hc₃⟩

end Fragment

end ClassEdit
