import ClassEdit.Proofs.Class.Stopping
import ClassEdit.Proofs.Token.Comments
import ClassEdit.Proofs.Token.Places

/-!
Where the errors of sources point. What cuts a source into lexemes refuses a part of it, and what
reads the lexemes blames one of them. Main statement: the error of every source that is refused, as
a file, as an expression or as a fragment, points into it.
-/

namespace ClassEdit

variable {c c₀ : Cursor} {loose : Bool}

namespace Stmt

theorem leaves_readRaw (trivia : Trivia) (h : c₀.Behind loose c) :
    Leaves c₀ true (readRaw trivia c) := by
  unfold readRaw
  exact .bind h.takeStatement fun _ hc₁ => .ok hc₁.sameLineComment

/-- A statement is left behind its last token, and what refuses it is a token ahead or the end. -/
theorem leaves_readOrdinary (h : c₀.Behind loose c) : Leaves c₀ true (readOrdinary c) := by
  unfold readOrdinary
  refine .bind h.takeAttributes fun ⟨attributes, c₁, h₁⟩ hc₁ => ?_
  dsimp only
  split
  next => exact .bind (Import.leaves_read _ hc₁) fun _ hc₂ => .ok hc₂
  next =>
    split
    next => exact .bind (ClassDecl.leaves_read _ hc₁) fun _ hc₂ => .ok hc₂
    next => exact .bind (leaves_readRaw _ hc₁) fun _ hc₂ => .ok hc₂

theorem leaves_readOutside (h : c₀.Behind loose c) : Leaves c₀ false (readOutside c) := by
  unfold readOutside
  refine .bind (h.take _) fun ⟨_, c₁, h₁⟩ hc₁ => ?_
  dsimp only
  split
  next hs => exact .ok (hc₁.take? hs)
  next => exact .ok hc₁

/-- The statements of a namespace are left where they end, and what refuses them is ahead. -/
theorem leaves_readInner {c : Cursor} {loose : Bool} (braced : Bool) (h : c₀.Behind loose c) :
    Leaves c₀ true (readInner braced c) := by
  unfold readInner
  dsimp only
  split
  next =>
    split
    next => exact .error (h.unexpected _)
    next => exact .ok (h.withComments [])
  next =>
    split
    next => exact .ok h.slacken
    next =>
      split
      next =>
        split
        next => exact .error (h.unexpected _)
        next => exact .ok h.slacken
      next =>
        split
        next =>
          refine .bind (leaves_readOutside h) fun ⟨text, c₁, h₁⟩ hc₁ => ?_
          dsimp only
          split
          next =>
            split
            next => exact .error (Cursor.Behind.unexpected hc₁ _)
            next => exact .ok (Cursor.Behind.slacken hc₁)
          next =>
            refine .bind (Cursor.Behind.take hc₁ _) fun ⟨_, c₂, h₂⟩ hc₂ => ?_
            exact .bind (leaves_readInner braced hc₂) fun _ hc₃ => .ok hc₃
        next =>
          refine .bind (leaves_readOrdinary h) fun ⟨stmt, c₁, h₁⟩ hc₁ => ?_
          exact .bind (leaves_readInner braced hc₁) fun _ hc₂ => .ok hc₂
termination_by c.size

theorem behind_readName? (h : c₀.Behind loose c) : c₀.Behind loose (readName? c).rest := by
  unfold readName?
  split
  next hs => exact (h.take? hs).loosen
  next => exact h

/-- A namespace is left behind its last statement or its brace. -/
theorem leaves_readNamespace (h : c₀.Behind loose c) : Leaves c₀ true (readNamespace c) := by
  unfold readNamespace
  dsimp only
  refine .bind (h.takeWord _) fun ⟨_, c₁, h₁⟩ hc₁ => ?_
  have hc₂ := behind_readName? hc₁
  generalize readName? c₁ = step at hc₂ ⊢
  obtain ⟨name, c₂, h₂⟩ := step
  dsimp only at hc₂ ⊢
  split
  next hs =>
    refine .bind (leaves_readInner true (hc₂.take? hs)) fun _ hc₄ => ?_
    exact .bind (hc₄.take _) fun _ hc₅ => .ok hc₅.sameLineComment
  next => exact .error (hc₂.unexpected _)
  next =>
    refine .bind (hc₂.take _) fun _ hc₃ => ?_
    exact .bind (leaves_readInner false hc₃.sameLineComment) fun _ hc₅ => .ok hc₅

/-- A file is left at its end, and what refuses it is a token of it or the end. -/
theorem leaves_readOuter {c : Cursor} {loose : Bool} (h : c₀.Behind loose c) :
    Leaves c₀ true (readOuter c) := by
  unfold readOuter
  dsimp only
  split
  next => exact .ok h.slacken
  next =>
    split
    next =>
      refine .bind (leaves_readNamespace h) fun ⟨_, c₁, h₁⟩ hc₁ => ?_
      exact .bind (leaves_readOuter hc₁) fun _ hc₂ => .ok hc₂
    next =>
      split
      next =>
        refine .bind (leaves_readOutside h) fun ⟨text, c₁, h₁⟩ hc₁ => ?_
        dsimp only
        split
        next => exact .ok (Cursor.Behind.slacken hc₁)
        next =>
          refine .bind (Cursor.Behind.take hc₁ _) fun ⟨_, c₂, h₂⟩ hc₂ => ?_
          exact .bind (leaves_readOuter hc₂) fun _ hc₃ => .ok hc₃
      next =>
        refine .bind (leaves_readOrdinary h) fun ⟨stmt, c₁, h₁⟩ hc₁ => ?_
        exact .bind (leaves_readOuter hc₁) fun _ hc₂ => .ok hc₂
termination_by c.size

end Stmt

/-- The lexemes ahead of the cursor before a source are those of the source. -/
theorem Cursor.mem_of_mem_lexemes {mode : Mode} {start : Position} {cs : List Char}
    {ls : List Lexeme} (h : Scan.lexemes mode start cs = .ok ls) {l : Lexeme}
    (hl : l ∈ (ofLexemes ls).lexemes) : l ∈ ls := by
  obtain ⟨-, hpieces⟩ := isLexed_ofLexemes h
  have hlexemes : (ofLexemes ls).lexemes = (ofLexemes ls).tokens.map Token.toLexeme := by
    simp [lexemes, tokens]
  obtain ⟨t, ht, rfl⟩ := List.mem_map.1 (hlexemes ▸ hl)
  rw [← hpieces]
  exact List.mem_flatMap.2 ⟨t, ht, by simp [Token.pieces]⟩

namespace ParseError

/-- An error that shows a lexeme of a source points into the source. -/
theorem Shows.pointsInto {mode : Mode} {source : String} {ls : List Lexeme} {e : ParseError}
    (hls : Scan.lexemes mode .start source.toList = .ok ls) (he : e.Shows (.ofLexemes ls)) :
    e.PointsInto source := by
  obtain ⟨l, hl, hspan, hended⟩ := he
  have hplace := (Scan.cuts_lexemes ..).of_ok hls l (Cursor.mem_of_mem_lexemes hls hl)
  refine ⟨hspan ▸ hplace.isPart.pointsInto, fun wanted hw => ?_⟩
  rw [hspan]
  exact hplace.span_of_eof (hended (Cursor.isLexed_ofLexemes hls).1.eof wanted hw)

/-- The errors of what reads the lexemes of a source point into the source. -/
theorem pointsInto_of_lexemes {α : Type} {Q : α → Prop} {mode : Mode}
    {source : String} {e : ParseError} {read : List Lexeme → Except ParseError α}
    (h : (Scan.lexemes mode .start source.toList >>= read) = .error e)
    (hread : ∀ ls, Blames (.ofLexemes ls) Q (read ls)) : e.PointsInto source := by
  rcases bind_eq_error.1 h with hlex | ⟨ls, hls, h⟩
  · exact ((Scan.cuts_lexemes ..).of_error hlex).pointsInto
  · exact ((hread ls).of_error h).pointsInto hls

end ParseError

theorem Expr.ofSource_pointsInto {source : String} {e : ParseError}
    (h : ofSource source = .error e) :
    e.PointsInto source := by
  unfold ofSource Lexeme.ofCode at h
  refine ParseError.pointsInto_of_lexemes (Q := fun _ => True) h fun ls => ?_
  refine Blames.bind (leaves_read .refl) fun ⟨value, c₁, h₁⟩ hc₁ => ?_
  have hc₂ := Cursor.Behind.accept hc₁ .semicolon
  dsimp only at hc₂ ⊢
  split
  next => trivial
  next => exact hc₂.unexpected _

theorem Fragment.ofSource_pointsInto {source : String} {e : ParseError}
    (h : ofSource source = .error e) :
    e.PointsInto (String.ofList (withoutOpenTag source.toList)) := by
  unfold ofSource Lexeme.ofCode at h
  rw [← String.toList_ofList (l := withoutOpenTag source.toList)] at h
  refine ParseError.pointsInto_of_lexemes (Q := fun _ => True) h fun ls => ?_
  exact Blames.bind (leaves_split false true .refl) fun _ _ => trivial

/-- A file without an opening tag is refused as a whole, at its very beginning. -/
theorem SourceFile.ofSource_pointsInto {source : String} {e : ParseError}
    (h : ofSource source = .error e) :
    e.PointsInto source := by
  unfold ofSource Lexeme.ofFile at h
  rcases bind_eq_error.1 h with hlex | ⟨ls, hls, h⟩
  · exact ((Scan.cuts_lexemes ..).of_error hlex).pointsInto
  · dsimp only at h
    split at h
    next =>
      cases h
      have hspan : (⟨0, 0, 1, 1⟩ : Span).IsPart .start source.toList :=
        ⟨[], [], source.toList, rfl, rfl⟩
      exact ⟨hspan.pointsInto, nofun⟩
    next hs =>
      rcases bind_eq_error.1 h with hread | ⟨_, -, h⟩
      · have hopened := (Cursor.Behind.refl.skip _).take? hs
        exact ((Stmt.leaves_readOuter hopened).of_error hread).pointsInto hls
      · cases h

/-- The error of a source that is refused points into the source, and into the code behind the
opening tag of a fragment that has one. -/
theorem ParseError.pointsInto_source (source : String) (e : ParseError) :
    (SourceFile.ofSource source = .error e → e.PointsInto source) ∧
      (Expr.ofSource source = .error e → e.PointsInto source) ∧
      (Fragment.ofSource source = .error e →
        e.PointsInto (String.ofList (Fragment.withoutOpenTag source.toList))) :=
  ⟨SourceFile.ofSource_pointsInto, Expr.ofSource_pointsInto, Fragment.ofSource_pointsInto⟩

end ClassEdit
