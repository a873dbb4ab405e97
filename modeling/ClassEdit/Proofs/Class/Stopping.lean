import ClassEdit.File.Parser
import ClassEdit.Proofs.Stopping

/-!
Where the readers of classes, members and imports stop, and what they blame. Main statements: a
member, the header of a class and an import take all tokens from their first to their last, and no
others; what refuses one of them is a token ahead, or the end.
-/

namespace ClassEdit

variable {c c₀ : Cursor} {loose : Bool}

namespace Cursor.Behind

/-- A group is left behind its closer, and what refuses it is a token ahead or the end. -/
theorem takeGroup (h : c₀.Behind loose c) (k : TokenKind) : Leaves c₀ false (c.takeGroup k) := by
  unfold Cursor.takeGroup
  refine .bind (h.take k) fun ⟨t, c₁, h₁⟩ hc₁ => ?_
  dsimp only
  split
  next =>
    have heof : c.eof.toLexeme = c₁.eof.toLexeme := h.eof_eq.trans (eof_eq hc₁).symm
    refine .behind ((Extent.blames_groupRest _ _ c₁.ahead).mono (fun l hl => ?_) h.eof_eq)
      fun n _ =>
      .ok (Behind.skip hc₁ n)
    rw [lexemes, heof] at hl
    exact mem_lexemes hc₁ hl
  next => exact .ok hc₁

theorem takeAttributes {c : Cursor} {loose : Bool} (h : c₀.Behind loose c) :
    Leaves c₀ loose c.takeAttributes := by
  unfold Cursor.takeAttributes
  split
  next =>
    refine .bind (h.takeGroup _) fun ⟨ts, c₁, h₁⟩ hc₁ => ?_
    exact .bind (takeAttributes hc₁) fun _ hc₂ => .ok hc₂.loosen
  next => exact .ok h
termination_by c.size

end Cursor.Behind

theorem Modifiers.readFrom_eq_drop (m : Modifiers) (ts : List Token) :
    ∃ n, (readFrom m ts).2 = ts.drop n := by
  induction ts generalizing m with
  | nil => exact ⟨0, rfl⟩
  | cons t ts ih =>
      unfold readFrom
      split
      next m' _ =>
        obtain ⟨n, hn⟩ := ih m'
        exact ⟨n + 1, hn⟩
      next => exact ⟨0, rfl⟩

theorem Modifiers.behind_read (h : c₀.Behind loose c) : c₀.Behind loose (read c).rest := by
  obtain ⟨n, hn⟩ := readFrom_eq_drop .empty c.ahead
  have hrest : (read c).rest = c.skip n := by rw [Cursor.skip, ← hn]; rfl
  rw [hrest]
  exact h.skip n

namespace Member

theorem leaves_readDefault (h : c₀.Behind loose c) : Leaves c₀ loose (readDefault c) := by
  unfold readDefault
  split
  next hs => exact .bind (Expr.leaves_read (h.take? hs)) fun _ hc₂ => .ok hc₂.loosen
  next => exact .ok h

theorem leaves_readTypeUnless (absent : Bool) (h : c₀.Behind loose c) :
    Leaves c₀ loose (readTypeUnless absent c) := by
  unfold readTypeUnless
  split
  next => exact .ok h
  next => exact .bind (TypeText.leaves_read h) fun _ hc₁ => .ok hc₁.loosen

theorem leaves_readMixins (h : c₀.Behind loose c) : Leaves c₀ false (readMixins c) := by
  unfold readMixins
  refine .bind (h.takeWord _) fun ⟨_, c₁, h₁⟩ hc₁ => ?_
  refine .bind hc₁.takeNames fun ⟨names, c₂, h₂⟩ hc₂ => ?_
  dsimp only
  split
  next => exact .bind (Fragment.leaves_block hc₂) fun _ hc₃ => .ok hc₃
  next => exact .bind (hc₂.take _) fun _ hc₃ => .ok hc₃

theorem leaves_readConstantItems {c : Cursor} {loose : Bool} (h : c₀.Behind loose c) :
    Leaves c₀ false (readConstantItems c) := by
  unfold readConstantItems
  refine .bind h.takeName fun ⟨name, c₁, h₁⟩ hc₁ => ?_
  refine .bind (hc₁.take _) fun ⟨_, c₂, h₂⟩ hc₂ => ?_
  refine .bind (Expr.leaves_read hc₂) ?_
  rintro ⟨value, c₃, h₃⟩ hc₃
  dsimp only
  split
  next _ c₄ h₄ hs => exact .bind (leaves_readConstantItems (hc₃.take? hs)) fun _ hc₅ => .ok hc₅
  next => exact .ok hc₃
termination_by c.size

theorem leaves_readConstants (modifiers : Modifiers) (h : c₀.Behind loose c) :
    Leaves c₀ false (readConstants modifiers c) := by
  unfold readConstants
  refine .bind (leaves_readTypeUnless _ h) fun _ hc₁ => ?_
  refine .bind (leaves_readConstantItems hc₁) fun _ hc₂ => ?_
  exact .bind (hc₂.take _) fun _ hc₃ => .ok hc₃

theorem leaves_readFieldItems {c : Cursor} {loose : Bool} (h : c₀.Behind loose c) :
    Leaves c₀ false (readFieldItems c) := by
  unfold readFieldItems
  refine .bind h.takeVariable fun ⟨name, c₁, h₁⟩ hc₁ => ?_
  refine .bind (leaves_readDefault hc₁) fun ⟨default, c₂, h₂⟩ hc₂ => ?_
  dsimp only
  split
  next _ c₃ h₃ hs => exact .bind (leaves_readFieldItems (hc₂.take? hs)) fun _ hc₄ => .ok hc₄
  next => exact .ok hc₂
termination_by c.size

theorem leaves_readFields (modifiers : Modifiers) (h : c₀.Behind loose c) :
    Leaves c₀ false (readFields modifiers c) := by
  unfold readFields
  refine .bind (leaves_readTypeUnless _ h) fun _ hc₁ => ?_
  refine .bind (leaves_readFieldItems hc₁) fun _ hc₂ => ?_
  exact .bind (hc₂.take _) fun _ hc₃ => .ok hc₃

theorem leaves_readParam (h : c₀.Behind loose c) : Leaves c₀ false (readParam c) := by
  unfold readParam
  refine .bind h.takeAttributes fun ⟨attributes, c₁, h₁⟩ hc₁ => ?_
  have hc₂ : c₀.Behind loose (Modifiers.read c₁).rest := Modifiers.behind_read hc₁
  refine .bind (leaves_readTypeUnless _ hc₂) fun ⟨type, c₃, h₃⟩ hc₃ => ?_
  refine .bind ((hc₃.accept .ampersand).accept .ellipsis).takeVariable fun _ hc₆ => ?_
  exact .bind (leaves_readDefault hc₆) fun _ hc₇ => .ok hc₇

theorem leaves_readParams {c : Cursor} {loose : Bool} (h : c₀.Behind loose c) :
    Leaves c₀ loose (readParams c) := by
  unfold readParams
  split
  next => exact .ok h
  next =>
    refine .bind (leaves_readParam h) fun ⟨param, c₁, h₁⟩ hc₁ => ?_
    dsimp only
    split
    next _ c₂ h₂ hs => exact .bind (leaves_readParams (hc₁.take? hs)) fun _ hc₃ => .ok hc₃.loosen
    next => exact .ok (Cursor.Behind.loosen hc₁)
termination_by c.size

theorem leaves_readBody (h : c₀.Behind loose c) : Leaves c₀ false (readBody c) := by
  unfold readBody
  split
  next hs => exact .ok (h.take? hs)
  next => exact .bind (Fragment.leaves_block h) fun _ hc₁ => .ok hc₁

theorem leaves_readRoutine (modifiers : Modifiers) (h : c₀.Behind loose c) :
    Leaves c₀ false (readRoutine modifiers c) := by
  unfold readRoutine
  refine .bind (h.takeWord _) fun ⟨_, c₁, h₁⟩ hc₁ => ?_
  refine .bind (hc₁.accept .ampersand).takeName fun _ hc₃ => ?_
  refine .bind (hc₃.take _) fun _ hc₄ => ?_
  refine .bind (leaves_readParams hc₄) fun _ hc₅ => ?_
  refine .bind (hc₅.take _) fun ⟨_, c₆, h₆⟩ hc₆ => ?_
  refine .bind (leaves_readTypeUnless _ (hc₆.accept .colon)) fun _ hc₈ => ?_
  exact .bind (leaves_readBody hc₈) fun _ hc₉ => .ok hc₉

/-- Whatever member comes next, its reader stops behind it and blames only what is ahead. -/
theorem leaves_readBare (h : c₀.Behind loose c) : Leaves c₀ false (readBare c) := by
  unfold readBare
  split
  next => exact .bind (leaves_readMixins h) fun _ hc₁ => .ok hc₁
  next =>
    have hc₁ : c₀.Behind loose (Modifiers.read c).rest := Modifiers.behind_read h
    generalize Modifiers.read c = step at hc₁ ⊢
    obtain ⟨modifiers, c₁, h₁⟩ := step
    dsimp only at hc₁ ⊢
    split
    next hs => exact .bind (leaves_readConstants modifiers (hc₁.takeWord? hs)) fun _ hc₃ => .ok hc₃
    next =>
      split
      next => exact .bind (leaves_readRoutine modifiers hc₁) fun _ hc₂ => .ok hc₂
      next =>
        split
        next => exact .error (hc₁.unexpected _)
        next => exact .bind (leaves_readFields modifiers hc₁) fun _ hc₂ => .ok hc₂

/-- A member takes with it the comment behind it on its last line. -/
theorem leaves_readStmt (h : c₀.Behind loose c) : Leaves c₀ true (readStmt c) := by
  unfold readStmt
  refine .bind h.takeAttributes fun _ hc₁ => ?_
  exact .bind (leaves_readBare hc₁) fun _ hc₂ => .ok hc₂.sameLineComment

/-- The members are left before the brace behind the last of them. -/
theorem leaves_readAll {c : Cursor} {loose : Bool} (h : c₀.Behind loose c) :
    Leaves c₀ true (readAll c) := by
  unfold readAll
  split
  next => exact .ok h.slacken
  next =>
    split
    next => exact .error (h.unexpected _)
    next =>
      refine .bind (leaves_readStmt h) fun ⟨member, c₁, h₁⟩ hc₁ => ?_
      exact .bind (leaves_readAll hc₁) fun _ hc₂ => .ok hc₂
termination_by c.size

end Member

namespace ClassDecl

theorem behind_takeModifier? (h : c₀.Behind loose c) {s : Step 1 ClassModifier c}
    (hs : takeModifier? c = some s) : c₀.Behind false s.rest := by
  have hword {w : String} {m : ClassModifier}
      (hw : (c.takeWord? w).map (.map fun _ => m) = some s) :
      c₀.Behind false s.rest := by
    obtain ⟨s₁, hs₁, rfl⟩ := Option.map_eq_some_iff.1 hw
    exact h.takeWord? hs₁
  rcases Option.or_eq_some_iff.1 hs with hs | ⟨-, hs⟩
  · exact hword hs
  · rcases Option.or_eq_some_iff.1 hs with hs | ⟨-, hs⟩
    · exact hword hs
    · exact hword hs

theorem behind_readModifiers {c : Cursor} {loose : Bool} (h : c₀.Behind loose c) :
    c₀.Behind loose (readModifiers c).rest := by
  unfold readModifiers
  split
  next m c₁ h₁ hs => exact (behind_readModifiers (behind_takeModifier? h hs)).loosen
  next => exact h
termination_by c.size

theorem leaves_readParent (h : c₀.Behind loose c) : Leaves c₀ loose (readParent c) := by
  unfold readParent
  split
  next hs => exact .bind (h.takeWord? hs).takeName fun _ hc₂ => .ok hc₂.loosen
  next => exact .ok h

theorem leaves_readInterfaces (h : c₀.Behind loose c) : Leaves c₀ loose (readInterfaces c) := by
  unfold readInterfaces
  split
  next hs => exact .bind (h.takeWord? hs).takeNames fun _ hc₂ => .ok hc₂.loosen
  next => exact .ok h

theorem leaves_read (trivia : Trivia) (h : c₀.Behind loose c) : Leaves c₀ true (read trivia c) := by
  unfold read
  refine .bind ((behind_readModifiers h).takeWord _) fun _ hc₂ => ?_
  refine .bind hc₂.takeName fun _ hc₃ => ?_
  refine .bind (leaves_readParent hc₃) fun _ hc₄ => ?_
  refine .bind (leaves_readInterfaces hc₄) fun _ hc₅ => ?_
  refine .bind (hc₅.take _) fun _ hc₆ => ?_
  refine .bind (Member.leaves_readAll hc₆) fun _ hc₇ => ?_
  exact .bind (hc₇.take _) fun _ hc₈ => .ok hc₈.sameLineComment

end ClassDecl

namespace Import

theorem behind_readKind (h : c₀.Behind loose c) : c₀.Behind loose (readKind c).rest := by
  unfold readKind
  dsimp only
  split
  next => exact h.skip 1
  next => exact h

theorem leaves_readLocalName (h : c₀.Behind loose c) : Leaves c₀ loose (readLocalName c) := by
  unfold readLocalName
  split
  next hs => exact .bind (h.takeWord? hs).takeName fun _ hc₂ => .ok hc₂.loosen
  next => exact .ok h

theorem leaves_readItem (kind : Option ImportKind) (h : c₀.Behind loose c) :
    Leaves c₀ false (readItem kind c) := by
  unfold readItem
  refine .bind h.takeName fun _ hc₁ => ?_
  exact .bind (leaves_readLocalName hc₁) fun _ hc₂ => .ok hc₂

/-- The symbols of a group leave the cursor behind them, and an error shows what is ahead. -/
theorem leaves_readGroup {c : Cursor} {loose : Bool} (h : c₀.Behind loose c) :
    Leaves c₀ loose (readGroup c) := by
  unfold readGroup
  split
  next => exact .ok h
  next =>
    have hc₁ : c₀.Behind loose (readKind c).rest := behind_readKind h
    generalize readKind c = step at hc₁ ⊢
    obtain ⟨kind, c₁, h₁⟩ := step
    refine .bind (leaves_readItem kind hc₁) fun ⟨item, c₂, h₂⟩ hc₂ => ?_
    dsimp only
    split
    next _ c₃ h₃ hs => exact .bind (leaves_readGroup (hc₂.take? hs)) fun _ hc₄ => .ok hc₄.loosen
    next => exact .ok (Cursor.Behind.loosen hc₂)
termination_by c.size

theorem leaves_readFurther {c : Cursor} {loose : Bool} (h : c₀.Behind loose c) :
    Leaves c₀ loose (readFurther c) := by
  unfold readFurther
  split
  next _ c₁ h₁ hs =>
    refine .bind (leaves_readItem none (h.take? hs)) ?_
    rintro ⟨item, c₂, h₂⟩ hc₂
    exact .bind (leaves_readFurther hc₂) fun _ hc₃ => .ok hc₃.loosen
  next => exact .ok h
termination_by c.size

/-- The symbols of an import leave the cursor behind them, and an error shows what is ahead. -/
theorem leaves_readItems (h : c₀.Behind loose c) : Leaves c₀ false (readItems c) := by
  unfold readItems
  refine .bind h.takeName fun ⟨first, c₁, h₁⟩ hc₁ => ?_
  dsimp only
  split
  next _ c₂ h₂ hs =>
    have hc₂ : c₀.Behind false c₂ := by
      split at hs
      next => exact hc₁.take? hs
      next => cases hs
    refine .bind (leaves_readGroup hc₂) fun _ hc₃ => ?_
    exact .bind (hc₃.take _) fun _ hc₄ => .ok hc₄
  next =>
    refine .bind (leaves_readLocalName hc₁) fun _ hc₂ => ?_
    exact .bind (leaves_readFurther hc₂) fun _ hc₃ => .ok hc₃

theorem leaves_read (trivia : Trivia) (h : c₀.Behind loose c) : Leaves c₀ true (read trivia c) := by
  unfold read
  refine .bind (h.takeWord _) fun ⟨_, c₁, h₁⟩ hc₁ => ?_
  refine .bind (leaves_readItems (behind_readKind hc₁)) fun _ hc₃ => ?_
  exact .bind (hc₃.take _) fun _ hc₄ => .ok hc₄.sameLineComment

end Import

end ClassEdit
