import ClassEdit.Class.Parser
import ClassEdit.Proofs.Class.Plain
import ClassEdit.Proofs.Expr.Widening
import ClassEdit.Proofs.Fragment.Widening

/-!
Reading classes from two sources of which one has a carriage return before each newline. Main
statement: a class is read from both sources or from neither, and the second differs from the first
one in its values alone, which are widened.
-/

namespace ClassEdit

variable {c c' : Cursor}

namespace TypeText

theorem readIntersection_widened {c c' : Cursor} (h : c.Alike c') :
    Agrees Eq (readIntersection c) (readIntersection c') := by
  rw [readIntersection, readIntersection]
  refine h.takeName.bind ?_
  rintro name c₁ h₁ _ c₁' h₁' rfl hc₁
  obtain ⟨hs, hs'⟩ | ⟨_, c₂, h₂, _, c₂', h₂', hs, hs', -, hc₂⟩ := (hc₁.take? .ampersand).cases <;>
    simp only [hs, hs']
  · exact ⟨rfl, hc₁⟩
  · refine (readIntersection_widened hc₂).bind ?_
    rintro names c₃ h₃ _ c₃' h₃' rfl hc₃
    exact ⟨rfl, hc₃⟩
termination_by c.size

/-- A part of a type is the same in a widened source. -/
theorem readPart_widened (h : c.Alike c') : Agrees Eq (readPart c) (readPart c') := by
  unfold readPart
  obtain ⟨hs, hs'⟩ | ⟨_, c₁, h₁, _, c₁', h₁', hs, hs', -, hc₁⟩ := (h.take? .leftParen).cases <;>
    simp only [hs, hs']
  · obtain ⟨hs, hs'⟩ | ⟨t, c₁, h₁, t', c₁', h₁', hs, hs', ⟨hk, cut, ht⟩, hc₁⟩ :=
      (h.take? .word).cases <;>
      simp only [hs, hs']
    · trivial
    · exact ⟨(ht.string_eq (by rw [hk]; rfl)).symm, hc₁⟩
  · refine (readIntersection_widened hc₁).bind ?_
    rintro names c₂ h₂ _ c₂' h₂' rfl hc₂
    refine (hc₂.take .rightParen).bind ?_
    rintro _ c₃ h₃ _ c₃' h₃' - hc₃
    exact ⟨rfl, hc₃⟩

/-- Both sources have the same mark between two parts of a type, or both have none. -/
theorem joint?_widened (h : c.Alike c') : Finds Eq (joint? c) (joint? c') := by
  unfold joint?
  obtain ⟨hs, hs'⟩ | ⟨_, c₁, h₁, _, c₁', h₁', hs, hs', -, hc₁⟩ := (h.take? .pipe).cases <;>
    simp only [hs, hs']
  · obtain ⟨hs, hs'⟩ | ⟨_, c₁, h₁, _, c₁', h₁', hs, hs', -, hc₁⟩ := (h.take? .ampersand).cases <;>
      simp only [hs, hs']
    · exact .none
    · rw [hc₁.isAt, hc₁.isAt]
      split
      · exact .none
      · exact .some ⟨rfl, hc₁⟩
  · exact .some ⟨rfl, hc₁⟩

theorem readParts_widened {c c' : Cursor} (h : c.Alike c') :
    Agrees Eq (readParts c) (readParts c') := by
  rw [readParts, readParts]
  refine (readPart_widened h).bind ?_
  rintro part c₁ h₁ _ c₁' h₁' rfl hc₁
  obtain ⟨hs, hs'⟩ | ⟨sign, c₂, h₂, _, c₂', h₂', hs, hs', rfl, hc₂⟩ :=
    (joint?_widened hc₁).cases <;>
    simp only [hs, hs']
  · exact ⟨rfl, hc₁⟩
  · refine (readParts_widened hc₂).bind ?_
    rintro parts c₃ h₃ _ c₃' h₃' rfl hc₃
    exact ⟨rfl, hc₃⟩
termination_by c.size

theorem read_widened (h : c.Alike c') : Agrees Eq (read c) (read c') := by
  unfold read
  obtain ⟨hs, hs'⟩ | ⟨_, c₁, h₁, _, c₁', h₁', hs, hs', -, hc₁⟩ := (h.take? .question).cases <;>
    simp only [hs, hs']
  · exact readParts_widened h
  · refine (readParts_widened hc₁).bind ?_
    rintro parts c₂ h₂ _ c₂' h₂' rfl hc₂
    exact ⟨rfl, hc₂⟩

end TypeText

namespace Cursor.Alike

theorem leadingTrivia (h : c.Alike c') : c'.leadingTrivia = c.leadingTrivia := by
  have hcomments : Expr.commentTexts c'.head.comments = Expr.commentTexts c.head.comments :=
    h.commentTexts
  rw [Cursor.leadingTrivia, Cursor.leadingTrivia, hcomments, h.followsBlankLine]

theorem finish (h : c.Alike c') (trivia : Trivia) :
    Step.Alike Eq (c.finish trivia) (c'.finish trivia) := by
  obtain ⟨hcomment, hrest⟩ := h.sameLineComment
  exact ⟨congrArg (fun trailing => { trivia with trailing }) hcomment.symm, hrest⟩

/-- The tokens of a group. -/
theorem takeGroup (h : c.Alike c') (k : TokenKind) :
    Agrees (fun ts ts' => excerptOf ts' = excerptOf ts) (c.takeGroup k) (c'.takeGroup k) := by
  obtain ⟨cut, h⟩ := h
  unfold Cursor.takeGroup
  cases h with
  | eof => trivial
  | @push _ t t' c c' ht hc =>
      rw [take_push, take_push, ht.kind]
      split
      next =>
        simp only [ok_bind]
        split
        next closer _ =>
          refine Agree.bind (Extent.groupRest_alike closer [] hc.ahead.alike) ?_
          rintro n _ rfl
          exact ⟨Token.Chain.excerptOf_eq (.cons ht (hc.ahead.take n)), false, hc.skip n⟩
        next => exact ⟨Token.Chain.excerptOf_eq (.cons ht (.nil false)), false, hc⟩
      next => trivial

theorem takeAttributes {c c' : Cursor} (h : c.Alike c') :
    Agrees Eq c.takeAttributes c'.takeAttributes := by
  rw [Cursor.takeAttributes, Cursor.takeAttributes, h.isAt]
  split
  · refine (h.takeGroup .attributeOpen).bind ?_
    rintro ts c₁ h₁ ts' c₁' h₁' hts hc₁
    refine hc₁.takeAttributes.bind ?_
    rintro more c₂ h₂ _ c₂' h₂' rfl hc₂
    exact ⟨by simp [hts], hc₂⟩
  · exact ⟨rfl, h⟩
termination_by c.size

end Cursor.Alike

namespace Modifiers

theorem add?_widened {cut : Bool} {t t' : Token} (m : Modifiers) (h : t.Widened cut t') :
    m.add? t' = m.add? t := by
  simp only [add?, h.isWord]

/-- The same modifiers are read from both sources. -/
theorem readFrom_widened {c c' : Cursor} (h : c.Alike c') (m : Modifiers) :
    (readFrom m c'.ahead).1 = (readFrom m c.ahead).1 ∧
      Cursor.Alike { c with ahead := (readFrom m c.ahead).2 }
        { c' with ahead := (readFrom m c'.ahead).2 } := by
  obtain ⟨cut, h⟩ := h
  induction h generalizing m with
  | eof h => exact ⟨rfl, _, .eof h⟩
  | @push cut t t' c c' ht hc ih =>
      rw [Cursor.ahead_push, Cursor.ahead_push, readFrom, readFrom, add?_widened m ht]
      split
      next m' _ => exact ih m'
      next => exact ⟨rfl, cut, .push ht hc⟩

theorem read_widened (h : c.Alike c') : Step.Alike Eq (read c) (read c') := by
  obtain ⟨hm, hrest⟩ := readFrom_widened h .empty
  exact ⟨hm.symm, hrest⟩

end Modifiers

namespace Member

open ClassEdit.Expr (widened)

theorem readDefault_widened (h : c.Alike c') :
    Agrees (fun d d' => d' = d.map widened) (readDefault c) (readDefault c') := by
  unfold readDefault
  obtain ⟨hs, hs'⟩ | ⟨_, c₁, h₁, _, c₁', h₁', hs, hs', -, hc₁⟩ := (h.take? .equals).cases <;>
    simp only [hs, hs']
  · exact ⟨rfl, h⟩
  · refine (Expr.read_widened hc₁).bind ?_
    rintro e c₂ h₂ _ c₂' h₂' rfl hc₂
    exact ⟨rfl, hc₂⟩

/-- The rules in a block are statements, and the texts of statements are the same in both
sources. -/
theorem readMixins_widened (h : c.Alike c') : Agrees Eq (readMixins c) (readMixins c') := by
  unfold readMixins
  refine (h.takeWord "use").bind ?_
  rintro _ c₁ h₁ _ c₁' h₁' - hc₁
  refine hc₁.takeNames.bind ?_
  rintro names c₂ h₂ _ c₂' h₂' rfl hc₂
  simp only [hc₂.isAt]
  split
  · refine (Fragment.block_widened hc₂).bind ?_
    rintro rules c₃ h₃ _ c₃' h₃' rfl hc₃
    exact ⟨rfl, hc₃⟩
  · refine (hc₂.take .semicolon).bind ?_
    rintro _ c₃ h₃ _ c₃' h₃' - hc₃
    exact ⟨rfl, hc₃⟩

/-- The constants of a widened source have the widened values. -/
theorem readConstantItems_widened {c c' : Cursor} (h : c.Alike c') :
    Agrees (fun items items' => items' = items.map (·.mapValue widened)) (readConstantItems c)
      (readConstantItems c') := by
  rw [readConstantItems, readConstantItems]
  refine h.takeName.bind ?_
  rintro name c₁ h₁ _ c₁' h₁' rfl hc₁
  refine (hc₁.take .equals).bind ?_
  rintro _ c₂ h₂ _ c₂' h₂' - hc₂
  refine (Expr.read_widened hc₂).bind ?_
  rintro value c₃ h₃ _ c₃' h₃' rfl hc₃
  obtain ⟨hs, hs'⟩ | ⟨_, c₄, h₄, _, c₄', h₄', hs, hs', -, hc₄⟩ := (hc₃.take? .comma).cases <;>
    simp only [hs, hs']
  · exact ⟨rfl, hc₃⟩
  · refine (readConstantItems_widened hc₄).bind ?_
    rintro items c₅ h₅ _ c₅' h₅' rfl hc₅
    exact ⟨rfl, hc₅⟩
termination_by c.size

theorem readTypeUnless_widened (absent : Bool) (h : c.Alike c') :
    Agrees Eq (readTypeUnless absent c) (readTypeUnless absent c') := by
  unfold readTypeUnless
  split
  · exact ⟨rfl, h⟩
  · refine (TypeText.read_widened h).bind ?_
    rintro type c₁ h₁ _ c₁' h₁' rfl hc₁
    exact ⟨rfl, hc₁⟩

theorem readConstants_widened (modifiers : Modifiers) (h : c.Alike c') :
    Agrees (fun g g' => g' = g.mapValues widened) (readConstants modifiers c)
      (readConstants modifiers c') := by
  unfold readConstants
  rw [h.second]
  refine (readTypeUnless_widened _ h).bind ?_
  rintro type c₁ h₁ _ c₁' h₁' rfl hc₁
  refine (readConstantItems_widened hc₁).bind ?_
  rintro items c₂ h₂ _ c₂' h₂' rfl hc₂
  refine (hc₂.take .semicolon).bind ?_
  rintro _ c₃ h₃ _ c₃' h₃' - hc₃
  exact ⟨rfl, hc₃⟩

/-- The fields of a widened source have the widened defaults. -/
theorem readFieldItems_widened {c c' : Cursor} (h : c.Alike c') :
    Agrees (fun items items' => items' = items.map (·.mapValue widened)) (readFieldItems c)
      (readFieldItems c') := by
  rw [readFieldItems, readFieldItems]
  refine h.takeVariable.bind ?_
  rintro name c₁ h₁ _ c₁' h₁' rfl hc₁
  refine (readDefault_widened hc₁).bind ?_
  rintro default c₂ h₂ _ c₂' h₂' rfl hc₂
  obtain ⟨hs, hs'⟩ | ⟨_, c₃, h₃, _, c₃', h₃', hs, hs', -, hc₃⟩ := (hc₂.take? .comma).cases <;>
    simp only [hs, hs']
  · exact ⟨rfl, hc₂⟩
  · refine (readFieldItems_widened hc₃).bind ?_
    rintro items c₄ h₄ _ c₄' h₄' rfl hc₄
    exact ⟨rfl, hc₄⟩
termination_by c.size

theorem readFields_widened (modifiers : Modifiers) (h : c.Alike c') :
    Agrees (fun g g' => g' = g.mapValues widened) (readFields modifiers c)
      (readFields modifiers c') := by
  unfold readFields
  rw [h.isAt]
  refine (readTypeUnless_widened _ h).bind ?_
  rintro type c₁ h₁ _ c₁' h₁' rfl hc₁
  refine (readFieldItems_widened hc₁).bind ?_
  rintro items c₂ h₂ _ c₂' h₂' rfl hc₂
  refine (hc₂.take .semicolon).bind ?_
  rintro _ c₃ h₃ _ c₃' h₃' - hc₃
  exact ⟨rfl, hc₃⟩

/-- A parameter differs in its default alone, which is widened. -/
theorem readParam_widened (h : c.Alike c') :
    Agrees (fun p p' => p' = p.mapValue widened) (readParam c) (readParam c') := by
  unfold readParam
  refine h.takeAttributes.bind ?_
  rintro attributes c₁ h₁ _ c₁' h₁' rfl hc₁
  obtain ⟨hmodifiers, hc₂⟩ := Modifiers.read_widened hc₁
  simp only [← hmodifiers, hc₂.isAt]
  refine (readTypeUnless_widened _ hc₂).bind ?_
  rintro type c₃ h₃ _ c₃' h₃' rfl hc₃
  obtain ⟨hbyRef, hc₄⟩ := hc₃.accept .ampersand
  obtain ⟨hvariadic, hc₅⟩ := hc₄.accept .ellipsis
  simp only [← hbyRef, ← hvariadic]
  refine hc₅.takeVariable.bind ?_
  rintro name c₆ h₆ _ c₆' h₆' rfl hc₆
  refine (readDefault_widened hc₆).bind ?_
  rintro default c₇ h₇ _ c₇' h₇' rfl hc₇
  exact ⟨rfl, hc₇⟩

/-- The parameters of a widened source have the widened defaults. -/
theorem readParams_widened {c c' : Cursor} (h : c.Alike c') :
    Agrees (fun ps ps' => ps' = ps.map (·.mapValue widened)) (readParams c) (readParams c') := by
  rw [readParams, readParams, h.isAt]
  split
  · exact ⟨rfl, h⟩
  · refine (readParam_widened h).bind ?_
    rintro param c₁ h₁ _ c₁' h₁' rfl hc₁
    obtain ⟨hs, hs'⟩ | ⟨_, c₂, h₂, _, c₂', h₂', hs, hs', -, hc₂⟩ := (hc₁.take? .comma).cases <;>
      simp only [hs, hs']
    · exact ⟨rfl, hc₁⟩
    · refine (readParams_widened hc₂).bind ?_
      rintro params c₃ h₃ _ c₃' h₃' rfl hc₃
      exact ⟨rfl, hc₃⟩
termination_by c.size

/-- A body is the same in both sources, for its statements are kept as texts of lines. -/
theorem readBody_widened (h : c.Alike c') : Agrees Eq (readBody c) (readBody c') := by
  unfold readBody
  obtain ⟨hs, hs'⟩ | ⟨_, c₁, h₁, _, c₁', h₁', hs, hs', -, hc₁⟩ := (h.take? .semicolon).cases <;>
    simp only [hs, hs']
  · refine (Fragment.block_widened h).bind ?_
    rintro stmts c₁ h₁ _ c₁' h₁' rfl hc₁
    have ⟨cut, hcut⟩ := h
    have htokens := hcut.ahead.take (c.size - c₁.size)
    obtain ⟨_, hfurther⟩ := htokens.drop 1
    refine ⟨?_, hc₁⟩
    dsimp only
    rw [h.isOnNewLine, h.size, hc₁.size, (htokens.take 1).any fun ht => ht.contains_text,
      hfurther.any fun ht => by rw [ht.isOnNewLine, ht.contains_text]]
  · exact ⟨rfl, hc₁⟩

/-- A routine differs in the defaults of its parameters alone, which are widened. -/
theorem readRoutine_widened (modifiers : Modifiers) (h : c.Alike c') :
    Agrees (fun r r' => r' = r.mapValues widened) (readRoutine modifiers c)
      (readRoutine modifiers c') := by
  unfold readRoutine
  refine (h.takeWord "function").bind ?_
  rintro _ c₁ h₁ _ c₁' h₁' - hc₁
  obtain ⟨hbyRef, hc₂⟩ := hc₁.accept .ampersand
  simp only [← hbyRef]
  refine hc₂.takeName.bind ?_
  rintro name c₃ h₃ _ c₃' h₃' rfl hc₃
  refine (hc₃.take .leftParen).bind ?_
  rintro _ c₄ h₄ _ c₄' h₄' - hc₄
  refine (readParams_widened hc₄).bind ?_
  rintro params c₅ h₅ _ c₅' h₅' rfl hc₅
  refine (hc₅.take .rightParen).bind ?_
  rintro _ c₆ h₆ _ c₆' h₆' - hc₆
  obtain ⟨hhasType, hc₇⟩ := hc₆.accept .colon
  simp only [← hhasType]
  refine (readTypeUnless_widened _ hc₇).bind ?_
  rintro returnType c₈ h₈ _ c₈' h₈' rfl hc₈
  refine (readBody_widened hc₈).bind ?_
  rintro ⟨body, layout⟩ c₉ h₉ _ c₉' h₉' rfl hc₉
  refine ⟨?_, hc₉⟩
  simp [hc₄.isAt, hc₄.isOnNewLine, Routine.mapValues]

/-- A member differs in its values alone, which are widened. -/
theorem readBare_widened (h : c.Alike c') :
    Agrees (fun m m' => m' = m.mapValues widened) (readBare c) (readBare c') := by
  unfold readBare
  rw [h.isAtWord]
  split
  · refine (readMixins_widened h).bind ?_
    rintro use c₁ h₁ _ c₁' h₁' rfl hc₁
    exact ⟨rfl, hc₁⟩
  · obtain ⟨hmodifiers, hc₁⟩ := Modifiers.read_widened h
    simp only [← hmodifiers]
    obtain ⟨hs, hs'⟩ | ⟨_, c₂, h₂, _, c₂', h₂', hs, hs', -, hc₂⟩ :=
      (hc₁.takeWord? "const").cases <;>
      simp only [hs, hs', hc₁.isAtWord]
    · split
      · refine (readRoutine_widened _ hc₁).bind ?_
        rintro r c₂ h₂ _ c₂' h₂' rfl hc₂
        exact ⟨rfl, hc₂⟩
      · split
        · trivial
        · refine (readFields_widened _ hc₁).bind ?_
          rintro group c₂ h₂ _ c₂' h₂' rfl hc₂
          exact ⟨rfl, hc₂⟩
    · refine (readConstants_widened _ hc₂).bind ?_
      rintro group c₃ h₃ _ c₃' h₃' rfl hc₃
      exact ⟨rfl, hc₃⟩

theorem readStmt_widened (h : c.Alike c') :
    Agrees (fun m m' => m' = m.mapValues widened) (readStmt c) (readStmt c') := by
  unfold readStmt
  rw [h.leadingTrivia]
  refine h.takeAttributes.bind ?_
  rintro attributes c₁ h₁ _ c₁' h₁' rfl hc₁
  refine (readBare_widened hc₁).bind ?_
  rintro member c₂ h₂ _ c₂' h₂' rfl hc₂
  obtain ⟨htrivia, hc₃⟩ := hc₂.finish { c.leadingTrivia with attributes }
  refine ⟨?_, hc₃⟩
  exact congrArg (fun trivia => (⟨trivia, _⟩ : MemberStmt)) htrivia.symm

/-- The members of a class differ in their values alone, which are widened. -/
theorem readAll_widened {c c' : Cursor} (h : c.Alike c') :
    Agrees (fun ms ms' => ms' = ms.map (·.mapValues widened)) (readAll c) (readAll c') := by
  rw [readAll, readAll]
  simp only [h.isAt, h.isEmpty]
  split
  · exact ⟨rfl, h⟩
  · split
    · trivial
    · refine (readStmt_widened h).bind ?_
      rintro member c₁ h₁ _ c₁' h₁' rfl hc₁
      refine (readAll_widened hc₁).bind ?_
      rintro members c₂ h₂ _ c₂' h₂' rfl hc₂
      exact ⟨rfl, hc₂⟩
termination_by c.size

end Member

namespace ClassDecl

open ClassEdit.Expr (widened)

theorem takeModifier?_widened (h : c.Alike c') : Finds Eq (takeModifier? c) (takeModifier? c') := by
  unfold takeModifier?
  obtain ⟨hs, hs'⟩ | ⟨_, c₁, h₁, _, c₁', h₁', hs, hs', -, hc₁⟩ := (h.takeWord? "abstract").cases <;>
    simp only [hs, hs', Option.map, Option.or]
  · obtain ⟨hs, hs'⟩ | ⟨_, c₁, h₁, _, c₁', h₁', hs, hs', -, hc₁⟩ := (h.takeWord? "final").cases <;>
      simp only [hs, hs']
    · obtain ⟨hs, hs'⟩ | ⟨_, c₁, h₁, _, c₁', h₁', hs, hs', -, hc₁⟩ :=
        (h.takeWord? "readonly").cases <;>
        simp only [hs, hs']
      · exact .none
      · exact .some ⟨rfl, hc₁⟩
    · exact .some ⟨rfl, hc₁⟩
  · exact .some ⟨rfl, hc₁⟩

theorem readModifiers_widened {c c' : Cursor} (h : c.Alike c') :
    Step.Alike Eq (readModifiers c) (readModifiers c') := by
  rw [readModifiers, readModifiers]
  obtain ⟨hs, hs'⟩ | ⟨m, c₁, h₁, _, c₁', h₁', hs, hs', rfl, hc₁⟩ :=
    (takeModifier?_widened h).cases <;>
    simp only [hs, hs']
  · exact ⟨rfl, h⟩
  · obtain ⟨hms, hc₂⟩ := readModifiers_widened hc₁
    exact ⟨congrArg (m :: ·) hms, hc₂⟩
termination_by c.size

theorem readParent_widened (h : c.Alike c') : Agrees Eq (readParent c) (readParent c') := by
  unfold readParent
  obtain ⟨hs, hs'⟩ | ⟨_, c₁, h₁, _, c₁', h₁', hs, hs', -, hc₁⟩ := (h.takeWord? "extends").cases <;>
    simp only [hs, hs']
  · exact ⟨rfl, h⟩
  · refine hc₁.takeName.bind ?_
    rintro name c₂ h₂ _ c₂' h₂' rfl hc₂
    exact ⟨rfl, hc₂⟩

theorem readInterfaces_widened (h : c.Alike c') :
    Agrees Eq (readInterfaces c) (readInterfaces c') := by
  unfold readInterfaces
  obtain ⟨hs, hs'⟩ | ⟨_, c₁, h₁, _, c₁', h₁', hs, hs', -, hc₁⟩ :=
    (h.takeWord? "implements").cases <;>
    simp only [hs, hs']
  · exact ⟨rfl, h⟩
  · refine hc₁.takeNames.bind ?_
    rintro names c₂ h₂ _ c₂' h₂' rfl hc₂
    exact ⟨rfl, hc₂⟩

/-- A class is read from both sources, or from neither. -/
theorem read_widened (trivia : Trivia) (h : c.Alike c') :
    Agrees (fun d d' => d' = d.mapValues widened) (read trivia c) (read trivia c') := by
  unfold read
  obtain ⟨hmodifiers, hc₁⟩ := readModifiers_widened h
  simp only [← hmodifiers]
  refine (hc₁.takeWord "class").bind ?_
  rintro _ c₂ h₂ _ c₂' h₂' - hc₂
  refine hc₂.takeName.bind ?_
  rintro name c₃ h₃ _ c₃' h₃' rfl hc₃
  refine (readParent_widened hc₃).bind ?_
  rintro parent c₄ h₄ _ c₄' h₄' rfl hc₄
  refine (readInterfaces_widened hc₄).bind ?_
  rintro interfaces c₅ h₅ _ c₅' h₅' rfl hc₅
  refine (hc₅.take .leftBrace).bind ?_
  rintro _ c₆ h₆ _ c₆' h₆' - hc₆
  refine (Member.readAll_widened hc₆).bind ?_
  rintro members c₇ h₇ _ c₇' h₇' rfl hc₇
  have hclosing : Expr.commentTexts c₇'.head.comments = Expr.commentTexts c₇.head.comments :=
    hc₇.commentTexts
  refine (hc₇.take .rightBrace).bind ?_
  rintro _ c₈ h₈ _ c₈' h₈' - hc₈
  obtain ⟨htrivia, hc₉⟩ := hc₈.finish trivia
  refine ⟨?_, hc₉⟩
  simp [← htrivia, hclosing, mapValues]

end ClassDecl

end ClassEdit
