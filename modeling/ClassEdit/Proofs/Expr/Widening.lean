import ClassEdit.Expr.Parser
import ClassEdit.Proofs.Widening

/-!
Reading expressions from two sources of which one has a carriage return before each newline.
`widened` is the expression that is read there: a string literal has its carriage returns, and all
else is the same. Main statement: an expression is read from both sources or from neither, and the
second is the first one widened.
-/

namespace ClassEdit

open LineEnding (widen)

namespace Quoted

theorem holdsVariable_skip {c : Char} {r : List Char} (h : c ≠ '\\') (hd : c ≠ '$')
    (hb : c = '\x7b' → r.head? ≠ some '$') : holdsVariable (c :: r) = holdsVariable r := by
  rw [holdsVariable]
  · rintro d s rfl
    exact absurd rfl h
  · rintro d s rfl
    exact absurd rfl hd
  · rintro s rfl rfl
    exact hb rfl rfl

theorem holdsVariable_last (cut : Bool) (c : Char) : holdsVariable (c :: pending cut) = false := by
  by_cases h : c = '\\'
  · subst h
    cases cut <;> rfl
  by_cases hd : c = '$'
  · subst hd
    cases cut <;> rfl
  rw [holdsVariable_skip h hd (by cases cut <;> simp [pending])]
  cases cut <;> rfl

/-- A carriage return before a newline, or at the end, hides no variable and shows none. -/
theorem holdsVariable_widen (cut : Bool) (cs : List Char) :
    holdsVariable (widen cs ++ pending cut) = holdsVariable cs := by
  fun_induction holdsVariable cs with
  | case1 c r ih =>
      by_cases hc : c = '\n'
      · subst hc
        exact ih
      · rw [LineEnding.widen_cons (by decide), LineEnding.widen_cons hc]
        exact ih
  | case2 c r ih =>
      rw [LineEnding.widen_cons (by decide)]
      by_cases hc : c = '\n'
      · subst hc
        exact ih
      · rw [LineEnding.widen_cons hc] at ih ⊢
        simp only [List.cons_append] at ih ⊢
        simp [holdsVariable, ih]
  | case3 r => rfl
  | case4 c r hslash hdollar hbrace ih =>
      by_cases hc : c = '\n'
      · subst hc
        exact ih
      rw [LineEnding.widen_cons hc, List.cons_append]
      cases r with
      | nil => exact holdsVariable_last cut c
      | cons d s =>
          rw [holdsVariable_skip (fun h => hslash d s h rfl) (fun h => hdollar d s h rfl), ih]
          intro h
          have hd : d ≠ '$' := fun hd => hbrace s h (hd ▸ rfl)
          by_cases hn : d = '\n'
          · subst hn
            simp
          · simpa [LineEnding.widen_cons hn] using hd
  | case5 => cases cut <;> rfl

/-- Cutting off a newline at the end leaves its carriage return. -/
theorem dropLast_widen (cs : List Char) :
    ∃ cut, (widen cs).dropLast = widen cs.dropLast ++ pending cut := by
  rcases List.eq_nil_or_concat cs with rfl | ⟨r, c, rfl⟩
  · exact ⟨false, rfl⟩
  · rw [List.concat_eq_append, LineEnding.widen_append, List.dropLast_concat]
    by_cases hc : c = '\n'
    · subst hc
      exact ⟨true, by rw [LineEnding.widen_newline, List.dropLast_append_cons]; rfl⟩
    · refine ⟨false, ?_⟩
      rw [LineEnding.widen_cons hc, LineEnding.widen_nil, List.dropLast_concat]
      simp [pending]

/-- Carriage returns before newlines make no variable in a string. -/
theorem isInterpolated_widen (cs : List Char) : isInterpolated (widen cs) = isInterpolated cs := by
  cases cs with
  | nil => rfl
  | cons c r =>
    by_cases hc : c = '\n'
    · subst hc
      rfl
    · obtain ⟨cut, hlast⟩ := dropLast_widen r
      have hbody : holdsVariable (body (widen (c :: r))) = holdsVariable (body (c :: r)) := by
        rw [LineEnding.widen_cons hc, body, body, List.tail_cons, List.tail_cons, hlast,
          holdsVariable_widen]
      unfold isInterpolated
      rw [hbody, LineEnding.widen_cons hc]
      rfl

end Quoted

namespace Expr

/-- The spelling of a literal in a source with a carriage return before each newline. No literal
that was read begins with a newline. -/
def respelled (spelling : String) : String :=
  if spelling.toList.head? = some '\n' then spelling else widenText spelling

mutual

def widened : Expr → Expr
  | .string _ (some spelling) =>
    .string (String.ofList (Quoted.value (respelled spelling).toList)) (some (respelled spelling))
  | .array literal => .array (widenedArray literal)
  | e => e

def widenedArray : ArrayLiteral → ArrayLiteral
  | ⟨items, long, multiline, closing⟩ => ⟨widenedItems items, long, multiline, closing⟩

def widenedItems : List ArrayItem → List ArrayItem
  | [] => []
  | item :: items => widenedItem item :: widenedItems items

def widenedItem : ArrayItem → ArrayItem
  | ⟨comments, key, value, byRef, spread, trailing⟩ =>
    let key := match key with
      | some key => some (widened key)
      | none => none
    ⟨comments, key, widened value, byRef, spread, trailing⟩

end

theorem respelled_of_clean {cs : List Char} (hclean : '\r' ∉ cs) (hbegins : cs.head? ≠ some '\n') :
    respelled (String.ofList cs) = String.ofList (widen cs) := by
  rw [respelled, String.toList_ofList, if_neg hbegins, widenText_of_clean hclean]

abbrev IsWidened (e e' : Expr) : Prop := e' = e.widened

variable {c c' : Cursor} {cut : Bool}

/-- An expression that is kept as text has the same number of tokens in both sources. -/
theorem rawLength_widened {eof eof' : Token} (closers : List TokenKind) {ts ts' : List Token}
    (h : Token.Chain cut ts ts') :
    Agree Eq (rawLength eof closers ts) (rawLength eof' closers ts') := by
  induction h generalizing closers with
  | nil =>
      unfold rawLength
      split <;> trivial
  | @cons _ t t' ts ts' ht _ ih =>
      unfold rawLength
      rw [ht.kind]
      split
      next => rfl
      next =>
        split
        next => exact (ih _).map (congrArg (· + 1))
        next =>
          split
          next => exact (ih _).map (congrArg (· + 1))
          next =>
            cases closers with
            | nil => rfl
            | cons closer outer =>
                dsimp only
                split
                next => trivial
                next => exact (ih _).map (congrArg (· + 1))

/-- An expression that is kept as text has the same text from both sources. -/
theorem readRaw_widened (h : c.Alike c') : Agrees IsWidened (readRaw c) (readRaw c') := by
  have ⟨cut, hcut⟩ := h
  unfold readRaw
  refine Agree.bind (rawLength_widened [] hcut.ahead) ?_
  rintro n _ rfl
  by_cases hn : n = 0
  · simp only [if_pos hn]
    trivial
  · simp only [if_neg hn]
    obtain ⟨hs, hs'⟩ | ⟨ts, c₁, h₁, ts', c₁', h₁', hs, hs', ⟨_, hts⟩, hc₁⟩ :=
      (h.takeMore? (n - 1)).cases <;>
      simp only [hs, hs']
    · trivial
    · exact ⟨congrArg Expr.raw hts.excerptOf_eq, hc₁⟩

theorem negated?_widened {t t' : Token} (h : t.Widened cut t') : negated? t' = negated? t := by
  have hline (hk : t.kind.spansLines = false) := h.text_eq hk
  unfold negated? Lexeme.string
  rw [h.kind]
  cases hk : t.kind <;> simp [hk, TokenKind.spansLines] at hline ⊢ <;> simp [hline]

/-- A literal that is no string is the same in both sources. -/
theorem negated?_isWidened {t : Token} {e : Expr} (h : negated? t = some e) : IsWidened e e := by
  unfold negated? at h
  split at h
  next =>
    obtain ⟨n, -, rfl⟩ := Option.map_eq_some_iff.1 h
    rfl
  next =>
    cases h
    rfl
  next => cases h

theorem quoted_widened {t t' : Token} (h : t.Widened cut t') (hk : t.kind = .quoted) :
    IsWidened (.string (String.ofList (Quoted.value t.text)) (some t.string))
      (.string (String.ofList (Quoted.value t'.text)) (some t'.string)) := by
  have hspelling : respelled t.string = t'.string := by
    rw [Lexeme.string, respelled_of_clean h.clean_text (h.begins (by rw [hk]; decide)),
      ← h.text_widen, Lexeme.string]
  rw [IsWidened, widened, hspelling, Lexeme.string, String.toList_ofList]

/-- A string is widened, and every other scalar is the same in both sources. -/
theorem scalar?_widened (h : c.Alike c') : Finds IsWidened (scalar? c) (scalar? c') := by
  unfold scalar?
  obtain ⟨hs, hs'⟩ | ⟨t, c₁, h₁, t', c₁', h₁', hs, hs', ⟨cut, ht⟩, hc₁⟩ :=
    h.next?.cases <;> simp only [hs, hs']
  · exact .none
  have hline (hk : t.kind.spansLines = false) := ht.text_eq hk
  have hstring (hk : t.kind.spansLines = false) := ht.string_eq hk
  rw [ht.kind]
  split
  next hk =>
    rw [ht.text_widen, Quoted.isInterpolated_widen, ← ht.text_widen]
    split
    next => exact .none
    next => exact .some ⟨quoted_widened ht hk, hc₁⟩
  next hk =>
    rw [hline (by rw [hk]; rfl), hstring (by rw [hk]; rfl)]
    cases NumberLiteral.readInteger t.text with
    | none => exact .none
    | some n => exact .some ⟨rfl, hc₁⟩
  next hk =>
    rw [hline (by rw [hk]; rfl), hstring (by rw [hk]; rfl)]
    exact .some ⟨rfl, hc₁⟩
  next hk =>
    rw [hstring (by rw [hk]; rfl)]
    exact .some ⟨rfl, hc₁⟩
  next hk =>
    obtain ⟨hs, hs'⟩ | ⟨u, c₂, h₂, u', c₂', h₂', hs, hs', ⟨cut, hu⟩, hc₂⟩ := hc₁.next?.cases <;>
      simp only [hs, hs', Option.bind]
    · exact .none
    · rw [negated?_widened hu]
      cases he : negated? u with
      | none => exact .none
      | some e => exact .some ⟨negated?_isWidened he, hc₂⟩
  next => exact .none

theorem arrayOpening?_widened (h : c.Alike c') : Finds Eq (arrayOpening? c) (arrayOpening? c') := by
  unfold arrayOpening?
  obtain ⟨hs, hs'⟩ | ⟨_, c₁, h₁, _, c₁', h₁', hs, hs', -, hc₁⟩ := (h.take? .leftBracket).cases <;>
    simp only [hs, hs']
  · obtain ⟨hs, hs'⟩ | ⟨_, c₁, h₁, _, c₁', h₁', hs, hs', -, hc₁⟩ := (h.takeWord? "array").cases <;>
      simp only [hs, hs', Option.bind]
    · exact .none
    · obtain ⟨hs, hs'⟩ | ⟨_, c₂, h₂, _, c₂', h₂', hs, hs', -, hc₂⟩ :=
        (hc₁.take? .leftParen).cases <;>
        simp only [hs, hs', Option.map]
      · exact .none
      · exact .some ⟨rfl, hc₂⟩
  · exact .some ⟨rfl, hc₁⟩

theorem widenedItems_eq_map (items : List ArrayItem) :
    widenedItems items = items.map widenedItem := by
  induction items with
  | nil => rfl
  | cons item items ih => rw [widenedItems, List.map_cons, ih]

theorem arrayLiteral_widened (long onNewLine : Bool) (items : List ArrayItem)
    (closing : List String) :
    arrayLiteral long onNewLine (widenedItems items) closing =
      widenedArray (arrayLiteral long onNewLine items closing) := by
  have hcomments (item : ArrayItem) :
      (!(widenedItem item).comments.isEmpty || (widenedItem item).trailing.isSome) =
        (!item.comments.isEmpty || item.trailing.isSome) := by
    cases item
    rfl
  simp only [arrayLiteral, widenedArray, widenedItems_eq_map, List.any_map,
    Function.comp_def, hcomments]

mutual

/-- An expression is read from both sources, or from neither. -/
theorem read_widened {c c' : Cursor} (h : c.Alike c') : Agrees IsWidened (read c) (read c') := by
  rw [read, read]
  refine Agree.bind (readLiteral_widened h) ?_
  rintro s s' hs
  obtain ⟨rfl, rfl⟩ | ⟨e, c₁, h₁, e', c₁', h₁', rfl, rfl, he, hc₁⟩ := hs.cases
  · exact readRaw_widened h
  · dsimp only
    rw [hc₁.kind]
    split
    · exact ⟨he, hc₁⟩
    · exact readRaw_widened h
termination_by 4 * c.size + 1

/-- A literal is found in both sources or in neither, and it differs in its strings alone. -/
theorem readLiteral_widened {c c' : Cursor} (h : c.Alike c') :
    Agree (Finds IsWidened) (readLiteral c) (readLiteral c') := by
  rw [readLiteral, readLiteral]
  obtain ⟨hs, hs'⟩ | ⟨⟨closer, long⟩, c₁, h₁, _, c₁', h₁', hs, hs', rfl, hc₁⟩ :=
    (arrayOpening?_widened h).cases <;>
    simp only [hs, hs']
  · exact scalar?_widened h
  · refine Agree.bind (readItems_widened closer hc₁) ?_
    rintro ⟨⟨items, closing⟩, c₂, h₂⟩ ⟨_, c₂', h₂'⟩ ⟨rfl, hc₂⟩
    refine .some ⟨?_, hc₂⟩
    rw [IsWidened, hc₁.isOnNewLine]
    exact congrArg Expr.array (arrayLiteral_widened ..)
termination_by 4 * c.size + 0

/-- The items of a widened source are the widened items. -/
theorem readItems_widened (closer : TokenKind) {c c' : Cursor} (h : c.Alike c') :
    Agrees (fun x x' => x' = (widenedItems x.1, x.2)) (readItems closer c)
      (readItems closer c') := by
  rw [readItems, readItems]
  have hcomments : commentTexts c'.head.comments = commentTexts c.head.comments := h.commentTexts
  simp only [hcomments]
  obtain ⟨hs, hs'⟩ | ⟨_, c₁, h₁, _, c₁', h₁', hs, hs', -, hc₁⟩ := (h.take? closer).cases <;>
    simp only [hs, hs']
  · rw [h.isEmpty]
    split
    · trivial
    · refine (readItem_widened h).bind ?_
      rintro item c₁ h₁ _ c₁' h₁' rfl hc₁
      obtain ⟨hs, hs'⟩ | ⟨_, c₂, h₂, _, c₂', h₂', hs, hs', -, hc₂⟩ := (hc₁.take? .comma).cases <;>
        simp only [hs, hs']
      · have hclosing : commentTexts c₁'.head.comments = commentTexts c₁.head.comments :=
          hc₁.commentTexts
        refine (hc₁.take closer).bind ?_
        rintro _ c₂ h₂ _ c₂' h₂' - hc₂
        rw [hclosing]
        cases item
        exact ⟨rfl, hc₂⟩
      · obtain ⟨hcomment, hc₃⟩ := hc₂.sameLineComment
        have h₃ := c₂.sameLineComment.progress
        rw [hcomment]
        refine (readItems_widened closer hc₃).bind ?_
        rintro ⟨items, closing⟩ c₄ h₄ _ c₄' h₄' rfl hc₄
        cases item
        exact ⟨rfl, hc₄⟩
  · exact ⟨rfl, hc₁⟩
termination_by 4 * c.size + 3

/-- An item of a widened source is the widened item. -/
theorem readItem_widened {c c' : Cursor} (h : c.Alike c') :
    Agrees (fun item item' => item' = widenedItem item) (readItem c) (readItem c') := by
  rw [readItem, readItem]
  obtain ⟨hs, hs'⟩ | ⟨_, c₁, h₁, _, c₁', h₁', hs, hs', -, hc₁⟩ := (h.take? .ellipsis).cases <;>
    simp only [hs, hs']
  · obtain ⟨hbyRef, hc₁⟩ := h.accept .ampersand
    rw [← hbyRef]
    have h₁ := (c.accept .ampersand).progress
    refine (read_widened hc₁).bind ?_
    rintro first c₂ h₂ _ c₂' h₂' rfl hc₂
    cases (c.accept .ampersand).value with
    | true => exact ⟨rfl, hc₂⟩
    | false =>
        obtain ⟨hs, hs'⟩ | ⟨_, c₃, h₃, _, c₃', h₃', hs, hs', -, hc₃⟩ := (hc₂.take? .arrow).cases <;>
          simp only [hs, hs', Bool.false_eq_true, if_false]
        · exact ⟨rfl, hc₂⟩
        · obtain ⟨hbyRef, hc₄⟩ := hc₃.accept .ampersand
          have h₄ := (c₃.accept .ampersand).progress
          rw [← hbyRef]
          refine (read_widened hc₄).bind ?_
          rintro value c₅ h₅ _ c₅' h₅' rfl hc₅
          exact ⟨rfl, hc₅⟩
  · refine (read_widened hc₁).bind ?_
    rintro value c₂ h₂ _ c₂' h₂' rfl hc₂
    exact ⟨rfl, hc₂⟩
termination_by 4 * c.size + 2

end

end Expr

end ClassEdit
