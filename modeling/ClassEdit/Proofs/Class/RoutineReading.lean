import ClassEdit.Proofs.Class.MemberReading

/-!
Routines are read as they are written: parameters on one line or on lines of their own, a type
behind a colon, and a body without statements in each of its three places.
-/

namespace ClassEdit

open Scan (isName Stops IsToken)

/-- A mark that may be left out, before a text that does not begin with it. -/
theorem shows_accept (b : Bool) {k : TokenKind} {x rest : List Char} {P : Cursor → Prop}
    (h : Shows rest P) (hx : IsToken k x rest) (hmode : Scan.modeAfter k = .code)
    (hk : k ≠ .comment) (hP : ∀ c, P c → c.head.kind ≠ k) :
    Shows ((if b then x else []) ++ rest) fun c => ∃ c' hc, c.accept k = ⟨b, c', hc⟩ ∧ P c' ∧
      (c = c' ∨ (c.head.kind = k ∧ c.second = c'.head)) := by
  intro gap hgap
  cases b with
  | false =>
    refine (h gap hgap).mono ?_
    rintro c ⟨hg, hco, hc⟩
    exact ⟨hg, hco, c, _, Cursor.accept_eq_false (hP c hc), hc, .inl rfl⟩
  | true =>
    refine ((h [] (by simp)).token hgap hx hmode hk).mono ?_
    rintro _ ⟨p, c, rfl, -, -, hc⟩
    exact ⟨rfl, rfl, c, _, Cursor.accept_push rfl, hc, .inr ⟨rfl, rfl⟩⟩

namespace Member

variable {layout : Layout} {margin : String}
  (hindent : ∀ d ∈ layout.indent.toList, isBlank d = true)
  (hmargin : ∀ d ∈ margin.toList, isBlank d = true)

theorem takeAttributes_none {c : Cursor} (h : c.head.kind ≠ .attributeOpen) :
    c.takeAttributes = .ok ⟨[], c, Nat.le_refl _⟩ := by
  rw [Cursor.takeAttributes, Cursor.isAt, beq_eq_false_iff_ne.2 h]
  rfl

/-- A parameter behind its type. -/
def ReadsTail (c : Cursor) (p : Param) (c' : Cursor) : Prop :=
  ∃ c₁ h₁ c₂ h₂ c₃ h₃, c.accept .ampersand = ⟨p.byRef, c₁, h₁⟩ ∧
    c₁.accept .ellipsis = ⟨p.variadic, c₂, h₂⟩ ∧ c₂.takeVariable = .ok ⟨p.name, c₃, h₃⟩ ∧
    Reads readDefault c₃ p.default c'

def BeginsTail (c : Cursor) : Prop :=
  c.head.kind = .var ∨ c.head.kind = .ellipsis ∨
    (c.head.kind = .ampersand ∧ (c.second.kind = .var ∨ c.second.kind = .ellipsis))

def tailText (layout : Layout) (margin : String) (p : Param) : List Char :=
  (if p.byRef then ['&'] else []) ++ ((if p.variadic then ['.', '.', '.'] else []) ++
    (('$' :: p.name.toList) ++ (assigned layout margin p.default).toList))

include hindent hmargin in
/-- What is written of a parameter behind its type is read as it was, with its default spelled. -/
theorem shows_tail {p : Param} (hp : p.IsPlain) {follow : List Char} {P : Cursor → Prop}
    (hf : Stops follow) (hP : ∀ c, P c → c.head.kind.endsExpr = true) (hA : Ahead follow P) :
    Shows (tailText layout margin p ++ follow) fun c =>
      BeginsTail c ∧ ∃ c', ReadsTail c (p.mapValue Expr.spelled) c' ∧ P c' := by
  obtain ⟨hstops, hdefault⟩ := ahead_assigned hindent hmargin hp.default hf hP hA
  have hname :
      Shows (('$' :: p.name.toList) ++ ((assigned layout margin p.default).toList ++ follow))
      fun c => c.head.kind = .var ∧ ∃ c₃ h₃ c', c.takeVariable = .ok ⟨p.name, c₃, h₃⟩ ∧
        Reads readDefault c₃ (p.default.map Expr.spelled) c' ∧ P c' := by
    intro gap hgap
    refine (hdefault.token hgap (Scan.isToken_var hp.name hstops) rfl (by decide)).mono ?_
    rintro _ ⟨q, c, rfl, c', hread, hc⟩
    exact ⟨rfl, rfl, rfl, c, c.size_push _, c', by simp, hread, hc⟩
  have hvariadic : Shows ((if p.variadic then ['.', '.', '.'] else []) ++
      (('$' :: p.name.toList) ++ ((assigned layout margin p.default).toList ++ follow)))
      fun c => (c.head.kind = .var ∨ c.head.kind = .ellipsis) ∧ ∃ c₂ h₂ c₃ h₃ c',
        c.accept .ellipsis = ⟨p.variadic, c₂, h₂⟩ ∧ c₂.takeVariable = .ok ⟨p.name, c₃, h₃⟩ ∧
          Reads readDefault c₃ (p.default.map Expr.spelled) c' ∧ P c' := by
    refine (shows_accept p.variadic hname (Scan.isToken_ellipsis _) rfl (by decide)
      (by rintro c ⟨hvar, -⟩; simp [hvar])).mono ?_
    rintro c ⟨c₂, h₂, hellipsis, ⟨hvar, c₃, h₃, c', hread⟩, hc⟩
    refine ⟨?_, c₂, h₂, c₃, h₃, c', hellipsis, hread⟩
    rcases hc with rfl | ⟨hc, -⟩
    · exact .inl hvar
    · exact .inr hc
  have hbyRef := shows_accept p.byRef hvariadic (k := .ampersand) (x := ['&'])
    (Scan.isToken_ampersand (by cases p.variadic <;> simp)) rfl (by decide)
    (by rintro c ⟨h | h, -⟩ <;> simp [h])
  simp only [tailText, List.append_assoc]
  refine hbyRef.mono ?_
  rintro c ⟨c₁, h₁, hamp, ⟨hkind, c₂, h₂, c₃, h₃, c', hellipsis, hvar, hread, hc⟩, hcase⟩
  refine ⟨?_, c', ⟨c₁, h₁, c₂, h₂, c₃, h₃, hamp, hellipsis, hvar, hread⟩, hc⟩
  rcases hcase with rfl | ⟨hk, hsecond⟩
  · exact hkind.elim .inl fun h => .inr (.inl h)
  · exact .inr (.inr ⟨hk, hsecond ▸ hkind⟩)

/-- A parameter is read as its modifiers, its type and what stands behind that. -/
theorem reads_param {c c₁ c₂ c' : Cursor} {p : Param} (hattributes : p.attributes = [])
    (hc : c.head.kind ≠ .attributeOpen) (hmodifiers : Modifiers.ReadsOn .empty c p.modifiers c₁)
    (htype : ∃ h, readTypeUnless (c₁.isAt .var || c₁.isAt .ampersand || c₁.isAt .ellipsis) c₁ =
      .ok ⟨p.type, c₂, h⟩) (htail : ReadsTail c₂ p c') : Reads readParam c p c' := by
  obtain ⟨hsize, hmodifiers⟩ := hmodifiers.eq
  obtain ⟨htypeSize, htype⟩ := htype
  obtain ⟨c₃, h₃, c₄, h₄, c₅, h₅, hbyRef, hvariadic, hname, hdefault⟩ := htail
  obtain ⟨hdefaultSize, hdefault⟩ := hdefault.eq_ok
  rw [Reads, readParam, takeAttributes_none hc]
  simp only [ok_bind]
  generalize hs : Modifiers.read c = s
  rw [hmodifiers] at hs
  subst hs
  simp only [htype, ok_bind]
  generalize hs : c₂.accept .ampersand = s
  rw [hbyRef] at hs
  subst hs
  simp only
  generalize hs : c₃.accept .ellipsis = s
  rw [hvariadic] at hs
  subst hs
  simp [hname, hdefault, ← hattributes]

theorem BeginsTail.joint?_eq_none {c : Cursor} (h : BeginsTail c) : TypeText.joint? c = none := by
  rcases h with h | h | ⟨h, hsecond⟩
  · exact TypeText.joint?_eq_none (by simp [h]) (by simp [h])
  · exact TypeText.joint?_eq_none (by simp [h]) (by simp [h])
  · exact TypeText.joint?_eq_none (by simp [h]) fun _ => hsecond

/-- The text of a plain parameter: modifiers, type, and what stands behind it. -/
theorem toList_text_param {p : Param} (hp : p.IsPlain) : (p.text layout margin).toList =
    p.modifiers.text.toList ++ ((spaced p.type).toList ++ tailText layout margin p) := by
  have hmodifiers : spaced (p.modifiers.visibility.map Visibility.keyword) ++
      (if p.modifiers.isReadonly then "readonly " else "") = p.modifiers.text := by
    rw [hp.modifiers]
    generalize p.modifiers.visibility = visibility
    generalize p.modifiers.isReadonly = isReadonly
    rcases visibility with _ | _ | _ | _ <;> cases isReadonly <;> rfl
  have htext : p.text layout margin = (spaced (p.modifiers.visibility.map Visibility.keyword) ++
      (if p.modifiers.isReadonly then "readonly " else "")) ++ spaced p.type ++
        String.ofList (tailText layout margin p) := by
    rw [Param.text, hp.attributes, tailText]
    cases p.byRef <;> cases p.variadic <;> simp [← String.toList_inj]
  rw [htext, hmodifiers]
  simp

include hindent hmargin in
/-- A parameter is read back with its default spelled. -/
theorem written_param {p : Param} (hp : p.IsPlain) :
    Written (fun c v c' => c.head.kind ≠ .rightParen ∧ Reads readParam c v c')
      (p.text layout margin)
      (p.mapValue Expr.spelled) (fun _ => True) fun c => c.head.kind.endsExpr = true := by
  intro follow P hf hlast hA
  have htail := shows_tail hindent hmargin hp hf hlast hA
  have htype := shows_spaced hp.type htail fun c hc => hc.1.joint?_eq_none
  have hplain : p.modifiers.IsPlain := by
    rw [hp.modifiers]
    intro h
    cases h
  have hmodifiers := Modifiers.shows_text hplain htype ?_
  · intro gap hgap
    rw [toList_text_param hp]
    simp only [List.append_assoc]
    refine (hmodifiers gap hgap).mono ?_
    rintro c ⟨hg, hco, hhead, c₁, hmods, hc⟩
    have hparen : c.head.kind ≠ .rightParen ∧ c.head.kind ≠ .attributeOpen := by
      rcases hhead with ⟨w, -, hw, -⟩ | ⟨-, ⟨-, h, -⟩ | ⟨x, -, h, -⟩⟩
      · simp [hw]
      · rcases h with h | h | ⟨h, -⟩ <;> simp [h]
      · rcases h with h | h | ⟨h, -⟩ <;> simp [h]
    obtain ⟨hparen, hattr⟩ := hparen
    rcases hc with ⟨hnone, hbegin, c', hread, hc⟩ | ⟨x, hsome, hfirst, c₂, htype, -, c', hread, hc⟩
    · have habsent : (c₁.isAt .var || c₁.isAt .ampersand || c₁.isAt .ellipsis) = true := by
        rcases hbegin with h | h | ⟨h, -⟩ <;> simp [Cursor.isAt, h]
      have htype : (p.mapValue Expr.spelled).type = none := hnone
      refine ⟨hg, hco, trivial, c',
        ⟨hparen, reads_param hp.attributes hattr hmods ⟨Nat.le_refl _, ?_⟩ hread⟩, hc⟩
      rw [habsent, htype, readTypeUnless_true]
    · have hpresent : (c₁.isAt .var || c₁.isAt .ampersand || c₁.isAt .ellipsis) = false := by
        rcases hfirst with h | h | ⟨h, -⟩ <;> simp [Cursor.isAt, h]
      obtain ⟨hsize, htype⟩ := readTypeUnless_false htype
      refine ⟨hg, hco, trivial, c',
        ⟨hparen, reads_param hp.attributes hattr hmods ⟨hsize, ?_⟩ hread⟩, hc⟩
      have hx : (p.mapValue Expr.spelled).type = some x := hsome
      rw [hpresent, hx, htype]
  · intro c hc
    refine Modifiers.add?_eq_none_of_isMemberWord fun hword => ?_
    rcases hc with ⟨-, h, -⟩ | ⟨x, -, h, -⟩
    · rcases h with h | h | ⟨h, -⟩ <;> simp [h] at hword
    · rcases h with h | h | ⟨-, h⟩
      · simp [h] at hword
      · simp [h] at hword
      · exact h

def ReadsParams (c : Cursor) (ps : List Param) (c' : Cursor) : Prop :=
  c.head.kind ≠ .rightParen ∧ Reads readParams c ps c'

theorem reads_params_nil {c : Cursor} (hc : c.head.kind = .rightParen) :
    Reads readParams c [] c := by
  rw [Reads, readParams, Cursor.isAt, hc]
  rfl

theorem reads_params_last {c c' : Cursor} {p : Param} (hc : c.head.kind ≠ .rightParen)
    (hread : Reads readParam c p c') (hc' : c'.head.kind ≠ .comma) : Reads readParams c [p] c' := by
  obtain ⟨hsize, hread⟩ := hread.eq_ok
  rw [Reads, readParams, Cursor.isAt, beq_eq_false_iff_ne.2 hc]
  simp [hread, Cursor.take?_eq_none hc']

theorem reads_params_cons {c c' c'' : Cursor} {t : Token} {p : Param} {ps : List Param}
    (hc : c.head.kind ≠ .rightParen) (hread : Reads readParam c p (c'.push t))
    (ht : t.kind = .comma) (hrest : Reads readParams c' ps c'') :
    Reads readParams c (p :: ps) c'' := by
  obtain ⟨hsize, hread⟩ := hread.eq_ok
  obtain ⟨hsize', hrest⟩ := hrest.eq_ok
  rw [Reads, readParams, Cursor.isAt, beq_eq_false_iff_ne.2 hc]
  simp [hread, ht, hrest]

/-- The parameters on lines of their own, up to the parenthesis behind them. -/
def paramLines (layout : Layout) (margin : String) (ps : List Param) : List Char :=
  '\n' ::
    (String.join
      (ps.map fun p => margin ++ layout.indent ++ p.text layout margin ++ ",\n")).toList ++
    margin.toList

theorem paramLines_cons (p : Param) (ps : List Param) : paramLines layout margin (p :: ps) =
    ('\n' :: (margin.toList ++ layout.indent.toList)) ++ ((p.text layout margin).toList ++ ([','] ++
      paramLines layout margin ps)) := by
  simp [paramLines]

include hindent hmargin in
/-- Parameters on lines of their own are read back, up to the closing parenthesis. -/
theorem ahead_paramLines {ps : List Param} (hps : ∀ p ∈ ps, p.IsPlain) {follow : List Char}
    {P : Cursor → Prop} (hA : Ahead follow P) :
    Ahead (paramLines layout margin ps ++ ([')'] ++ follow)) fun c =>
      c.head.isOnNewLine = true ∧ (ps ≠ [] → c.head.kind ≠ .rightParen) ∧
        ∃ c' t, t.kind = .rightParen ∧
        Reads readParams c (ps.map (·.mapValue Expr.spelled)) (c'.push t) ∧ P c' := by
  have hblank : ∀ {cs : List Char}, (∀ d ∈ cs, isBlank d = true) →
      ∀ d ∈ '\n' :: cs, isBlank d = true :=
    fun h => List.forall_mem_cons.2 ⟨rfl, h⟩
  induction ps with
  | nil =>
    have hgap : paramLines layout margin [] = '\n' :: margin.toList := by simp [paramLines]
    rw [hgap]
    refine (hA.token (hblank hmargin) (Scan.isToken_rightParen follow) rfl (by decide)).mono ?_
    rintro _ ⟨q, c, rfl, hc⟩
    exact ⟨rfl, by simp, c, _, rfl, reads_params_nil rfl, hc⟩
  | cons p ps ih =>
    have hrest := (ih fun q hq => hps q (by simp [hq])).mark (Scan.isToken_comma _) rfl (by decide)
    have hinner : ∀ d ∈ margin.toList ++ layout.indent.toList, isBlank d = true := by
      intro d hd
      exact (List.mem_append.1 hd).elim (hmargin d) (hindent d)
    have hp := written_param hindent hmargin (hps p (by simp)) _ _ (Scan.stops_comma _)
      (by rintro _ ⟨q, c, rfl, -⟩; rfl) hrest _ (hblank hinner)
    rw [paramLines_cons]
    simp only [List.append_assoc]
    refine hp.mono ?_
    rintro c ⟨hg, -, -, _, ⟨hparen, hread⟩, q, c', rfl, -, -, c'', t, ht, hrest, hc⟩
    refine ⟨?_, fun _ => hparen, c'', t, ht, reads_params_cons hparen hread rfl hrest, hc⟩
    rw [Token.isOnNewLine, Lexeme.isOnNewLine, hg]
    rfl

def ReadsList (c : Cursor) (multiline : Bool) (ps : List Param) (c' : Cursor) : Prop :=
  ∃ t c₁ u, c = Cursor.push c₁ t ∧ t.kind = .leftParen ∧ u.kind = .rightParen ∧
    (!c₁.isAt .rightParen && c₁.head.isOnNewLine) = multiline ∧ Reads readParams c₁ ps (c'.push u)

include hindent hmargin in
/-- Parameters are read back with the layout in which they were written. -/
theorem ahead_params {r : Routine} (hr : r.IsPlain) {follow : List Char} {P : Cursor → Prop}
    (hA : Ahead follow P) :
    Ahead ((r.paramsText layout margin).toList ++ follow) fun c => ∃ c',
      ReadsList c (r.paramsMultiline && !r.params.isEmpty)
        (r.params.map (·.mapValue Expr.spelled)) c' ∧
        P c' := by
  by_cases hlines : r.paramsMultiline && !r.params.isEmpty
  · have htext : (r.paramsText layout margin).toList ++ follow =
        ['('] ++ (paramLines layout margin r.params ++ ([')'] ++ follow)) := by
      have hcond : r.paramsMultiline && !(r.params.map (Param.text layout margin)).isEmpty := by
        simpa using hlines
      rw [Routine.paramsText]
      simp only [hcond, if_true]
      simp [paramLines, Function.comp_def]
    have hne : r.params ≠ [] := by
      simp only [Bool.and_eq_true, Bool.not_eq_true', List.isEmpty_eq_false_iff] at hlines
      exact hlines.2
    rw [htext, hlines]
    refine ((ahead_paramLines hindent hmargin hr.params hA).mark (Scan.isToken_leftParen _) rfl
      (by decide)).mono ?_
    rintro _ ⟨q, c, rfl, hline, hparen, c', t, ht, hread, hc⟩
    refine ⟨c', ⟨_, c, t, rfl, rfl, ht, ?_, hread⟩, hc⟩
    rw [hline, Cursor.isAt, beq_eq_false_iff_ne.2 (hparen hne)]
    rfl
  · have htext : (r.paramsText layout margin).toList ++ follow =
        ['('] ++ ((commaList (r.params.map (Param.text layout margin))).toList ++
          ([')'] ++ follow)) := by
      have hcond : ¬ (r.paramsMultiline && !(r.params.map (Param.text layout margin)).isEmpty) := by
        simpa using hlines
      rw [Routine.paramsText]
      simp only [hcond]
      simp
    have hclose := hA.mark (Scan.isToken_rightParen follow) rfl (by decide)
    have hparams : Ahead ((commaList (r.params.map (Param.text layout margin))).toList ++
        ([')'] ++ follow)) fun c => c.head.isOnNewLine = false ∧ ∃ c' t, t.kind = .rightParen ∧
          Reads readParams c (r.params.map (·.mapValue Expr.spelled)) (c'.push t) ∧ P c' := by
      by_cases hne : r.params = []
      · rw [hne]
        refine hclose.mono ?_
        rintro _ ⟨q, c, rfl, hc⟩
        exact ⟨rfl, c, _, rfl, reads_params_nil rfl, hc⟩
      · have hlist : Written ReadsParams (commaList (r.params.map (Param.text layout margin)))
            (r.params.map (·.mapValue Expr.spelled)) (fun _ => True)
            fun c => c.head.kind.endsExpr = true ∧ c.head.kind ≠ .comma := by
          refine written_commaList _ ?_ ?_ ?_ hne fun p hp =>
            written_param hindent hmargin (hr.params p hp)
          · rintro c c' v ⟨hc, hread⟩ hc'
            exact ⟨hc, reads_params_last hc hread hc'⟩
          · rintro c c' c'' t v vs ⟨hc, hread⟩ ht ⟨-, hrest⟩
            exact ⟨hc, reads_params_cons hc hread ht hrest⟩
          · intro c t ht
            simp [ht, TokenKind.endsExpr]
        refine (hlist _ _ (Scan.stops_cons.2 (by decide))
          (by rintro _ ⟨q, c, rfl, -⟩; exact ⟨rfl, by simp⟩) hclose [] (by simp)).mono ?_
        rintro c ⟨hg, hco, -, _, ⟨-, hread⟩, q, c', rfl, hc⟩
        refine ⟨?_, c', _, rfl, hread, hc⟩
        simp [Token.isOnNewLine, Lexeme.isOnNewLine, hg, hco]
    rw [htext, Bool.eq_false_iff.2 hlines]
    refine (hparams.mark (Scan.isToken_leftParen _) rfl (by decide)).mono ?_
    rintro _ ⟨q, c, rfl, hline, c', t, ht, hread, hc⟩
    refine ⟨c', ⟨_, c, t, rfl, rfl, ht, ?_, hread⟩, hc⟩
    rw [hline, Bool.and_false]

/-- Braces with nothing between them. -/
theorem block_empty {c : Cursor} {t u : Token} (ht : t.kind = .leftBrace)
    (hu : u.kind = .rightBrace) (hcomments : u.comments = []) :
    Reads Fragment.block ((c.push u).push t) [] c := by
  have hsplit : Fragment.split true true (c.push u) = .ok ⟨[], c.push u, Nat.le_refl _⟩ := by
    rw [Fragment.split]
    simp [hu, hcomments, Fragment.closing, Step.here]
  rw [Reads, Fragment.block]
  simp [ht, hu, hsplit]

/-- The text of a body without statements, or of no body. -/
def bodyText (margin : String) (place : BodyLayout) (body : Option (List InnerStmt)) : List Char :=
  match body, place with
  | none, _ => [';']
  | some _, .nextLine =>
      ('\n' :: margin.toList) ++ (['\x7b'] ++ (('\n' :: margin.toList) ++ ['\x7d']))
  | some _, .sameLine => [' '] ++ (['\x7b'] ++ (('\n' :: margin.toList) ++ ['\x7d']))
  | some _, .inline => [' '] ++ (['\x7b'] ++ ['\x7d'])

theorem toList_bodyText {r : Routine} (hbody : ∀ stmts ∈ r.body, stmts = []) :
    (match r.body with
      | some body => Routine.bodyText layout margin r.layout body
      | none => ";").toList = bodyText margin r.layout r.body := by
  cases hr : r.body with
  | none => cases r.layout <;> simp [bodyText]
  | some stmts =>
    cases hbody stmts hr
    cases r.layout <;> simp [bodyText, Routine.bodyText, InnerStmt.blockText]

theorem reads_body_block {c c' : Cursor} {t u : Token} (hc : c = (c'.push u).push t)
    (ht : t.kind = .leftBrace) (hu : u.kind = .rightBrace) (hcomments : u.comments = [])
    (httext : t.text = ['\x7b']) (hutext : u.text = ['\x7d']) :
    Reads readBody c (some [], if t.isOnNewLine then .nextLine else if u.isOnNewLine then .sameLine
      else .inline) c' := by
  subst hc
  obtain ⟨hsize, hread⟩ := (block_empty (c := c') ht hu hcomments).eq_ok
  have htokens : c'.ahead.length + 1 + 1 - c'.ahead.length = 2 := by omega
  rw [Reads, readBody]
  simp [ht, hread, httext, hutext, Cursor.size, htokens]

include hmargin in
/-- An empty body is read back with its layout, and so is one that is missing. -/
theorem ahead_body (place : BodyLayout) {body : Option (List InnerStmt)}
    (hbody : ∀ stmts ∈ body, stmts = []) {follow : List Char} {P : Cursor → Prop}
    (hA : Ahead follow P) :
    Stops (bodyText margin place body ++ follow) ∧
      Ahead (bodyText margin place body ++ follow) fun c =>
      (c.head.kind = .semicolon ∨ c.head.kind = .leftBrace) ∧
        ∃ c', Reads readBody c (body, if body.isNone then .nextLine else place) c' ∧ P c' := by
  have hblank : ∀ d ∈ '\n' :: margin.toList, isBlank d = true :=
    List.forall_mem_cons.2 ⟨rfl, hmargin⟩
  have hclose : ∀ gap, (∀ d ∈ gap, isBlank d = true) → Ahead (gap ++ (['\x7d'] ++ follow)) _ :=
    fun gap hgap => hA.token hgap (Scan.isToken_rightBrace follow) rfl (by decide)
  cases body with
  | none =>
    refine ⟨Scan.stops_cons.2 (by decide),
      (hA.mark (Scan.isToken_semicolon follow) rfl (by decide)).mono ?_⟩
    rintro _ ⟨p, c, rfl, hc⟩
    refine ⟨.inl rfl, c, ?_, hc⟩
    rw [Reads, readBody]
    simp
  | some stmts =>
    cases hbody stmts rfl
    cases place with
    | nextLine =>
      have hopen := (hclose _ hblank).token hblank (Scan.isToken_leftBrace _) rfl (by decide)
      simp only [bodyText, List.append_assoc]
      refine ⟨Scan.stops_cons.2 (by decide), hopen.mono ?_⟩
      rintro _ ⟨p, _, rfl, q, c, rfl, hc⟩
      exact ⟨.inr rfl, c, reads_body_block rfl rfl rfl rfl rfl rfl, hc⟩
    | sameLine =>
      have hopen := (hclose _ hblank).spaced (Scan.isToken_leftBrace _) rfl (by decide)
      simp only [bodyText, List.append_assoc]
      refine ⟨Scan.stops_cons.2 (by decide), hopen.mono ?_⟩
      rintro _ ⟨p, _, rfl, q, c, rfl, hc⟩
      exact ⟨.inr rfl, c, reads_body_block rfl rfl rfl rfl rfl rfl, hc⟩
    | inline =>
      have hopen := (hclose [] (by simp)).spaced (Scan.isToken_leftBrace _) rfl (by decide)
      simp only [bodyText, List.append_assoc]
      refine ⟨Scan.stops_cons.2 (by decide), hopen.mono ?_⟩
      rintro _ ⟨p, _, rfl, q, c, rfl, hc⟩
      exact ⟨.inr rfl, c, reads_body_block rfl rfl rfl rfl rfl rfl, hc⟩

/-- A type behind a colon, or nothing, before a body. -/
theorem ahead_returnType {type : Option String} (htype : TypeText.IsOptional type)
    {follow : List Char} {P : Cursor → Prop} (hf : Stops follow)
    (hP : ∀ c, P c → c.head.kind = .semicolon ∨ c.head.kind = .leftBrace) (hA : Ahead follow P) :
    Ahead ((type.elim "" (": " ++ ·)).toList ++ follow) fun c =>
      ∃ c₁ h₁ c₂ h₂, c.accept .colon = ⟨type.isSome, c₁, h₁⟩ ∧
        readTypeUnless (!type.isSome) c₁ = .ok ⟨type, c₂, h₂⟩ ∧ P c₂ := by
  cases type with
  | none =>
    refine hA.mono fun c hc => ⟨c, _, c, _, Cursor.accept_eq_false ?_, readTypeUnless_true c, hc⟩
    rcases hP c hc with h | h <;> simp [h]
  | some x =>
    have hx := TypeText.written_type (htype x rfl) follow P hf ?_ hA [' '] isBlank_space
    · have hcolon := hx.mark (Scan.isToken_colon _) rfl (by decide)
      have htext : ((some x).elim "" (": " ++ ·)).toList ++ follow =
          [':'] ++ ([' '] ++ (x.toList ++ follow)) := by simp
      rw [htext]
      refine hcolon.mono ?_
      rintro _ ⟨p, c, rfl, -, -, -, c', hread, hc⟩
      obtain ⟨hsize, hread⟩ := readTypeUnless_false hread
      exact ⟨c, _, c', hsize, Cursor.accept_push rfl, hread, hc⟩
    · intro c hc
      refine TypeText.joint?_eq_none ?_ ?_ <;> rcases hP c hc with h | h <;> simp [h]

/-- A routine is read if its parts are: the word, the mark, the name, the parameters,
the type and the body. -/
theorem reads_routine {c₁ c₂ c₃ c₄ c₅ c₆ c₇ : Cursor} {t u : Token} {r : Routine}
    (ht : t.isWord "function" = true) (hbyRef : ∃ h, c₁.accept .ampersand = ⟨r.byRef, c₂, h⟩)
    (hc₂ : c₂ = c₃.push u) (hu : u.kind = .word) (hname : u.string = r.name)
    (hparams : ReadsList c₃ r.paramsMultiline r.params c₄)
    (hcolon : ∃ h, c₄.accept .colon = ⟨r.returnType.isSome, c₅, h⟩)
    (htype : ∃ h, readTypeUnless (!r.returnType.isSome) c₅ = .ok ⟨r.returnType, c₆, h⟩)
    (hbody : Reads readBody c₆ (r.body, r.layout) c₇) :
    Reads (readRoutine r.modifiers) (c₁.push t) r c₇ := by
  obtain ⟨h₂, hbyRef⟩ := hbyRef
  obtain ⟨v, d, w, rfl, hv, hw, hline, hparams⟩ := hparams
  obtain ⟨hsize, hparams⟩ := hparams.eq_ok
  obtain ⟨h₅, hcolon⟩ := hcolon
  obtain ⟨h₆, htype⟩ := htype
  obtain ⟨hsize', hbody⟩ := hbody.eq_ok
  subst hc₂
  rw [Reads, readRoutine, Cursor.takeWord_push, if_pos ht]
  simp only [ok_bind]
  generalize hs : c₁.accept .ampersand = s
  rw [hbyRef] at hs
  subst hs
  simp only [Cursor.takeName_push, hu, if_true, ok_bind, Cursor.take_push, hv, hparams, hw]
  generalize hs : c₄.accept .colon = s
  rw [hcolon] at hs
  subst hs
  simp only [htype, hbody, ok_bind]
  simp [hline, hname]

include hindent hmargin in
/-- A routine behind its modifiers. -/
theorem written_routine {r : Routine} (hr : r.IsPlain) :
    Written (Reads (readRoutine r.modifiers))
      ("function " ++ (if r.byRef then "&" else "") ++ r.name ++ r.paramsText layout margin ++
        r.returnType.elim "" (": " ++ ·) ++ match r.body with
          | some body => Routine.bodyText layout margin r.layout body
          | none => ";")
      (r.mapValues Expr.spelled).settled (fun t => t.kind = .word ∧ t.text = "function".toList)
      fun _ => True := by
  intro follow P hf hlast hA
  obtain ⟨hstops, hbody⟩ := ahead_body hmargin r.layout hr.body hA
  have htype := ahead_returnType hr.returnType hstops (fun c hc => hc.1) hbody
  have hparams := ahead_params hindent hmargin hr htype
  have hparen : Stops ((r.paramsText layout margin).toList ++
      ((r.returnType.elim "" (": " ++ ·)).toList ++
        (bodyText margin r.layout r.body ++ follow))) := by
    rw [Routine.paramsText]
    split <;> simp [Scan.stops_cons] <;> decide
  have hname := shows_name hr.name hparen hparams
  have hbyRef := shows_accept r.byRef hname (k := .ampersand) (x := ['&'])
    (Scan.isToken_ampersand ?_) rfl (by decide) ?_
  · have hword := hbyRef.word (w := "function") rfl
    have htext : ∀ match_ : String, match_.toList = bodyText margin r.layout r.body →
        ("function " ++ (if r.byRef then "&" else "") ++ r.name ++ r.paramsText layout margin ++
          r.returnType.elim "" (": " ++ ·) ++ match_).toList ++ follow =
            ("function" ++ " ").toList ++
            ((if r.byRef then ['&'] else []) ++
              (r.name.toList ++ ((r.paramsText layout margin).toList ++
              ((r.returnType.elim "" (": " ++ ·)).toList ++
                (bodyText margin r.layout r.body ++ follow))))) := by
      intro body hbody
      cases r.byRef <;> simp [hbody]
    rw [htext _ (toList_bodyText hr.body)]
    refine hword.mono ?_
    rintro _ ⟨gap, q, c, rfl, -, -, c₂, h₂, hamp, ⟨u, c₃, rfl, hu, huname, hlist⟩, -⟩
    obtain ⟨c₄, hlist, c₅, h₅, c₆, h₆, hcolon, htype, -, c', hbody, hc⟩ := hlist
    have hlines : (r.mapValues Expr.spelled).settled.paramsMultiline =
        (r.paramsMultiline && !r.params.isEmpty) := by
      simp [Routine.settled, Routine.mapValues]
    rw [← hlines] at hlist
    exact ⟨⟨rfl, rfl⟩, c', reads_routine (r := (r.mapValues Expr.spelled).settled)
      rfl ⟨h₂, hamp⟩ rfl hu
      huname hlist ⟨h₅, hcolon⟩ ⟨h₆, htype⟩ hbody, hc⟩
  · obtain ⟨d, x, hx, hd⟩ := Expr.opens_of_isName hr.name
    intro e he
    simp only [hx, List.cons_append, List.head?_cons, Option.some.injEq] at he
    rwa [← he]
  · rintro c ⟨u, c', rfl, hu, -⟩
    simp [hu]

end Member

end ClassEdit
