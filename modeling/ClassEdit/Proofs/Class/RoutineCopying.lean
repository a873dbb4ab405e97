import ClassEdit.Proofs.Class.MemberCopying

/-!
Literals in routines. Main statement: a routine that was read tells the literals of its parameters
and of its body, in each place that the body can have.
-/

namespace ClassEdit

open Scan (AtSeparator IsCalm)

namespace Member

variable {layout : Layout} {margin : String}

def ParamTells (layout : Layout) (p : Param) (xs : List (List Char)) : Prop :=
  ∀ margin, IsIndent margin → Tells .code .code AtSeparator (p.text layout margin) xs

theorem tells_attributes {attributes : List String} {xss : List (List (List Char))}
    (h : List.Forall₂ TokensTell attributes xss) :
    Tells .code .code Anything (String.join (attributes.map (· ++ " "))) xss.flatten := by
  have htexts : List.Forall₂ (Tells .code .code Anything) (attributes.map (· ++ " ")) xss := by
    rw [List.forall₂_map_left_iff]
    refine h.imp fun x xs hx => ?_
    simpa using hx.tells.append_opens tells_space .space
  exact Tells.join htexts fun _ _ _ _ => trivial

/-- A parameter tells the literals of its attributes and then those of its default. -/
theorem tells_param {p : Param} {xss : List (List (List Char))} {xs : List (List Char)}
    (hattributes : List.Forall₂ TokensTell p.attributes xss) (htype : ∀ x ∈ p.type, IsCalm x)
    (hname : IsCalm p.name) (hdefault : DefaultTells layout p.default xs) :
    ParamTells layout p (xss.flatten ++ xs) := by
  intro margin hmargin
  have hvisibility : ∀ x ∈ p.modifiers.visibility.map Visibility.keyword, IsCalm x := by
    intro x hx
    obtain ⟨v, -, rfl⟩ := Option.map_eq_some_iff.1 hx
    exact Modifiers.isCalm_keyword v
  have hreadonly : Tells .code .code Anything "readonly " [] :=
    .calm_separator (x := "readonly") (c := ' ') (by decide) (by decide)
  have hwords := ((tells_attributes hattributes).before (tells_spaced hvisibility)).before
    (.optional p.modifiers.isReadonly hreadonly)
  have hsigns :=
    ((hwords.before (tells_spaced htype)).before (.optional p.byRef tells_ampersand)).before
    (.optional p.variadic tells_ellipsis)
  have hvariable : IsCalm ("$" ++ p.name) := Scan.isCalm_append.2 ⟨by decide, hname⟩
  have htext := hsigns.before (tells_assigned hvariable hdefault hmargin)
  simp only [List.append_nil] at htext
  rw [← String.append_assoc, ← String.append_assoc] at htext
  exact htext

/-- A parameter is written with the literals that stand where it was read. -/
theorem readParam_copied (hlayout : IsIndent layout.indent) {c : Cursor} (hc : c.IsIn .code)
    {s : Step 1 Param c} (hs : readParam c = .ok s) : Copied (ParamTells layout) s := by
  unfold readParam at hs
  obtain ⟨⟨attributes, c₁, h₁⟩, hattributes, hs⟩ := bind_eq_ok.1 hs
  dsimp only at hs
  obtain ⟨⟨type, c₃, h₃⟩, htype, hs⟩ := bind_eq_ok.1 hs
  dsimp only at hs
  obtain ⟨⟨name, c₆, h₆⟩, hname, hs⟩ := bind_eq_ok.1 hs
  obtain ⟨⟨default, c₇, h₇⟩, hdefault, hs⟩ := bind_eq_ok.1 hs
  cases hs
  obtain ⟨xss, hreaches₁, htells⟩ := hc.takeAttributes hattributes
  have hreaches₂ := hreaches₁.trans (Modifiers.read_copied hreaches₁.isIn)
  obtain ⟨htype, hcalm⟩ := readTypeUnless_copied hreaches₂.isIn htype
  have hreaches₃ := hreaches₂.trans htype
  have hreaches₄ := hreaches₃.trans (hreaches₃.isIn.accept (k := .ampersand) rfl rfl)
  have hreaches₅ := hreaches₄.trans (hreaches₄.isIn.accept (k := .ellipsis) rfl rfl)
  obtain ⟨hname, hcalmName⟩ := hreaches₅.isIn.takeVariable hname
  have hreaches₆ := hreaches₅.trans hname
  obtain ⟨xs, hrest, htell⟩ := readDefault_copied hlayout hreaches₆.isIn hdefault
  have hall := hreaches₆.trans hrest
  simp only [List.append_nil] at hall
  exact ⟨_, hall, tells_param htells hcalm hcalmName htell⟩

/-- Each parameter tells the literals of its attributes and of its default. -/
theorem readParams_copied (hlayout : IsIndent layout.indent) {c : Cursor} (hc : c.IsIn .code)
    {s : Step 0 (List Param) c} (hs : readParams c = .ok s) :
    ∃ xss, c.Reaches xss.flatten .code s.rest ∧ List.Forall₂ (ParamTells layout) s.value xss := by
  unfold readParams at hs
  split at hs
  next =>
    cases hs
    exact ⟨[], hc.refl, .nil⟩
  next =>
    obtain ⟨⟨param, c₁, h₁⟩, hparam, hs⟩ := bind_eq_ok.1 hs
    obtain ⟨xs, hreaches, htell⟩ := readParam_copied hlayout hc hparam
    dsimp only at hs
    split at hs
    next _ c₂ h₂ hcomma =>
      obtain ⟨⟨params, c₃, h₃⟩, hparams, hs⟩ := bind_eq_ok.1 hs
      cases hs
      have hreaches₂ := hreaches.trans (hreaches.isIn.take? hcomma rfl).1
      obtain ⟨xss, hrest, htells⟩ := readParams_copied hlayout hreaches₂.isIn hparams
      have hall := hreaches₂.trans hrest
      rw [List.append_nil] at hall
      exact ⟨xs :: xss, hall, .cons htell htells⟩
    next =>
      cases hs
      exact ⟨[xs], by simpa using hreaches, .cons htell .nil⟩
termination_by c.size

/-- The body and where its braces stand, or the semicolon in its place. -/
def behindSignature (layout : Layout) (margin : String) :
    Option (List InnerStmt) × BodyLayout → String
  | (some body, place) => Routine.bodyText layout margin place body
  | (none, _) => ";"

def BodyTells (layout : Layout) (body : Option (List InnerStmt) × BodyLayout)
    (xs : List (List Char)) : Prop :=
  ∀ margin, IsIndent margin → Tells .code .code Anything (behindSignature layout margin body) xs

theorem opens_behindSignature (body : Option (List InnerStmt) × BodyLayout) :
    Opens AtSeparator (behindSignature layout margin body) := by
  obtain ⟨_ | body, place⟩ := body
  · exact opens_semicolon
  · cases place with
    | nextLine => exact (((Opens.newline.append _).append _).append _).atSeparator
    | sameLine => exact Fragment.opens_brace.append _
    | inline =>
      rw [behindSignature, Routine.bodyText]
      split
      next => exact ((Fragment.opens_brace.append _).append _).append _
      next => exact Fragment.opens_brace.append _

theorem join_spaces (xs : List String) :
    String.join (xs.map (" " ++ ·)) ++ " " = " " ++ String.join (xs.map (· ++ " ")) := by
  induction xs with
  | nil => rfl
  | cons x xs ih =>
    rw [List.map_cons, String.join_cons, String.append_assoc, ih, List.map_cons, String.join_cons]
    simp only [String.append_assoc]

/-- A body tells the literals of its statements, with the braces on lines of their own or all on one
line. -/
theorem tells_bodyText (hlayout : IsIndent layout.indent) (hmargin : IsIndent margin)
    {place : BodyLayout} {stmts : List InnerStmt} {xss : List (List (List Char))}
    (h : List.Forall₂ StmtTells (stmts.map (·.text)) xss) (hinline : place = .inline →
      Tells .code .code Anything (String.join ((stmts.map (·.text)).map (· ++ " "))) xss.flatten) :
    Tells .code .code Anything (Routine.bodyText layout margin place stmts) xss.flatten := by
  have hbrace : Tells .code .code Anything "\x7b" [] := .mark Scan.isToken_leftBrace rfl rfl
  have hblock := Fragment.tells_blockText hlayout hmargin h
  cases place with
  | nextLine => exact ((tells_newline.before hmargin.tells).before hbrace).before hblock
  | sameLine => exact Fragment.tells_brace.before hblock
  | inline =>
    rw [Routine.bodyText]
    split
    next =>
      have hclose : Tells .code .code Anything "\x7d" [] := .mark Scan.isToken_rightBrace rfl rfl
      cases stmts with
      | nil =>
        cases h
        exact Fragment.tells_brace.before hclose
      | cons s stmts =>
        have hone := (Fragment.tells_brace.before (tells_space.before (hinline rfl))).before hclose
        rw [← join_spaces, List.map_map, ← String.append_assoc, List.append_nil] at hone
        exact hone
    next => exact Fragment.tells_brace.before hblock

/-- A token that goes on with its line, and its comments. -/
theorem not_mem_of_isOnNewLine {t : Token} (hnew : t.isOnNewLine = false)
    (htext : t.text.contains '\n' = false) :
    ∀ x ∈ t.pieces, '\n' ∉ x.source := by
  obtain ⟨hgap, hcomments⟩ := Bool.or_eq_false_iff.1 hnew
  rw [List.any_eq_false] at hcomments
  have hmem {cs : List Char} (h : cs.contains '\n' = false) : '\n' ∉ cs := by simpa using h
  intro x hx
  rcases List.mem_append.1 hx with hx | hx
  · exact hmem (by simpa using hcomments x hx)
  · rw [List.mem_singleton.1 hx, Lexeme.source, List.mem_append, not_or]
    exact ⟨hmem hgap, hmem htext⟩

/-- A body is written with the literals of its statements, and a body that is missing with none. -/
theorem readBody_copied (hlayout : IsIndent layout.indent) {c : Cursor} (hc : c.IsIn .code)
    {s : Step 1 (Option (List InnerStmt) × BodyLayout) c} (hs : readBody c = .ok s) :
    Copied (BodyTells layout) s := by
  unfold readBody at hs
  split at hs
  next hnone =>
    cases hs
    exact ⟨[], (hc.take? hnone rfl).1, fun _ _ => tells_semicolon⟩
  next =>
    obtain ⟨⟨stmts, c₁, h₁⟩, hblock, hs⟩ := bind_eq_ok.1 hs
    cases hs
    obtain ⟨parts, brace, hparts⟩ := Fragment.exists_blockParts hc hblock
    have hbehind : c.Behind false c₁ := by
      have hleaves := Fragment.leaves_block (Cursor.Behind.refl : c.Behind false c)
      rw [hblock] at hleaves
      exact hleaves
    refine ⟨_, hparts.reaches, fun margin hmargin => tells_bodyText hlayout hmargin
      hparts.tells fun hplace => ?_⟩
    refine hparts.oneLine ?_
    rw [hparts.tokens hbehind h₁]
    intro x hx
    obtain ⟨t, ht, hx⟩ := List.mem_flatMap.1 hx
    split at hplace
    next => cases hplace
    next =>
      split at hplace
      next => cases hplace
      next hlines =>
        rw [Bool.or_eq_true, not_or] at hlines
        have hone := hlines.2
        simp only [List.any_eq_true, not_exists, not_and] at hone
        have hline := hone t ht
        rw [Bool.or_eq_true, not_or, Bool.not_eq_true, Bool.not_eq_true] at hline
        exact not_mem_of_isOnNewLine hline.1 hline.2 x hx

/-- Parameters tell their literals in order, on one line or on lines of their own. -/
theorem tells_paramsText {r : Routine} {xss : List (List (List Char))}
    (hlayout : IsIndent layout.indent) (hmargin : IsIndent margin)
    (h : List.Forall₂ (ParamTells layout) r.params xss) :
    Tells .code .code Anything (r.paramsText layout margin) xss.flatten := by
  have htexts : List.Forall₂ (Tells .code .code AtSeparator)
      (r.params.map (Param.text layout margin)) xss := by
    rw [List.forall₂_map_left_iff]
    exact h.imp fun p xs hp => hp margin hmargin
  have hopen : Tells .code .code Anything "(" [] := .separator (c := '(') (by decide)
  have hclose : Tells .code .code Anything ")" [] := .separator (c := ')') (by decide)
  rw [Routine.paramsText]
  split
  next =>
    have hlines : List.Forall₂ (Tells .code .code Anything)
        ((r.params.map (Param.text layout margin)).map fun p => margin ++ layout.indent ++
          p ++ ",\n") xss := by
      rw [List.forall₂_map_left_iff]
      refine htexts.imp fun p xs hp => ?_
      have hcomma : Tells .code .code Anything ",\n" [] :=
        (Tells.separator (c := ',') (by decide)).before tells_newline
      have hends : Opens AtSeparator ",\n" := (Opens.separator (c := ',') (by decide)).append "\n"
      simpa using (((hmargin.append hlayout).tells).before hp).append_opens hcomma hends
    have hall :=
      (((hopen.before tells_newline).before (Tells.join hlines fun _ _ _ _ => trivial)).before
      hmargin.tells).before hclose
    simp only [List.nil_append, List.append_nil] at hall
    exact hall
  next =>
    have hall := (hopen.before (Tells.commaList htexts)).append_opens hclose
      (.separator (c := ')') (by decide))
    simp only [List.nil_append, List.append_nil] at hall
    exact hall

theorem opens_paramsText (r : Routine) : Opens AtSeparator (r.paramsText layout margin) := by
  rw [Routine.paramsText]
  split
  next =>
    have hopen : Opens AtSeparator "(\n" := (Opens.separator (c := '(') (by decide)).append "\n"
    exact ((hopen.append _).append _).append _
  next => exact ((Opens.separator (c := '(') (by decide)).append _).append _

/-- A routine tells the literals of its parameters and behind them those of its body. -/
theorem tells_routine (hlayout : IsIndent layout.indent) {r : Routine}
    {xss : List (List (List Char))} {xs : List (List Char)} (hname : IsCalm r.name)
    (htype : ∀ x ∈ r.returnType, IsCalm x) (hparams : List.Forall₂ (ParamTells layout) r.params xss)
    (hbody : BodyTells layout (r.body, r.layout) xs) :
    TellsAs layout (.routine r) (xss.flatten ++ xs) := by
  intro margin hmargin
  have hword : Tells .code .code Anything "function " [] :=
    .calm_separator (x := "function") (c := ' ') (by decide) (by decide)
  have hreturn : Tells .code .code AtSeparator (r.returnType.elim "" (": " ++ ·)) [] := by
    cases hr : r.returnType with
    | none => exact .nil .code _
    | some type => exact .of_isCalm (Scan.isCalm_append.2 ⟨by decide, htype type hr⟩)
  have hnamed :=
    ((r.modifiers.tells_text.before hword).before (.optional r.byRef tells_ampersand)).before
    (.of_isCalm hname)
  have hsignature :=
    (hnamed.append_opens (tells_paramsText hlayout hmargin hparams) (opens_paramsText r)).before
      hreturn
  have hall := hsignature.append_opens (hbody margin hmargin) (opens_behindSignature _)
  simp only [List.nil_append, List.append_nil] at hall
  rw [Member.text, Routine.text]
  cases hr : r.body <;>
  · rw [hr] at hall
    exact hall

/-- A routine tells the literals of its parameters and of its body, in this order. -/
theorem readRoutine_copied (hlayout : IsIndent layout.indent) {modifiers : Modifiers} {c : Cursor}
    (hc : c.IsIn .code) {s : Step 1 Routine c} (hs : readRoutine modifiers c = .ok s) :
    Copied (fun r => TellsAs layout (.routine r)) s := by
  unfold readRoutine at hs
  obtain ⟨⟨_, c₁, h₁⟩, hword, hs⟩ := bind_eq_ok.1 hs
  dsimp only at hs
  obtain ⟨⟨name, c₃, h₃⟩, hname, hs⟩ := bind_eq_ok.1 hs
  obtain ⟨⟨_, c₄, h₄⟩, hopen, hs⟩ := bind_eq_ok.1 hs
  obtain ⟨⟨params, c₅, h₅⟩, hparams, hs⟩ := bind_eq_ok.1 hs
  obtain ⟨⟨_, c₆, h₆⟩, hclose, hs⟩ := bind_eq_ok.1 hs
  dsimp only at hs
  obtain ⟨⟨type, c₈, h₈⟩, htype, hs⟩ := bind_eq_ok.1 hs
  obtain ⟨⟨body, c₉, h₉⟩, hbody, hs⟩ := bind_eq_ok.1 hs
  cases hs
  have hreaches₁ := hc.takeWord hword
  have hreaches₂ := hreaches₁.trans (hreaches₁.isIn.accept (k := .ampersand) rfl rfl)
  obtain ⟨hreaches₃, hcalmName⟩ := hreaches₂.isIn.takeName hname
  have hreaches₄ := (hreaches₂.trans hreaches₃).trans (hreaches₃.isIn.take hopen rfl)
  obtain ⟨xss, hreaches₅, hparams⟩ := readParams_copied hlayout hreaches₄.isIn hparams
  have hreaches₆ := (hreaches₄.trans hreaches₅).trans (hreaches₅.isIn.take hclose rfl)
  have hreaches₇ := hreaches₆.trans (hreaches₆.isIn.accept (k := .colon) rfl rfl)
  obtain ⟨hreaches₈, hcalmType⟩ := readTypeUnless_copied hreaches₇.isIn htype
  obtain ⟨xs, hreaches₉, hbody⟩ := readBody_copied hlayout hreaches₈.isIn hbody
  have hreaches := (hreaches₇.trans hreaches₈).trans hreaches₉
  simp only [List.nil_append, List.append_nil] at hreaches
  exact ⟨_, hreaches, tells_routine hlayout hcalmName hcalmType hparams hbody⟩

end Member

end ClassEdit
