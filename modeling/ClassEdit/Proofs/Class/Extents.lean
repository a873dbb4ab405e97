import ClassEdit.Proofs.Class.Stopping
import ClassEdit.Proofs.Extents

/-!
How far members, imports and the heads of classes go. Main statements: constants, fields and imports
go up to the first semicolon outside of brackets; a use of mixins and a routine go up to the first
semicolon or opening brace outside of brackets, and with the brace up to its own closer.
-/

namespace ClassEdit

open Token (kinds)
open Brackets (Avoids)
open Cursor (kinds_take? kinds_take over_take? over_takeWord? over_takeWord over_takeName
  over_takeVariable over_takeNames over_accept over_next)

variable {stops : List TokenKind} {c c₁ : Cursor}

def headEnds : List TokenKind := [.semicolon, .leftBrace]

/-- The second cursor stands behind a head, and behind the block that begins where the head ends if
there is one. -/
def Cursor.Headed (hasBlock : Bool) (c c₁ : Cursor) : Prop :=
  if hasBlock then
    ∃ c', c.Behind false c' ∧ c.UpTo headEnds .leftBrace c' ∧ c'.Behind false c₁ ∧
      c'.UpTo [] .rightBrace c₁
  else c.UpTo headEnds .semicolon c₁

theorem Cursor.Over.headed_block (hover : c.Over headEnds c₁) (hc₁ : c.Behind false c₁)
    {s : Step 1 (List InnerStmt) c₁} (hs : Fragment.block c₁ = .ok s) : c.Headed true s.rest := by
  obtain ⟨s', hopen, hbehind, hupTo⟩ := Fragment.exists_of_block hs
  exact ⟨s'.rest, (hc₁.take _).rest hopen, hover.upTo hopen, hbehind, hupTo⟩

theorem Modifiers.kind_of_add? {m m' : Modifiers} {t : Token} (h : m.add? t = some m') :
    t.kind = .word := by
  by_contra hkind
  have hnot (w : String) : t.isWord w = false := by simp [Lexeme.isWord, hkind]
  simp [add?, hnot] at h

/-- Modifiers are words, so none of them ends a statement or opens a bracket. -/
theorem Modifiers.over_read (hstops : stops ⊆ [.semicolon, .leftBrace]) :
    c.Over stops (read c).rest := by
  have hwords (m : Modifiers) (ts : List Token) : ∃ ks, kinds ts = ks ++ kinds (readFrom m ts).2 ∧
      ∀ k ∈ ks, k = .word := by
    induction ts generalizing m with
    | nil => exact ⟨[], rfl, List.forall_mem_nil _⟩
    | cons t ts ih =>
      unfold readFrom
      split
      next m' hadd =>
        obtain ⟨ks, hks, hwords⟩ := ih m'
        refine ⟨t.kind :: ks, ?_, List.forall_mem_cons.2 ⟨?_, hwords⟩⟩
        · rw [Token.kinds_cons, hks, List.cons_append]
        · exact kind_of_add? hadd
      next => exact ⟨[], rfl, List.forall_mem_nil _⟩
  obtain ⟨ks, hks, hall⟩ := hwords .empty c.ahead
  refine ⟨ks, hks, Avoids.of_plain fun k hk => ?_⟩
  rw [hall k hk]
  exact ⟨rfl, rfl, fun hmem => absurd (hstops hmem) (by decide)⟩

namespace Member

variable {modifiers : Modifiers}

/-- A default goes up to the first semicolon at most, as the expression in it does. -/
theorem over_readDefault (hstops : stops ⊆ [.semicolon]) {s : Step 0 (Option Expr) c}
    (hs : readDefault c = .ok s) : c.Over stops s.rest := by
  unfold readDefault at hs
  split at hs
  next hequals =>
    obtain ⟨⟨e, c₂, h₂⟩, hvalue, hs⟩ := bind_eq_ok.1 hs
    cases hs
    exact (over_take? (List.Subset.trans hstops (by simp)) hequals (by decide)).trans
      (Expr.over_read hstops hvalue)
  next =>
    cases hs
    exact .refl

theorem over_readTypeUnless (hstops : stops ⊆ [.semicolon, .leftBrace]) {absent : Bool}
    {s : Step 0 (Option String) c} (hs : readTypeUnless absent c = .ok s) :
    c.Over stops s.rest := by
  unfold readTypeUnless at hs
  split at hs
  next =>
    cases hs
    exact .refl
  next =>
    obtain ⟨⟨type, c₁, h₁⟩, htype, hs⟩ := bind_eq_ok.1 hs
    cases hs
    exact TypeText.over_read hstops htype

/-- No semicolon stands between the first constant and the last one, but in brackets. -/
theorem over_readConstantItems {c : Cursor} {s : Step 1 (List Constant) c}
    (hs : readConstantItems c = .ok s) : c.Over [.semicolon] s.rest := by
  unfold readConstantItems at hs
  obtain ⟨⟨name, c₁, h₁⟩, hname, hs⟩ := bind_eq_ok.1 hs
  obtain ⟨⟨_, c₂, h₂⟩, hequals, hs⟩ := bind_eq_ok.1 hs
  obtain ⟨⟨value, c₃, h₃⟩, hvalue, hs⟩ := bind_eq_ok.1 hs
  have hstops : [TokenKind.semicolon] ⊆ [.semicolon, .leftBrace] := by simp
  have hc₂ := (over_takeName hstops hname).trans
    (over_next hstops (kinds_take hequals) (by decide))
  have hc₃ := hc₂.trans (Expr.over_read (List.Subset.refl _) hvalue)
  dsimp only at hs
  split at hs
  next _ c₄ h₄ hcomma =>
    obtain ⟨⟨items, c₅, h₅⟩, hitems, hs⟩ := bind_eq_ok.1 hs
    cases hs
    exact (hc₃.trans (over_take? hstops hcomma (by decide))).trans
      (over_readConstantItems hitems)
  next =>
    cases hs
    exact hc₃
termination_by c.size

/-- No semicolon stands between the first field and the last one, but in brackets. -/
theorem over_readFieldItems {c : Cursor} {s : Step 1 (List Field) c}
    (hs : readFieldItems c = .ok s) : c.Over [.semicolon] s.rest := by
  unfold readFieldItems at hs
  obtain ⟨⟨name, c₁, h₁⟩, hname, hs⟩ := bind_eq_ok.1 hs
  obtain ⟨⟨default, c₂, h₂⟩, hdefault, hs⟩ := bind_eq_ok.1 hs
  have hc₂ := (over_takeVariable (by simp) hname).trans
    (over_readDefault (List.Subset.refl _) hdefault)
  dsimp only at hs
  split at hs
  next _ c₃ h₃ hcomma =>
    obtain ⟨⟨items, c₄, h₄⟩, hitems, hs⟩ := bind_eq_ok.1 hs
    cases hs
    exact (hc₂.trans (over_take? (by simp) hcomma (by decide))).trans (over_readFieldItems hitems)
  next =>
    cases hs
    exact hc₂
termination_by c.size

/-- Constants go up to the first semicolon. -/
theorem upTo_readConstants {s : Step 1 ConstantGroup c} (hs : readConstants modifiers c = .ok s) :
    c.UpTo [.semicolon] .semicolon s.rest := by
  unfold readConstants at hs
  obtain ⟨⟨type, c₁, h₁⟩, htype, hs⟩ := bind_eq_ok.1 hs
  obtain ⟨⟨items, c₂, h₂⟩, hitems, hs⟩ := bind_eq_ok.1 hs
  obtain ⟨⟨_, c₃, h₃⟩, hsemicolon, hs⟩ := bind_eq_ok.1 hs
  cases hs
  exact ((over_readTypeUnless (by simp) htype).trans (over_readConstantItems hitems)).upTo
    hsemicolon

/-- Fields go up to the first semicolon. -/
theorem upTo_readFields {s : Step 1 FieldGroup c} (hs : readFields modifiers c = .ok s) :
    c.UpTo [.semicolon] .semicolon s.rest := by
  unfold readFields at hs
  obtain ⟨⟨type, c₁, h₁⟩, htype, hs⟩ := bind_eq_ok.1 hs
  obtain ⟨⟨items, c₂, h₂⟩, hitems, hs⟩ := bind_eq_ok.1 hs
  obtain ⟨⟨_, c₃, h₃⟩, hsemicolon, hs⟩ := bind_eq_ok.1 hs
  cases hs
  exact ((over_readTypeUnless (by simp) htype).trans (over_readFieldItems hitems)).upTo hsemicolon

/-- A parameter closes the brackets that it opens. -/
theorem over_readParam {s : Step 1 Param c} (hs : readParam c = .ok s) : c.Over [] s.rest := by
  unfold readParam at hs
  obtain ⟨⟨attributes, c₁, h₁⟩, hattributes, hs⟩ := bind_eq_ok.1 hs
  have hc₂ := (Cursor.over_takeAttributes hattributes).trans
    (Modifiers.over_read (List.nil_subset _))
  dsimp only at hc₂ hs
  generalize Modifiers.read c₁ = step at hc₂ hs
  obtain ⟨modifiers, c₂, h₂⟩ := step
  obtain ⟨⟨type, c₃, h₃⟩, htype, hs⟩ := bind_eq_ok.1 hs
  have hc₄ := (hc₂.trans (over_readTypeUnless (List.nil_subset _) htype)).trans
    (over_accept (List.nil_subset _) (k := .ampersand) (by decide))
  dsimp only at hc₄ hs
  generalize c₃.accept .ampersand = step at hc₄ hs
  obtain ⟨byRef, c₄, h₄⟩ := step
  have hc₅ := hc₄.trans (over_accept (List.nil_subset _) (k := .ellipsis) (by decide))
  dsimp only at hc₅ hs
  generalize c₄.accept .ellipsis = step at hc₅ hs
  obtain ⟨variadic, c₅, h₅⟩ := step
  obtain ⟨⟨name, c₆, h₆⟩, hname, hs⟩ := bind_eq_ok.1 hs
  obtain ⟨⟨default, c₇, h₇⟩, hdefault, hs⟩ := bind_eq_ok.1 hs
  cases hs
  exact (hc₅.trans (over_takeVariable (List.nil_subset _) hname)).trans
    (over_readDefault (List.nil_subset _) hdefault)

/-- Parameters close the brackets that they open. -/
theorem over_readParams {c : Cursor} {s : Step 0 (List Param) c} (hs : readParams c = .ok s) :
    c.Over [] s.rest := by
  unfold readParams at hs
  split at hs
  next =>
    cases hs
    exact .refl
  next =>
    obtain ⟨⟨param, c₁, h₁⟩, hparam, hs⟩ := bind_eq_ok.1 hs
    have hc₁ := over_readParam hparam
    dsimp only at hs
    split at hs
    next _ c₂ h₂ hcomma =>
      obtain ⟨⟨params, c₃, h₃⟩, hparams, hs⟩ := bind_eq_ok.1 hs
      cases hs
      exact (hc₁.trans (over_take? (List.nil_subset _) hcomma (by decide))).trans
        (over_readParams hparams)
    next =>
      cases hs
      exact hc₁
termination_by c.size

/-- A use of mixins goes up to the first semicolon, or to the end of its block. -/
theorem headed_readMixins {s : Step 1 MixinUse c} (hs : readMixins c = .ok s) :
    c.Headed s.value.rules.isSome s.rest := by
  unfold readMixins at hs
  obtain ⟨⟨_, c₁, h₁⟩, hword, hs⟩ := bind_eq_ok.1 hs
  obtain ⟨⟨names, c₂, h₂⟩, hnames, hs⟩ := bind_eq_ok.1 hs
  have hc₂ : c.Behind false c₂ := ((Cursor.Behind.refl.takeWord _).rest hword).takeNames.rest hnames
  have hover := (over_takeWord (List.Subset.refl _) hword).trans
    (over_takeNames (List.Subset.refl _) hnames)
  dsimp only at hs
  split at hs
  next =>
    obtain ⟨⟨rules, c₃, h₃⟩, hblock, hs⟩ := bind_eq_ok.1 hs
    cases hs
    exact hover.headed_block hc₂ hblock
  next =>
    obtain ⟨⟨_, c₃, h₃⟩, hsemicolon, hs⟩ := bind_eq_ok.1 hs
    cases hs
    exact hover.upTo hsemicolon

/-- The parameters of a routine between their parentheses. -/
theorem over_params {s₁ : Step 1 Token c} (hopen : c.take .leftParen = .ok s₁)
    {s₂ : Step 0 (List Param) s₁.rest} (hparams : readParams s₁.rest = .ok s₂)
    {s₃ : Step 1 Token s₂.rest} (hclose : s₂.rest.take .rightParen = .ok s₃) :
    c.Over headEnds s₃.rest :=
  ((over_readParams hparams).upTo hclose).group (kinds_take hopen) rfl (by decide)

/-- A body ends a head with its semicolon or with its brace. -/
theorem headed_readBody (hover : c.Over headEnds c₁) (hc₁ : c.Behind false c₁)
    {s : Step 1 (Option (List InnerStmt) × BodyLayout) c₁} (hs : readBody c₁ = .ok s) :
    c.Headed s.value.1.isSome s.rest := by
  unfold readBody at hs
  split at hs
  next hsemicolon =>
    cases hs
    exact hover.upTo_take? hsemicolon
  next =>
    obtain ⟨⟨stmts, c₂, h₂⟩, hblock, hs⟩ := bind_eq_ok.1 hs
    cases hs
    exact hover.headed_block hc₁ hblock

/-- A routine goes up to the first semicolon, or to the end of its body. -/
theorem headed_readRoutine (hover : c.Over headEnds c₁) (hc₁ : c.Behind false c₁)
    {s : Step 1 Routine c₁} (hs : readRoutine modifiers c₁ = .ok s) :
    c.Headed s.value.body.isSome s.rest := by
  unfold readRoutine at hs
  obtain ⟨⟨_, c₂, h₂⟩, hword, hs⟩ := bind_eq_ok.1 hs
  have hc₃ := ((hc₁.takeWord _).rest hword).accept .ampersand
  have hover₃ := (hover.trans (over_takeWord (List.Subset.refl _) hword)).trans
    (over_accept (List.Subset.refl _) (k := .ampersand) (by decide))
  dsimp only at hc₃ hover₃ hs
  generalize c₂.accept .ampersand = step at hc₃ hover₃ hs
  obtain ⟨byRef, c₃, h₃⟩ := step
  obtain ⟨⟨name, c₄, h₄⟩, hname, hs⟩ := bind_eq_ok.1 hs
  obtain ⟨⟨_, c₅, h₅⟩, hopen, hs⟩ := bind_eq_ok.1 hs
  obtain ⟨⟨params, c₆, h₆⟩, hparams, hs⟩ := bind_eq_ok.1 hs
  obtain ⟨⟨_, c₇, h₇⟩, hclose, hs⟩ := bind_eq_ok.1 hs
  have hc₇ := ((leaves_readParams ((hc₃.takeName.rest hname).take _ |>.rest hopen)).rest hparams
    |>.take _).rest hclose
  have hc₈ := Cursor.Behind.accept hc₇ .colon
  have hover₇ := (hover₃.trans (over_takeName (List.Subset.refl _) hname)).trans
    (over_params hopen hparams hclose)
  have hover₈ := hover₇.trans (over_accept (List.Subset.refl _) (k := .colon) (by decide))
  dsimp only at hc₈ hover₈ hs
  generalize c₇.accept .colon = step at hc₈ hover₈ hs
  obtain ⟨hasType, c₈, h₈⟩ := step
  obtain ⟨⟨returnType, c₉, h₉⟩, htype, hs⟩ := bind_eq_ok.1 hs
  obtain ⟨⟨⟨body, layout⟩, c₁₀, h₁₀⟩, hbody, hs⟩ := bind_eq_ok.1 hs
  cases hs
  exact headed_readBody (hover₈.trans (over_readTypeUnless (List.Subset.refl _) htype))
    ((leaves_readTypeUnless _ hc₈).rest htype) hbody

/-- How far a member goes is told by what kind of member it is. -/
def EndsAt (c : Cursor) : Member → Cursor → Prop
  | .mixins use, c₁ => c.Headed use.rules.isSome c₁
  | .constants _, c₁ | .fields _, c₁ => c.UpTo [.semicolon] .semicolon c₁
  | .routine r, c₁ => c.Headed r.body.isSome c₁

/-- A member goes as far as its kind says, whatever stands in it. -/
theorem endsAt_readBare {s : Step 1 Member c} (hs : readBare c = .ok s) :
    EndsAt c s.value s.rest := by
  unfold readBare at hs
  split at hs
  next =>
    obtain ⟨⟨use, c₁, h₁⟩, huse, hs⟩ := bind_eq_ok.1 hs
    cases hs
    exact headed_readMixins huse
  next =>
    have hover {stops : List TokenKind} (hstops : stops ⊆ [.semicolon, .leftBrace]) :
        c.Over stops (Modifiers.read c).rest := Modifiers.over_read hstops
    have hc₁ : c.Behind false (Modifiers.read c).rest := Modifiers.behind_read .refl
    generalize Modifiers.read c = step at hover hc₁ hs
    obtain ⟨modifiers, c₁, h₁⟩ := step
    dsimp only at hover hc₁ hs
    split at hs
    next hconst =>
      obtain ⟨⟨group, c₃, h₃⟩, hgroup, hs⟩ := bind_eq_ok.1 hs
      cases hs
      exact ((hover (by simp)).trans (over_takeWord? (by simp) hconst)).trans_upTo
        (upTo_readConstants hgroup)
    next =>
      split at hs
      next =>
        obtain ⟨⟨r, c₂, h₂⟩, hroutine, hs⟩ := bind_eq_ok.1 hs
        cases hs
        exact headed_readRoutine (hover (List.Subset.refl _)) hc₁ hroutine
      next =>
        split at hs
        next => cases hs
        next =>
          obtain ⟨⟨group, c₂, h₂⟩, hgroup, hs⟩ := bind_eq_ok.1 hs
          cases hs
          exact (hover (by simp)).trans_upTo (upTo_readFields hgroup)

end Member

namespace ClassDecl

theorem over_takeModifier? {s : Step 1 ClassModifier c} (hs : takeModifier? c = some s) :
    c.Over headEnds s.rest := by
  have hword {w : String} {m : ClassModifier}
      (hw : (c.takeWord? w).map (.map fun _ => m) = some s) : c.Over headEnds s.rest := by
    obtain ⟨s₁, hs₁, rfl⟩ := Option.map_eq_some_iff.1 hw
    exact over_takeWord? (List.Subset.refl _) hs₁
  rcases Option.or_eq_some_iff.1 hs with hs | ⟨-, hs⟩
  · exact hword hs
  · rcases Option.or_eq_some_iff.1 hs with hs | ⟨-, hs⟩
    · exact hword hs
    · exact hword hs

theorem over_readModifiers (c : Cursor) : c.Over headEnds (readModifiers c).rest := by
  unfold readModifiers
  split
  next m c₁ h₁ hs => exact (over_takeModifier? hs).trans (over_readModifiers c₁)
  next => exact .refl
termination_by c.size

theorem over_readParent {s : Step 0 (Option String) c} (hs : readParent c = .ok s) :
    c.Over headEnds s.rest := by
  unfold readParent at hs
  split at hs
  next hword =>
    obtain ⟨⟨name, c₂, h₂⟩, hname, hs⟩ := bind_eq_ok.1 hs
    cases hs
    exact (over_takeWord? (List.Subset.refl _) hword).trans
      (over_takeName (List.Subset.refl _) hname)
  next =>
    cases hs
    exact .refl

theorem over_readInterfaces {s : Step 0 (List String) c} (hs : readInterfaces c = .ok s) :
    c.Over headEnds s.rest := by
  unfold readInterfaces at hs
  split at hs
  next hword =>
    obtain ⟨⟨names, c₂, h₂⟩, hnames, hs⟩ := bind_eq_ok.1 hs
    cases hs
    exact (over_takeWord? (List.Subset.refl _) hword).trans
      (over_takeNames (List.Subset.refl _) hnames)
  next =>
    cases hs
    exact .refl

end ClassDecl

namespace Import

variable (hstops : stops ⊆ [.semicolon, .leftBrace])

include hstops

/-- The word for a kind of symbol is passed over like any other word. -/
theorem over_readKind : c.Over stops (readKind c).rest := by
  have hskip {w : String} (hword : c.isAtWord w = true) : c.Over stops (c.skip 1) := by
    obtain ⟨ahead, eof⟩ := c
    cases ahead with
    | nil => exact .refl
    | cons t ts =>
      have hkind : t.kind = .word := eq_of_beq (Bool.and_eq_true_iff.1 hword).1
      exact over_next hstops (k := .word) (by rw [← hkind]; rfl) (by decide)
  unfold readKind
  dsimp only
  split
  next k hkind =>
    split at hkind
    next =>
      split at hkind
      next hword => exact hskip hword
      next =>
        split at hkind
        next hword => exact hskip hword
        next => cases hkind
    next => cases hkind
  next => exact .refl

theorem over_readLocalName {s : Step 0 (Option String) c} (hs : readLocalName c = .ok s) :
    c.Over stops s.rest := by
  unfold readLocalName at hs
  split at hs
  next hword =>
    obtain ⟨⟨name, c₂, h₂⟩, hname, hs⟩ := bind_eq_ok.1 hs
    cases hs
    exact (over_takeWord? hstops hword).trans (over_takeName hstops hname)
  next =>
    cases hs
    exact .refl

theorem over_readItem {kind : Option ImportKind} {s : Step 1 ImportItem c}
    (hs : readItem kind c = .ok s) : c.Over stops s.rest := by
  unfold readItem at hs
  obtain ⟨⟨name, c₁, h₁⟩, hname, hs⟩ := bind_eq_ok.1 hs
  obtain ⟨⟨localName, c₂, h₂⟩, hlocal, hs⟩ := bind_eq_ok.1 hs
  cases hs
  exact (over_takeName hstops hname).trans (over_readLocalName hstops hlocal)

/-- No semicolon stands among further symbols. -/
theorem over_readFurther {c : Cursor} {s : Step 0 (List ImportItem) c}
    (hs : readFurther c = .ok s) : c.Over stops s.rest := by
  unfold readFurther at hs
  split at hs
  next _ c₁ h₁ hcomma =>
    obtain ⟨⟨item, c₂, h₂⟩, hitem, hs⟩ := bind_eq_ok.1 hs
    obtain ⟨⟨items, c₃, h₃⟩, hitems, hs⟩ := bind_eq_ok.1 hs
    cases hs
    exact ((over_take? hstops hcomma (by decide)).trans (over_readItem hstops hitem)).trans
      (over_readFurther hitems)
  next =>
    cases hs
    exact .refl
termination_by c.size

omit hstops

/-- The symbols of a group close the brackets that they open, of which there are none. -/
theorem over_readGroup {c : Cursor} {s : Step 0 (List ImportItem) c} (hs : readGroup c = .ok s) :
    c.Over [] s.rest := by
  unfold readGroup at hs
  split at hs
  next =>
    cases hs
    exact .refl
  next =>
    have hc₁ : c.Over [] (readKind c).rest := over_readKind (List.nil_subset _)
    generalize readKind c = step at hc₁ hs
    obtain ⟨kind, c₁, h₁⟩ := step
    obtain ⟨⟨item, c₂, h₂⟩, hitem, hs⟩ := bind_eq_ok.1 hs
    have hc₂ := hc₁.trans (over_readItem (List.nil_subset _) hitem)
    dsimp only at hs
    split at hs
    next _ c₃ h₃ hcomma =>
      obtain ⟨⟨items, c₄, h₄⟩, hitems, hs⟩ := bind_eq_ok.1 hs
      cases hs
      exact (hc₂.trans (over_take? (List.nil_subset _) hcomma (by decide))).trans
        (over_readGroup hitems)
    next =>
      cases hs
      exact hc₂
termination_by c.size

/-- The braces of a group hold no end of an import. -/
theorem over_readItems {s : Step 1 (Option String × List ImportItem) c}
    (hs : readItems c = .ok s) : c.Over [.semicolon] s.rest := by
  have hstops : [TokenKind.semicolon] ⊆ [.semicolon, .leftBrace] := by simp
  unfold readItems at hs
  obtain ⟨⟨first, c₁, h₁⟩, hfirst, hs⟩ := bind_eq_ok.1 hs
  have hc₁ := over_takeName hstops hfirst
  dsimp only at hs
  split at hs
  next _ c₂ h₂ hopen =>
    obtain ⟨⟨items, c₃, h₃⟩, hitems, hs⟩ := bind_eq_ok.1 hs
    obtain ⟨⟨_, c₄, h₄⟩, hclose, hs⟩ := bind_eq_ok.1 hs
    cases hs
    split at hopen
    next =>
      have hgroup := (over_readGroup hitems).upTo hclose
      exact hc₁.trans (hgroup.group (kinds_take? hopen) rfl (by decide))
    next => cases hopen
  next =>
    obtain ⟨⟨localName, c₂, h₂⟩, hlocal, hs⟩ := bind_eq_ok.1 hs
    obtain ⟨⟨items, c₃, h₃⟩, hitems, hs⟩ := bind_eq_ok.1 hs
    cases hs
    exact (hc₁.trans (over_readLocalName hstops hlocal)).trans (over_readFurther hstops hitems)

end Import

end ClassEdit
