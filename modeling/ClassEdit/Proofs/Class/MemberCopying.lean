import ClassEdit.Proofs.Class.TypeCopying

/-!
Literals in constants, fields and the use of mixins. Main statements: a member that was read tells
the literals that stand where it was read, those of its defaults and of its rules.
-/

namespace ClassEdit

open Scan (AtSeparator IsCalm)

namespace Member

variable {layout : Layout} {margin : String}

def DefaultTells (layout : Layout) (value : Option Expr) (xs : List (List Char)) : Prop :=
  ∀ margin, IsIndent margin → Tells .code .code AtSeparator (assigned layout margin value) xs

theorem opens_equals : Opens AtSeparator " = " := by
  intro follow
  simpa using Scan.atSeparator_cons (c := ' ') (by decide) _

theorem keeps_assigned (value : Option Expr) :
    Keeps AtSeparator (assigned layout margin value) := by
  cases value with
  | none => exact .nil _
  | some e => exact (opens_equals.append _).keeps

theorem defaultTells_some {e : Expr} {xs : List (List Char)} (h : e.TellsAs layout xs) :
    DefaultTells layout (some e) xs := by
  intro margin hmargin
  have hequals : Tells .code .code Anything " = " [] :=
    .calm_separator (x := " =") (c := ' ') (by decide) (by decide)
  exact hequals.before (h margin hmargin)

/-- A default is written with the literals of its expression. -/
theorem readDefault_copied (hlayout : IsIndent layout.indent) {c : Cursor} (hc : c.IsIn .code)
    {s : Step 0 (Option Expr) c} (hs : readDefault c = .ok s) : Copied (DefaultTells layout) s := by
  unfold readDefault at hs
  split at hs
  next hequals =>
    obtain ⟨⟨e, c₂, h₂⟩, he, hs⟩ := bind_eq_ok.1 hs
    cases hs
    have hreaches := (hc.take? hequals rfl).1
    obtain ⟨xs, hrest, htell⟩ := Expr.read_copied hlayout hreaches.isIn he
    exact ⟨xs, hreaches.trans hrest, defaultTells_some htell⟩
  next =>
    cases hs
    exact ⟨[], hc.refl, fun _ _ => .nil .code _⟩

theorem readTypeUnless_copied {absent : Bool} {c : Cursor} (hc : c.IsIn .code)
    {s : Step 0 (Option String) c} (hs : readTypeUnless absent c = .ok s) :
    c.Reaches [] .code s.rest ∧ ∀ x ∈ s.value, IsCalm x := by
  unfold readTypeUnless at hs
  split at hs
  next =>
    cases hs
    exact ⟨hc.refl, nofun⟩
  next =>
    obtain ⟨⟨type, c₁, h₁⟩, htype, hs⟩ := bind_eq_ok.1 hs
    cases hs
    obtain ⟨hreaches, hcalm⟩ := TypeText.read_copied hc htype
    exact ⟨hreaches, fun x hx => Option.some.inj hx ▸ hcalm⟩

/-- A name with its value tells the literals of the value. -/
theorem tells_assigned {name : String} {value : Option Expr} {xs : List (List Char)}
    (hname : IsCalm name) (hvalue : DefaultTells layout value xs) (hmargin : IsIndent margin) :
    Tells .code .code AtSeparator (name ++ assigned layout margin value) xs :=
  (Tells.of_isCalm hname).append (hvalue margin hmargin) (keeps_assigned value)

theorem tells_semicolon : Tells .code .code Anything ";" [] := .separator (c := ';') (by decide)

theorem opens_semicolon : Opens AtSeparator ";" := .separator (c := ';') (by decide)

/-- Of a constant the name has no literal, and the value tells those that it was read with. -/
theorem readConstantItems_copied (hlayout : IsIndent layout.indent) {c : Cursor} (hc : c.IsIn .code)
    {s : Step 1 (List Constant) c} (hs : readConstantItems c = .ok s) :
    ∃ xss, c.Reaches xss.flatten .code s.rest ∧
      List.Forall₂ (fun i xs => IsCalm i.name ∧ DefaultTells layout (some i.value) xs)
        s.value xss := by
  unfold readConstantItems at hs
  obtain ⟨⟨name, c₁, h₁⟩, hname, hs⟩ := bind_eq_ok.1 hs
  obtain ⟨⟨_, c₂, h₂⟩, hequals, hs⟩ := bind_eq_ok.1 hs
  obtain ⟨⟨value, c₃, h₃⟩, hvalue, hs⟩ := bind_eq_ok.1 hs
  obtain ⟨hreaches₁, hcalm⟩ := hc.takeName hname
  have hreaches₂ := hreaches₁.trans (hreaches₁.isIn.take hequals rfl)
  obtain ⟨xs, hreaches₃, htell⟩ := Expr.read_copied hlayout hreaches₂.isIn hvalue
  have hitem := hreaches₂.trans hreaches₃
  dsimp only at hs
  split at hs
  next _ c₄ h₄ hcomma =>
    obtain ⟨⟨items, c₅, h₅⟩, hitems, hs⟩ := bind_eq_ok.1 hs
    cases hs
    have hreaches₄ := hitem.trans (hitem.isIn.take? hcomma rfl).1
    obtain ⟨xss, hrest, htells⟩ := readConstantItems_copied hlayout hreaches₄.isIn hitems
    have hall := hreaches₄.trans hrest
    exact ⟨xs :: xss, by simpa using hall, .cons ⟨hcalm, defaultTells_some htell⟩ htells⟩
  next =>
    cases hs
    exact ⟨[xs], by simpa using hitem, .cons ⟨hcalm, defaultTells_some htell⟩ .nil⟩
termination_by c.size

/-- Of a field the name has no literal, and the default tells those that it was read with. -/
theorem readFieldItems_copied (hlayout : IsIndent layout.indent) {c : Cursor} (hc : c.IsIn .code)
    {s : Step 1 (List Field) c} (hs : readFieldItems c = .ok s) :
    ∃ xss, c.Reaches xss.flatten .code s.rest ∧
      List.Forall₂ (fun i xs => IsCalm i.name ∧ DefaultTells layout i.default xs) s.value xss := by
  unfold readFieldItems at hs
  obtain ⟨⟨name, c₁, h₁⟩, hname, hs⟩ := bind_eq_ok.1 hs
  obtain ⟨⟨value, c₂, h₂⟩, hvalue, hs⟩ := bind_eq_ok.1 hs
  obtain ⟨hreaches₁, hcalm⟩ := hc.takeVariable hname
  obtain ⟨xs, hreaches₂, htell⟩ := readDefault_copied hlayout hreaches₁.isIn hvalue
  have hitem := hreaches₁.trans hreaches₂
  dsimp only at hs
  split at hs
  next _ c₃ h₃ hcomma =>
    obtain ⟨⟨items, c₄, h₄⟩, hitems, hs⟩ := bind_eq_ok.1 hs
    cases hs
    have hreaches₃ := hitem.trans (hitem.isIn.take? hcomma rfl).1
    obtain ⟨xss, hrest, htells⟩ := readFieldItems_copied hlayout hreaches₃.isIn hitems
    have hall := hreaches₃.trans hrest
    exact ⟨xs :: xss, by simpa using hall, .cons ⟨hcalm, htell⟩ htells⟩
  next =>
    cases hs
    exact ⟨[xs], by simpa using hitem, .cons ⟨hcalm, htell⟩ .nil⟩
termination_by c.size

def TellsAs (layout : Layout) (m : Member) (xs : List (List Char)) : Prop :=
  ∀ margin, IsIndent margin → Tells .code .code Anything (m.text layout margin) xs

/-- Constants are written with the literals of their values, one after the other. -/
theorem readConstants_copied (hlayout : IsIndent layout.indent) {modifiers : Modifiers} {c : Cursor}
    (hc : c.IsIn .code) {s : Step 1 ConstantGroup c} (hs : readConstants modifiers c = .ok s) :
    Copied (fun g => TellsAs layout (.constants g)) s := by
  unfold readConstants at hs
  obtain ⟨⟨type, c₁, h₁⟩, htype, hs⟩ := bind_eq_ok.1 hs
  obtain ⟨⟨items, c₂, h₂⟩, hitems, hs⟩ := bind_eq_ok.1 hs
  obtain ⟨⟨_, c₃, h₃⟩, hend, hs⟩ := bind_eq_ok.1 hs
  cases hs
  obtain ⟨hreaches₁, hcalm⟩ := readTypeUnless_copied hc htype
  obtain ⟨xss, hreaches₂, htells⟩ := readConstantItems_copied hlayout hreaches₁.isIn hitems
  have hreaches₃ := (hreaches₁.trans hreaches₂).trans (hreaches₂.isIn.take hend rfl)
  rw [List.nil_append, List.append_nil] at hreaches₃
  refine ⟨xss.flatten, hreaches₃, fun margin hmargin => ?_⟩
  have htexts : List.Forall₂ (Tells .code .code AtSeparator)
      (items.map fun i => i.name ++ assigned layout margin (some i.value)) xss := by
    rw [List.forall₂_map_left_iff]
    exact htells.imp fun i xs hi => tells_assigned hi.1 hi.2 hmargin
  have hword : Tells .code .code Anything "const " [] :=
    .calm_separator (x := "const") (c := ' ') (by decide) (by decide)
  have hbefore := ((modifiers.tells_text).before hword).before (tells_spaced hcalm)
  have hall :=
    (hbefore.before (Tells.commaList htexts)).append_opens tells_semicolon opens_semicolon
  simp only [List.nil_append, List.append_nil] at hall
  exact hall

/-- Fields are written with the literals of their defaults, one after the other. -/
theorem readFields_copied (hlayout : IsIndent layout.indent) {modifiers : Modifiers} {c : Cursor}
    (hc : c.IsIn .code) {s : Step 1 FieldGroup c} (hs : readFields modifiers c = .ok s) :
    Copied (fun g => TellsAs layout (.fields g)) s := by
  unfold readFields at hs
  obtain ⟨⟨type, c₁, h₁⟩, htype, hs⟩ := bind_eq_ok.1 hs
  obtain ⟨⟨items, c₂, h₂⟩, hitems, hs⟩ := bind_eq_ok.1 hs
  obtain ⟨⟨_, c₃, h₃⟩, hend, hs⟩ := bind_eq_ok.1 hs
  cases hs
  obtain ⟨hreaches₁, hcalm⟩ := readTypeUnless_copied hc htype
  obtain ⟨xss, hreaches₂, htells⟩ := readFieldItems_copied hlayout hreaches₁.isIn hitems
  have hreaches₃ := (hreaches₁.trans hreaches₂).trans (hreaches₂.isIn.take hend rfl)
  rw [List.nil_append, List.append_nil] at hreaches₃
  refine ⟨xss.flatten, hreaches₃, fun margin hmargin => ?_⟩
  have htexts : List.Forall₂ (Tells .code .code AtSeparator)
      (items.map fun i => "$" ++ i.name ++ assigned layout margin i.default) xss := by
    rw [List.forall₂_map_left_iff]
    refine htells.imp fun i xs hi => tells_assigned ?_ hi.2 hmargin
    exact Scan.isCalm_append.2 ⟨by decide, hi.1⟩
  have hbefore := (modifiers.tells_text).before (tells_spaced hcalm)
  have hall :=
    (hbefore.before (Tells.commaList htexts)).append_opens tells_semicolon opens_semicolon
  simp only [List.nil_append, List.append_nil] at hall
  exact hall

/-- A use of mixins has literals only in its rules, which are statements. -/
theorem readMixins_copied (hlayout : IsIndent layout.indent) {c : Cursor} (hc : c.IsIn .code)
    {s : Step 1 MixinUse c} (hs : readMixins c = .ok s) :
    Copied (fun m => TellsAs layout (.mixins m)) s := by
  unfold readMixins at hs
  obtain ⟨⟨_, c₁, h₁⟩, huse, hs⟩ := bind_eq_ok.1 hs
  obtain ⟨⟨names, c₂, h₂⟩, hnames, hs⟩ := bind_eq_ok.1 hs
  have hreaches₁ := hc.takeWord huse
  obtain ⟨hreaches₂, hcalm⟩ := hreaches₁.isIn.takeNames hnames
  have hreaches := hreaches₁.trans hreaches₂
  have hword : Tells .code .code Anything "use " [] :=
    .calm_separator (x := "use") (c := ' ') (by decide) (by decide)
  have hbefore := hword.before (.of_isCalm (Scan.isCalm_commaList hcalm))
  dsimp only at hs
  split at hs
  next =>
    obtain ⟨⟨rules, c₃, h₃⟩, hblock, hs⟩ := bind_eq_ok.1 hs
    cases hs
    obtain ⟨parts, brace, hparts⟩ := Fragment.exists_blockParts hreaches.isIn hblock
    refine ⟨_, hreaches.trans hparts.reaches, fun margin hmargin => ?_⟩
    have hblockText :=
      Fragment.tells_brace.before (Fragment.tells_blockText hlayout hmargin hparts.tells)
    exact hbefore.append_opens hblockText (Fragment.opens_brace.append _)
  next =>
    obtain ⟨⟨_, c₃, h₃⟩, hend, hs⟩ := bind_eq_ok.1 hs
    cases hs
    refine ⟨[], hreaches.trans (hreaches.isIn.take hend rfl), fun margin hmargin => ?_⟩
    exact hbefore.append_opens tells_semicolon opens_semicolon

end Member

end ClassEdit
