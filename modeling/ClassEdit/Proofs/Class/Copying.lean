import ClassEdit.Proofs.Class.RoutineCopying

/-!
Literals in classes. Main statement: the text of a class that was read tells the literals that
stand where it was read.
-/

namespace ClassEdit

open Scan (IsCalm)

/-- The comments around a statement are comments, and its attributes tell the literals. -/
structure TriviaTells (t : Trivia) (xss : List (List (List Char))) : Prop where
  comments : ∀ x ∈ t.comments, IsComment x
  attributes : List.Forall₂ TokensTell t.attributes xss
  trailing : ∀ x ∈ t.trailing, IsComment x

namespace TriviaTells

variable {t : Trivia} {xss : List (List (List Char))} {margin : String}

/-- What stands before a statement tells the literals of its attributes; its comments have none. -/
theorem leadingText (h : TriviaTells t xss) (hmargin : IsIndent margin) :
    Tells .code .code Anything (t.leadingText margin) xss.flatten := by
  have hline {ends : List Char → Prop} {x : String} {xs : List (List Char)}
      (hx : Tells .code .code ends (reindent margin x) xs) (hends : Opens ends "\n") :
      Tells .code .code Anything (margin ++ reindent margin x ++ "\n") xs := by
    simpa using (hmargin.tells.before hx).append_opens tells_newline hends
  have hcomments : List.Forall₂ (Tells .code .code Anything)
      (t.comments.map fun x => margin ++ reindent margin x ++ "\n")
        (t.comments.map fun _ => []) := by
    rw [List.forall₂_map_left_iff, List.forall₂_map_right_iff]
    exact List.forall₂_same.2 fun x hx =>
      hline ((h.comments x hx).reindent hmargin).tells Opens.newline
  have hattributes : List.Forall₂ (Tells .code .code Anything)
      (t.attributes.map fun x => margin ++ reindent margin x ++ "\n") xss := by
    rw [List.forall₂_map_left_iff]
    exact h.attributes.imp fun x xs hx =>
      hline (hx.reindent hmargin).tells Opens.newline.atSeparator
  have hall := (Tells.join hcomments fun _ _ _ _ => trivial).before
    (Tells.join hattributes fun _ _ _ _ => trivial)
  rw [Trivia.leadingText, List.map_append, String.join_append]
  simpa using hall

theorem trailingText (h : TriviaTells t xss) : Tells .code .code AtLineEnd t.trailingText [] :=
  Expr.tells_trailing h.trailing

end TriviaTells

/-- The comments and the attributes before a statement are read. -/
theorem Cursor.IsIn.leadingTrivia {c : Cursor} (hc : c.IsIn .code) {s : Step 0 (List String) c}
    (hs : c.takeAttributes = .ok s) :
    ∃ xss, c.Reaches xss.flatten .code s.rest ∧
      TriviaTells { c.leadingTrivia with attributes := s.value } xss := by
  obtain ⟨xss, hreaches, htells⟩ := hc.takeAttributes hs
  exact ⟨xss, hreaches, hc.isComment_texts, htells, nofun⟩

/-- The comment behind a statement is read. -/
theorem Cursor.IsIn.finish {mode : Mode} {c : Cursor} (hc : c.IsIn mode) {t : Trivia}
    {xss : List (List (List Char))} (h : TriviaTells t xss) :
    c.Reaches [] mode (c.finish t).rest ∧ TriviaTells (c.finish t).value xss :=
  ⟨hc.sameLineComment.1, h.comments, h.attributes, hc.isComment_sameLine⟩

namespace MemberStmt

variable {layout : Layout} {margin : String}

def TellsAs (layout : Layout) (m : MemberStmt) (xs : List (List Char)) : Prop :=
  ∃ xss ys, xs = xss.flatten ++ ys ∧ TriviaTells m.trivia xss ∧ m.member.TellsAs layout ys

theorem TellsAs.textAfter {m : MemberStmt} {xs : List (List Char)} (h : m.TellsAs layout xs)
    (hmargin : IsIndent margin) (previous : Option MemberStmt) :
    Tells .code .code AtLineEnd (m.textAfter layout margin previous) xs := by
  obtain ⟨xss, ys, rfl, htrivia, hmember⟩ := h
  have hbreak := Fragment.tells_lineBreak (m.trivia.blankBefore.getD (usualGap previous m))
  have hleading := (hbreak.before (htrivia.leadingText hmargin)).before hmargin.tells
  have hall := (hleading.before (hmember margin hmargin)).before htrivia.trailingText
  simp only [List.nil_append, List.append_nil] at hall
  exact hall

theorem keeps_listText (previous : Option MemberStmt) (ms : List MemberStmt) :
    Keeps AtLineEnd (listText layout margin previous ms) := by
  cases ms with
  | nil => exact .nil _
  | cons m ms =>
      exact ((((((Fragment.opens_lineBreak _).append _).append _).append _).append _).append
        _).keeps

theorem tells_listText {ms : List MemberStmt} {xss : List (List (List Char))}
    (hmargin : IsIndent margin) (h : List.Forall₂ (TellsAs layout) ms xss)
    (previous : Option MemberStmt) :
    Tells .code .code AtLineEnd (listText layout margin previous ms) xss.flatten := by
  induction h generalizing previous with
  | nil => exact .nil .code _
  | cons hm _ ih => exact (hm.textAfter hmargin previous).append (ih _) (keeps_listText _ _)

end MemberStmt

namespace Member

variable {layout : Layout}

/-- A member of any kind is written with the literals that stand where it was read. -/
theorem readBare_copied (hlayout : IsIndent layout.indent) {c : Cursor} (hc : c.IsIn .code)
    {s : Step 1 Member c} (hs : readBare c = .ok s) : Copied (TellsAs layout) s := by
  unfold readBare at hs
  split at hs
  next =>
    obtain ⟨⟨use, c₁, h₁⟩, huse, hs⟩ := bind_eq_ok.1 hs
    cases hs
    exact readMixins_copied hlayout hc huse
  next =>
    have hreaches := Modifiers.read_copied hc
    dsimp only at hs
    split at hs
    next hword =>
      obtain ⟨⟨group, c₃, h₃⟩, hgroup, hs⟩ := bind_eq_ok.1 hs
      cases hs
      have hreaches₂ := hreaches.trans (hreaches.isIn.takeWord? hword)
      obtain ⟨xs, hrest, htell⟩ := readConstants_copied hlayout hreaches₂.isIn hgroup
      exact ⟨xs, hreaches₂.trans hrest, htell⟩
    next =>
      split at hs
      next =>
        obtain ⟨⟨r, c₂, h₂⟩, hroutine, hs⟩ := bind_eq_ok.1 hs
        cases hs
        obtain ⟨xs, hrest, htell⟩ := readRoutine_copied hlayout hreaches.isIn hroutine
        exact ⟨xs, hreaches.trans hrest, htell⟩
      next =>
        split at hs
        next => cases hs
        next =>
          obtain ⟨⟨group, c₂, h₂⟩, hgroup, hs⟩ := bind_eq_ok.1 hs
          cases hs
          obtain ⟨xs, hrest, htell⟩ := readFields_copied hlayout hreaches.isIn hgroup
          exact ⟨xs, hreaches.trans hrest, htell⟩

/-- The literals of a member are those of its attributes and behind them those of the member
itself. -/
theorem readStmt_copied (hlayout : IsIndent layout.indent) {c : Cursor} (hc : c.IsIn .code)
    {s : Step 1 MemberStmt c} (hs : readStmt c = .ok s) : Copied (MemberStmt.TellsAs layout) s := by
  unfold readStmt at hs
  obtain ⟨⟨attributes, c₁, h₁⟩, hattributes, hs⟩ := bind_eq_ok.1 hs
  obtain ⟨⟨member, c₂, h₂⟩, hmember, hs⟩ := bind_eq_ok.1 hs
  cases hs
  obtain ⟨xss, hreaches₁, htrivia⟩ := hc.leadingTrivia hattributes
  obtain ⟨ys, hreaches₂, htell⟩ := readBare_copied hlayout hreaches₁.isIn hmember
  obtain ⟨hreaches₃, htrivia⟩ := hreaches₂.isIn.finish htrivia
  have hreaches := (hreaches₁.trans hreaches₂).trans hreaches₃
  rw [List.append_nil] at hreaches
  exact ⟨_, hreaches, xss, ys, rfl, htrivia, htell⟩

/-- The literals of the members follow one another as the members do. -/
theorem readAll_copied (hlayout : IsIndent layout.indent) {c : Cursor} (hc : c.IsIn .code)
    {s : Step 0 (List MemberStmt) c} (hs : readAll c = .ok s) :
    ∃ xss, c.Reaches xss.flatten .code s.rest ∧
      List.Forall₂ (MemberStmt.TellsAs layout) s.value xss := by
  unfold readAll at hs
  split at hs
  next =>
    cases hs
    exact ⟨[], hc.refl, .nil⟩
  next =>
    split at hs
    next => cases hs
    next =>
      obtain ⟨⟨member, c₁, h₁⟩, hmember, hs⟩ := bind_eq_ok.1 hs
      obtain ⟨⟨members, c₂, h₂⟩, hmembers, hs⟩ := bind_eq_ok.1 hs
      cases hs
      obtain ⟨xs, hreaches, htell⟩ := readStmt_copied hlayout hc hmember
      obtain ⟨xss, hrest, htells⟩ := readAll_copied hlayout hreaches.isIn hmembers
      exact ⟨xs :: xss, hreaches.trans hrest, .cons htell htells⟩
termination_by c.size

end Member

namespace ClassDecl

variable {layout : Layout} {margin : String}

theorem takeModifier?_copied {c : Cursor} (hc : c.IsIn .code) {s : Step 1 ClassModifier c}
    (hs : takeModifier? c = some s) : c.Reaches [] .code s.rest := by
  have hword {w : String} {m : ClassModifier} {s : Step 1 ClassModifier c}
      (hs : (c.takeWord? w).map (·.map fun _ => m) = some s) : c.Reaches [] .code s.rest := by
    obtain ⟨s', hs', rfl⟩ := Option.map_eq_some_iff.1 hs
    exact hc.takeWord? hs'
  unfold takeModifier? at hs
  rcases Option.or_eq_some_iff.1 hs with hs | ⟨-, hs⟩
  · exact hword hs
  · rcases Option.or_eq_some_iff.1 hs with hs | ⟨-, hs⟩ <;> exact hword hs

theorem readModifiers_copied {c : Cursor} (hc : c.IsIn .code) :
    c.Reaches [] .code (readModifiers c).rest := by
  unfold readModifiers
  split
  next m c₁ h₁ hm =>
    have hreaches := takeModifier?_copied hc hm
    exact hreaches.trans (readModifiers_copied hreaches.isIn)
  next => exact hc.refl
termination_by c.size

theorem readParent_copied {c : Cursor} (hc : c.IsIn .code) {s : Step 0 (Option String) c}
    (hs : readParent c = .ok s) : c.Reaches [] .code s.rest ∧ ∀ x ∈ s.value, IsCalm x := by
  unfold readParent at hs
  split at hs
  next hword =>
    obtain ⟨⟨name, c₂, h₂⟩, hname, hs⟩ := bind_eq_ok.1 hs
    cases hs
    have hreaches := hc.takeWord? hword
    obtain ⟨hrest, hcalm⟩ := hreaches.isIn.takeName hname
    exact ⟨hreaches.trans hrest, fun x hx => Option.some.inj hx ▸ hcalm⟩
  next =>
    cases hs
    exact ⟨hc.refl, by simp⟩

theorem readInterfaces_copied {c : Cursor} (hc : c.IsIn .code) {s : Step 0 (List String) c}
    (hs : readInterfaces c = .ok s) : c.Reaches [] .code s.rest ∧ ∀ x ∈ s.value, IsCalm x := by
  unfold readInterfaces at hs
  split at hs
  next hword =>
    obtain ⟨⟨names, c₂, h₂⟩, hnames, hs⟩ := bind_eq_ok.1 hs
    cases hs
    have hreaches := hc.takeWord? hword
    obtain ⟨hrest, hcalm⟩ := hreaches.isIn.takeNames hnames
    exact ⟨hreaches.trans hrest, hcalm⟩
  next =>
    cases hs
    exact ⟨hc.refl, List.forall_mem_nil _⟩

/-- The head of a class is made of names, and names hold no literal. -/
theorem isCalm_headerText {d : ClassDecl} (hname : IsCalm d.name)
    (hparent : ∀ x ∈ d.parent, IsCalm x) (hinterfaces : ∀ x ∈ d.interfaces, IsCalm x) :
    IsCalm d.headerText := by
  have hmodifiers : IsCalm (String.join (d.modifiers.map fun m => m.keyword ++ " ")) := by
    refine Scan.isCalm_join fun x hx => ?_
    obtain ⟨m, -, rfl⟩ := List.mem_map.1 hx
    cases m <;> decide
  have hextends : IsCalm (d.parent.elim "" (" extends " ++ ·)) := by
    cases hp : d.parent with
    | none => decide
    | some x => exact Scan.isCalm_append.2 ⟨by decide, hparent x hp⟩
  have himplements : IsCalm (if d.interfaces.isEmpty then "" else " implements " ++
      commaList d.interfaces) := by
    split
    next => decide
    next => exact Scan.isCalm_append.2 ⟨by decide, Scan.isCalm_commaList hinterfaces⟩
  have hclass : IsCalm "class " := by decide
  simp only [headerText, Scan.isCalm_append]
  exact ⟨⟨⟨⟨hmodifiers, hclass⟩, hname⟩, hextends⟩, himplements⟩

/-- The text of a class tells the literals of its members. -/
theorem tells_text (hlayout : IsIndent layout.indent) (hmargin : IsIndent margin) {d : ClassDecl}
    {xss yss : List (List (List Char))} (hheader : IsCalm d.headerText)
    (htrivia : TriviaTells d.trivia xss)
    (hmembers : List.Forall₂ (MemberStmt.TellsAs layout) d.members yss)
    (hclosing : ∀ x ∈ d.closingComments, IsComment x) :
    Tells .code .code AtLineEnd (d.text layout margin) yss.flatten := by
  have hinner := hmargin.append hlayout
  have hopen : Tells .code .code Anything "\x7b" [] := .mark Scan.isToken_leftBrace rfl rfl
  have hclose : Tells .code .code Anything "\x7d" [] := .mark Scan.isToken_rightBrace rfl rfl
  have hbefore :=
    (((Tells.of_isCalm hheader).append_opens tells_newline Opens.newline.atSeparator).before
    hmargin.tells).before hopen
  have hlines := (hbefore.before (MemberStmt.tells_listText hinner hmembers none)).append
    (tells_linesAt hinner hclosing) (keeps_linesAt _ _)
  have hall :=
    (((hlines.append_opens tells_newline Opens.newline).before hmargin.tells).before hclose).before
    htrivia.trailingText
  simp only [List.nil_append, List.append_nil] at hall
  exact hall

/-- The literals of a class are those of its attributes and of its members, in the order of the
source. -/
theorem read_copied (hlayout : IsIndent layout.indent) {trivia : Trivia}
    {xss : List (List (List Char))} (htrivia : TriviaTells trivia xss) {c : Cursor}
    (hc : c.IsIn .code) {s : Step 1 ClassDecl c} (hs : read trivia c = .ok s) :
    TriviaTells s.value.trivia xss ∧
      Copied (fun d ys => ∀ margin, IsIndent margin → Tells .code .code AtLineEnd
        (d.text layout margin) ys) s := by
  unfold read at hs
  dsimp only at hs
  obtain ⟨⟨_, c₂, h₂⟩, hword, hs⟩ := bind_eq_ok.1 hs
  obtain ⟨⟨name, c₃, h₃⟩, hname, hs⟩ := bind_eq_ok.1 hs
  obtain ⟨⟨parent, c₄, h₄⟩, hparent, hs⟩ := bind_eq_ok.1 hs
  obtain ⟨⟨interfaces, c₅, h₅⟩, hinterfaces, hs⟩ := bind_eq_ok.1 hs
  obtain ⟨⟨_, c₆, h₆⟩, hopen, hs⟩ := bind_eq_ok.1 hs
  obtain ⟨⟨members, c₇, h₇⟩, hmembers, hs⟩ := bind_eq_ok.1 hs
  obtain ⟨⟨_, c₈, h₈⟩, hclose, hs⟩ := bind_eq_ok.1 hs
  cases hs
  have hreaches₁ := readModifiers_copied hc
  have hreaches₂ := hreaches₁.trans (hreaches₁.isIn.takeWord hword)
  obtain ⟨hname, hcalmName⟩ := hreaches₂.isIn.takeName hname
  have hreaches₃ := hreaches₂.trans hname
  obtain ⟨hparent, hcalmParent⟩ := readParent_copied hreaches₃.isIn hparent
  have hreaches₄ := hreaches₃.trans hparent
  obtain ⟨hinterfaces, hcalmInterfaces⟩ := readInterfaces_copied hreaches₄.isIn hinterfaces
  have hreaches₅ := hreaches₄.trans hinterfaces
  have hreaches₆ := hreaches₅.trans (hreaches₅.isIn.take hopen rfl)
  obtain ⟨yss, hmembers, htells⟩ := Member.readAll_copied hlayout hreaches₆.isIn hmembers
  have hreaches₇ := hreaches₆.trans hmembers
  have hreaches₈ := hreaches₇.trans (hreaches₇.isIn.take hclose rfl)
  obtain ⟨hreaches₉, htrivia⟩ := hreaches₈.isIn.finish htrivia
  have hreaches := hreaches₈.trans hreaches₉
  simp only [List.nil_append, List.append_nil] at hreaches
  refine ⟨htrivia, yss.flatten, hreaches, fun margin hmargin => ?_⟩
  exact tells_text hlayout hmargin (isCalm_headerText hcalmName hcalmParent hcalmInterfaces)
    htrivia htells
    hmembers.isIn.isComment_texts

end ClassDecl

end ClassEdit
