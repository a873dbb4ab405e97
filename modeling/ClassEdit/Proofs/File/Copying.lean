import ClassEdit.Proofs.File.ImportCopying

/-!
Literals in lists of statements. Statements follow one another on lines of their own, and the last
of them can end outside of the tags. Main statement: the statements that were read tell the literals
that stand where they were read, up to the end of the list or of the file.
-/

namespace ClassEdit

open Scan (Scanned Holds IsCalm modeAfter)

section Tags

theorem tells_closeTag : Tells .code .html Anything "?>" [] :=
  .of_holds fun follow zs _ hrest => by
    have htoken : Scan.IsToken .closeTag "?>".toList follow := ⟨'?', ['>'], rfl, rfl, fun _ => rfl⟩
    exact hrest.lexeme (Scan.begins_code_iff.2 htoken)

theorem atOpenTag_of_atLineEnd {follow : List Char} (h : AtLineEnd follow) :
    Scan.atOpenTag ("<?php".toList ++ follow) = true := by
  rw [Scan.atOpenTag_append rfl, Bool.and_eq_true]
  refine ⟨by decide, ?_⟩
  cases follow with
  | nil => rfl
  | cons c r =>
    rw [h c rfl]
    rfl

theorem tells_openTag : Tells .html .code AtLineEnd "<?php" [] :=
  .of_holds fun follow zs hfollow hrest => by
    have hbegins : Scan.Begins .html .openTag "<?php".toList follow :=
      Scan.begins_html_iff.2 (.inl ⟨rfl, by decide, atOpenTag_of_atLineEnd hfollow⟩)
    exact hrest.lexeme hbegins

/-- Text outside of the tags, up to a tag that opens the code. -/
theorem tells_html {x d : List Char} (hx : Scan.Begins .html .html x d) :
    Tells .html .code AtLineEnd (String.ofList x ++ "<?php") [] := by
  refine .of_holds fun follow zs hfollow hrest => ?_
  obtain ⟨us, hus, htag⟩ := tells_openTag
  cases hus
  have hcode := htag follow zs hfollow hrest
  rcases Scan.begins_html_iff.1 hx with ⟨hkind, -⟩ | ⟨-, hne, hlength⟩
  · cases hkind
  have hbegins : Scan.Begins .html .html x ("<?php".toList ++ follow) :=
    Scan.begins_html_iff.2
      (.inr ⟨rfl, hne, Scan.htmlLength_before_tag hlength (atOpenTag_of_atLineEnd hfollow)⟩)
  rw [String.toList_append, String.toList_ofList, List.append_assoc]
  exact hcode.lexeme hbegins

end Tags

/-- The cursor stands behind statements. Outside of the tags nothing is left but the end. -/
structure Cursor.IsBehind (mode : Mode) (c : Cursor) : Prop where
  isIn : c.IsIn mode
  outside : mode = .html → c.ahead = [] ∧ c.head.comments = []

theorem Cursor.IsIn.isBehind {c : Cursor} (hc : c.IsIn .code) : c.IsBehind .code := ⟨hc, nofun⟩

theorem Cursor.IsBehind.mode_of_ahead {mode : Mode} {c : Cursor} (hc : c.IsBehind mode)
    (hahead : c.ahead ≠ []) :
    mode = .code := by
  cases mode with
  | code => rfl
  | html => exact absurd (hc.outside rfl).1 hahead

/-- Where no comment stands, none is taken. -/
theorem Cursor.finish_of_nil {c : Cursor} (h : c.head.comments = []) (t : Trivia) :
    (c.finish t).rest = c ∧ (c.finish t).value.trailingText = "" := by
  rcases c.sameLineComment_cases with ⟨hnone, hsame, -⟩ | ⟨l, ls, hsome, -⟩
  · have htrailing : (c.finish t).value.trailing = none :=
      congrArg (Option.map Lexeme.commentText) hnone
    refine ⟨hsame, ?_⟩
    rw [Trivia.trailingText, htrailing]
    rfl
  · cases h.symm.trans hsome

namespace Trivia

/-- Behind a statement comes the end of its line, or a space and a comment. -/
theorem trailingText_cases {t : Trivia} {follow : List Char} (hfollow : AtLineEnd follow) :
    ∀ c ∈ (t.trailingText.toList ++ follow).head?, c = ' ' ∨ c = '\n' := by
  unfold trailingText
  cases t.trailing with
  | none =>
    intro c hc
    exact .inr (hfollow c (by simpa using hc))
  | some x =>
    intro c hc
    simp only [Option.elim_some, String.toList_append] at hc
    exact .inl (Option.some.inj hc).symm

end Trivia

namespace Stmt

variable {layout : Layout} {margin : String}

/-- A statement that is kept as text is written with the literals in it. -/
theorem readRaw_copied {trivia : Trivia} {xss : List (List (List Char))}
    (htrivia : TriviaTells trivia xss) {c : Cursor} (hc : c.IsIn .code) {s : Step 1 RawStmt c}
    (hs : readRaw trivia c = .ok s) :
    ∃ xs mode, c.Reaches xs mode s.rest ∧ s.rest.IsBehind mode ∧ TriviaTells s.value.trivia xss ∧
      ∀ margin, IsIndent margin → Tells .code mode AtLineEnd
        (reindent margin s.value.text ++ s.value.trivia.trailingText) xs := by
  unfold readRaw at hs
  obtain ⟨⟨ts, c₁, h₁⟩, htake, hs⟩ := bind_eq_ok.1 hs
  cases hs
  obtain ⟨u, hu, hout, hword, -⟩ := hc.stands.takeStatement htake
  obtain ⟨n, -, -, hvalue, hrest⟩ := Cursor.takeStatement_eq_ok htake
  obtain ⟨t, ts, rfl⟩ := List.exists_cons_of_ne_nil (List.ne_nil_of_mem (List.mem_of_getLast? hu))
  have hsegment := hc.segment hvalue.symm hu
  rw [← hrest] at hsegment
  obtain ⟨kind, ys, hexcerpt, hys, hafter, hkind⟩ := hsegment.isExcerpt hout hword
  obtain ⟨hcomment, htrivia⟩ := hsegment.reaches.isIn.finish htrivia
  have hreaches := hsegment.reaches.trans hcomment
  rw [List.append_nil] at hreaches
  cases hmode : modeAfter u.kind with
  | html =>
    rw [hmode] at hreaches
    obtain ⟨hahead, hcomments⟩ := hout hmode
    obtain ⟨hend, hnothing⟩ := c₁.finish_of_nil hcomments trivia
    have hbehind : (c₁.finish trivia).rest.IsBehind .html :=
      ⟨hreaches.isIn, fun _ => by rw [hend]; exact ⟨hahead, hcomments⟩⟩
    refine ⟨_, .html, hreaches, hbehind, htrivia, fun margin hmargin => ?_⟩
    have htext : Tells .code .html AtLineEnd (reindent margin (excerptOf (t :: ts)) ++
        (c₁.finish trivia).value.trailingText)
          (Lexeme.literals (t.toLexeme :: ts.flatMap Token.pieces)) := by
      refine ⟨ys, hys, fun follow zs hfollow hzs => ?_⟩
      rw [hnothing, String.append_empty]
      exact (hexcerpt.reindent hmargin).holds_atLineEnd hfollow (by rwa [hafter, hmode])
    exact htext
  | code =>
    rw [hmode] at hreaches
    obtain rfl := hkind (by rintro hhtml; rw [hhtml] at hmode; cases hmode)
    refine ⟨_, .code, hreaches, hreaches.isIn.isBehind, htrivia, fun margin hmargin => ?_⟩
    have htext : Tells .code .code (fun follow => ∀ c ∈ follow.head?, c = ' ' ∨ c = '\n')
        (reindent margin (excerptOf (t :: ts)))
          (Lexeme.literals (t.toLexeme :: ts.flatMap Token.pieces)) := by
      refine ⟨ys, hys, fun follow zs hfollow hzs => ?_⟩
      refine (hexcerpt.reindent hmargin).holds_atSeparator hsegment.kind hmode (fun _ c hc => ?_)
        (fun c hc => ?_) hzs
      · rcases hfollow c hc with rfl | rfl <;> rfl
      · rcases hfollow c hc with rfl | rfl <;> decide
    have hall := htext.append htrivia.trailingText fun follow hfollow =>
      Trivia.trailingText_cases hfollow
    rwa [List.append_nil] at hall

/-- A statement in a list, with its spacing and its comments. -/
def entryText (layout : Layout) (margin : String) (atTop : Bool) (previous : Option Stmt) :
    Stmt → String
  | .html x => text layout margin (.html x)
  | s => leadingText margin atTop previous s ++ text layout margin s

theorem listText_eq (atTop : Bool) (previous : Option Stmt) (s : Stmt) (ss : List Stmt) :
    listText layout margin atTop previous (s :: ss) =
      entryText layout margin atTop previous s ++ listText layout margin atTop (some s) ss := by
  cases s <;> rw [listText] <;> first | rfl | nofun

theorem opens_entryText (atTop : Bool) (previous : Option Stmt) (s : Stmt) :
    Opens AtLineEnd (entryText layout margin atTop previous s) := by
  have hleading (s : Stmt) : Opens AtLineEnd
      (leadingText margin atTop previous s ++ text layout margin s) :=
    (((Fragment.opens_lineBreak _).append _).append _).append _
  cases s with
  | html x =>
    have htag : Opens AtLineEnd "\n?>" := Opens.newline.append "?>"
    rw [entryText, text]
    exact (htag.append _).append _
  | _ => exact hleading _

theorem keeps_listText (atTop : Bool) (previous : Option Stmt) (ss : List Stmt) :
    Keeps AtLineEnd (listText layout margin atTop previous ss) := by
  cases ss with
  | nil => exact .nil _
  | cons s ss =>
    rw [listText_eq]
    exact ((opens_entryText atTop previous s).append _).keeps

/-- The statement tells the literals in any list. Behind it a scanner stands in the mode. -/
def TellsAs (layout : Layout) (mode : Mode) (s : Stmt) (xs : List (List Char)) : Prop :=
  ∀ margin atTop previous, IsIndent margin →
    Tells .code mode AtLineEnd (entryText layout margin atTop previous s) xs

theorem tells_leadingText {s : Stmt} {t : Trivia} {xss : List (List (List Char))}
    (hs : s.trivia? = some t) (ht : TriviaTells t xss) (hmargin : IsIndent margin) (atTop : Bool)
    (previous : Option Stmt) :
    Tells .code .code Anything (leadingText margin atTop previous s) xss.flatten := by
  have hbreak :=
    Fragment.tells_lineBreak ((s.trivia?.getD .empty).blankBefore.getD (usualGap atTop previous s))
  rw [hs, Option.getD_some] at hbreak
  have hall := (hbreak.before (ht.leadingText hmargin)).before hmargin.tells
  rw [List.nil_append, List.append_nil] at hall
  unfold leadingText
  rw [hs, Option.getD_some]
  exact hall

/-- A statement is written with the literals that stand where it was read. -/
theorem readOrdinary_copied (hlayout : IsIndent layout.indent) {c : Cursor} (hc : c.IsIn .code)
    {s : Step 1 Stmt c} (hs : readOrdinary c = .ok s) :
    ∃ xs mode, c.Reaches xs mode s.rest ∧ s.rest.IsBehind mode ∧
      TellsAs layout mode s.value xs := by
  unfold readOrdinary at hs
  obtain ⟨⟨attributes, c₁, h₁⟩, hattributes, hs⟩ := bind_eq_ok.1 hs
  obtain ⟨xss, hreaches, htrivia⟩ := hc.leadingTrivia hattributes
  dsimp only at hs
  split at hs
  next =>
    obtain ⟨⟨i, c₂, h₂⟩, hi, hs⟩ := bind_eq_ok.1 hs
    cases hs
    obtain ⟨hrest, htrivia, hcalm⟩ := Import.read_copied htrivia hreaches.isIn hi
    have hall := hreaches.trans hrest
    refine ⟨_, .code, hall, hall.isIn.isBehind, fun margin atTop previous hmargin => ?_⟩
    have hleading := tells_leadingText (s := .import_ i) rfl htrivia hmargin atTop previous
    have htext := (Tells.of_isCalm hcalm).append htrivia.trailingText fun follow hfollow c hc => by
      rcases Trivia.trailingText_cases hfollow c hc with rfl | rfl <;> decide
    exact hleading.before htext
  next =>
    split at hs
    next =>
      obtain ⟨⟨decl, c₂, h₂⟩, hdecl, hs⟩ := bind_eq_ok.1 hs
      cases hs
      obtain ⟨htrivia, ys, hrest, htell⟩ :=
        ClassDecl.read_copied hlayout htrivia hreaches.isIn hdecl
      have hall := hreaches.trans hrest
      refine ⟨_, .code, hall, hall.isIn.isBehind, fun margin atTop previous hmargin => ?_⟩
      have hleading := tells_leadingText (s := .class_ decl) rfl htrivia hmargin atTop previous
      exact hleading.before (htell margin hmargin)
    next =>
      obtain ⟨⟨raw, c₂, h₂⟩, hraw, hs⟩ := bind_eq_ok.1 hs
      cases hs
      obtain ⟨ys, mode, hrest, hbehind, htrivia, htell⟩ := readRaw_copied htrivia hreaches.isIn hraw
      refine ⟨_, mode, hreaches.trans hrest, hbehind, fun margin atTop previous hmargin => ?_⟩
      split
      next =>
        have hleading := tells_leadingText (s := .declare raw) rfl htrivia hmargin atTop previous
        exact hleading.before (htell margin hmargin)
      next =>
        have hleading := tells_leadingText (s := .raw raw) rfl htrivia hmargin atTop previous
        exact hleading.before (htell margin hmargin)

theorem html_of_begins {mode : Mode} {x d : List Char} (h : Scan.Begins mode .html x d) :
    Scan.Begins .html .html x d := by
  cases mode with
  | html => exact h
  | code => exact absurd rfl (Scan.begins_code_iff.1 h).kind_ne_html

/-- Outside of the tags there is nothing before the end but other text. -/
theorem eq_nil_of_scanned {p : Position} {cs : List Char} {l : Lexeme}
    (h : Scanned .html p cs [l]) : cs = [] := by
  generalize hls : [l] = ls at h
  cases h with
  | eof _ hgap => exact hgap
  | cons _ _ hrest =>
    obtain ⟨-, rfl⟩ := List.cons.inj hls
    exact absurd rfl hrest.ne_nil

/-- Text before the end goes up to the end. -/
theorem holds_of_take_html {mode : Mode} {c : Cursor} (hc : c.IsIn mode) {s : Step 1 Token c}
    (hs : c.take? .html = some s) (hend : s.rest.ahead = []) : Holds .html s.value.text [] := by
  obtain ⟨m, hlexed⟩ := hc.lexed
  obtain ⟨hpieces, hkind, -⟩ := hlexed.take? hs
  obtain ⟨hnext, -⟩ := Option.filter_eq_some_iff.1 hs
  have hhead : c.head = s.value := by
    rw [Cursor.head, (Cursor.next?_eq_some hnext).1]
    rfl
  obtain ⟨p, cs, hscanned⟩ := hc.scanned
  obtain ⟨q, d, hbehind⟩ := (hc.take? hs rfl).1.isIn.scanned
  have hnone := (Cursor.outside_of_scanned hbehind (hc.take? hs rfl).1.isIn.lexed).1
  rw [hpieces, List.append_cons, hhead] at hscanned
  rw [hhead] at hkind
  obtain ⟨mode', r, e, hx, he⟩ := hscanned.begins_last (Cursor.pieces_ne_nil _) List.getLast?_concat
  rw [hkind] at hx he
  rw [Cursor.pieces_of_nil hend, hnone] at he
  obtain rfl := eq_nil_of_scanned he
  have hlexeme := (Holds.nil .html).lexeme (html_of_begins hx)
  rwa [List.append_nil] at hlexeme

/-- Text outside of the tags is read up to the tag behind it or up to the end. -/
theorem readOutside_copied {c : Cursor} (hc : c.IsIn .code) {s : Step 1 String c}
    (hs : readOutside c = .ok s) :
    c.Reaches [] .html s.rest ∧ Tells .html .code AtLineEnd (s.value ++ "<?php") [] ∧
      (s.rest.ahead = [] → Holds .html s.value.toList []) := by
  unfold readOutside at hs
  obtain ⟨⟨_, c₁, h₁⟩, hclose, hs⟩ := bind_eq_ok.1 hs
  have hreaches := hc.take hclose rfl
  dsimp only at hs
  split at hs
  next t c₂ h₂ htext =>
    cases hs
    obtain ⟨hrest, hkind, _, d, hbegins⟩ := hreaches.isIn.take? htext rfl
    have hx : Scan.Begins .html .html t.text d := html_of_begins hbegins
    refine ⟨hreaches.trans hrest, tells_html hx, fun hahead => ?_⟩
    have hend := holds_of_take_html hreaches.isIn htext hahead
    rwa [← String.toList_ofList (l := t.text)] at hend
  next =>
    cases hs
    exact ⟨hreaches, tells_openTag, fun _ => Holds.nil .html⟩

/-- Where the statements of a list end. Behind a closing tag nothing is left, and the text
behind it is no code. -/
def EndsIn (mode : Mode) (c : Cursor) : Option String → Prop
  | none => c.IsBehind mode
  | some text => mode = .code ∧ c.IsIn .html ∧ c.ahead = [] ∧ Holds .html text.toList []

/-- The statements between two cursors tell the literals, with the comments behind them. -/
structure ListingTells (layout : Layout) (mode mode' : Mode) (c : Cursor)
    (l : Listing) (c₁ : Cursor) (xs : List (List Char)) : Prop where
  literals : Lexeme.literals c.pieces = xs ++ Lexeme.literals c₁.pieces
  stmts : ∀ margin atTop previous, IsIndent margin →
    Tells mode mode' AtLineEnd (listText layout margin atTop previous l.stmts) xs
  closing : ∀ x ∈ l.closingComments, IsComment x
  outside : mode' = .html → l.closingComments = []
  ends : EndsIn mode' c₁ l.epilogue

namespace ListingTells

variable {mode mode' : Mode} {c c₁ c₂ : Cursor} {l : Listing} {xs ys : List (List Char)}

theorem cons {s : Stmt} (hliterals : Lexeme.literals c.pieces = xs ++ Lexeme.literals c₁.pieces)
    (hs : TellsAs layout mode s xs) (h : ListingTells layout mode mode' c₁ l c₂ ys) :
    ListingTells layout .code mode' c (l.cons s) c₂ (xs ++ ys) where
  literals := by rw [hliterals, h.literals, List.append_assoc]
  stmts margin atTop previous hmargin := by
    rw [Listing.cons, listText_eq]
    exact (hs margin atTop previous hmargin).append (h.stmts margin atTop (some s) hmargin)
      (keeps_listText _ _ _)
  closing := h.closing
  outside := h.outside
  ends := h.ends

/-- No statement is left. -/
theorem nil (hc : c.IsBehind mode)
    (hliterals : Lexeme.literals c.pieces = Lexeme.literals c₁.pieces)
    (hends : EndsIn mode c₁ none) :
    ListingTells layout mode mode c ⟨[], Expr.commentTexts c.head.comments, none⟩ c₁ [] where
  literals := hliterals
  stmts _ _ _ _ := .nil mode _
  closing := hc.isIn.isComment_texts
  outside hhtml := by rw [(hc.outside hhtml).2]; rfl
  ends := hends

theorem closingText (h : ListingTells layout mode mode' c l c₁ xs) (hmargin : IsIndent margin) :
    Tells mode' mode' AtLineEnd (closingText margin l.closingComments) [] := by
  cases mode' with
  | code => exact tells_linesAt hmargin h.closing
  | html =>
    rw [h.outside rfl]
    exact .nil .html _

end ListingTells

/-- Behind a closing tag, other text goes up to the end. -/
theorem ListingTells.epilogue {c : Cursor} (hc : c.IsIn .code) {s : Step 1 String c}
    (hs : readOutside c = .ok s) (hnil : s.rest.ahead.isEmpty = true) :
    ListingTells layout .code .code c ⟨[], Expr.commentTexts c.head.comments, some s.value⟩ s.rest
      [] := by
  obtain ⟨hreaches, -, hend⟩ := readOutside_copied hc hs
  have hahead := List.isEmpty_iff.1 hnil
  exact ⟨hreaches.literals, fun _ _ _ _ => .nil .code _, hc.isComment_texts, nofun, rfl,
    hreaches.isIn, hahead, hend hahead⟩

/-- Behind a closing tag, other text goes up to a tag again. -/
theorem htmlStmt_copied {c : Cursor} (hc : c.IsIn .code) {s : Step 1 String c}
    (hs : readOutside c = .ok s) {s' : Step 1 Token s.rest}
    (hopen : s.rest.take .openTag = .ok s') :
    c.Reaches [] .code s'.rest ∧ TellsAs layout .code (.html s.value) [] := by
  obtain ⟨hreaches, htag, -⟩ := readOutside_copied hc hs
  refine ⟨hreaches.trans (hreaches.isIn.take hopen rfl), fun margin atTop previous hmargin => ?_⟩
  have hall := (tells_newline.before tells_closeTag).before htag
  rw [← String.append_assoc] at hall
  exact hall

/-- The comments before the end belong to the statements before it. -/
theorem isBehind_withComments {mode : Mode} {c : Cursor} (hc : c.IsBehind mode) :
    (c.withComments []).IsBehind mode ∧ Lexeme.literals c.pieces = Lexeme.literals
    (c.withComments []).pieces := by
  have hpieces := Cursor.pieces_withComments (List.append_nil c.head.comments).symm
  obtain ⟨p, cs, hscanned⟩ := hc.isIn.scanned
  obtain ⟨m, hlexed⟩ := hc.isIn.lexed
  have hnone : ∀ l ∈ ([] : List Lexeme), l ∈ c.head.comments := nofun
  have hlexed' := hlexed.withComments hnone
  refine ⟨⟨⟨⟨m, hlexed'⟩, ?_⟩, fun hhtml =>
    ⟨Cursor.ahead_withComments c [] (hc.outside hhtml).1, ?_⟩⟩, ?_⟩
  · rw [hpieces] at hscanned
    cases mode with
    | code => exact Cursor.behindComments hscanned hc.isIn.comments (Cursor.pieces_ne_nil _)
    | html =>
      rw [(hc.outside rfl).2] at hscanned
      exact ⟨p, cs, hscanned⟩
  · obtain ⟨ahead, eof⟩ := c
    cases ahead <;> rfl
  · rw [hpieces, Lexeme.literals_append, Lexeme.literals_of_comments hc.isIn.comments,
      List.nil_append]

/-- The literals of the statements follow one another; text between tags has none. -/
theorem readInner_copied (hlayout : IsIndent layout.indent) {braced : Bool}
    {mode : Mode} {c : Cursor} (hc : c.IsBehind mode) {s : Step 0 Listing c}
    (hs : readInner braced c = .ok s) :
    ∃ xs mode', ListingTells layout mode mode' c s.value s.rest xs := by
  unfold readInner at hs
  dsimp only at hs
  split at hs
  next =>
    split at hs
    next => cases hs
    next =>
      cases hs
      obtain ⟨hbehind, hliterals⟩ := isBehind_withComments hc
      exact ⟨[], mode, .nil hc hliterals hbehind⟩
  next hahead =>
    obtain rfl := hc.mode_of_ahead (by simpa using hahead)
    split at hs
    next =>
      cases hs
      exact ⟨[], .code, .nil hc rfl hc⟩
    next =>
      split at hs
      next =>
        split at hs
        next => cases hs
        next =>
          cases hs
          exact ⟨[], .code, rfl, fun _ _ _ _ => .nil .code _, nofun, nofun, hc⟩
      next =>
        split at hs
        next =>
          obtain ⟨⟨text, c₁, h₁⟩, htext, hs⟩ := bind_eq_ok.1 hs
          dsimp only at hs
          split at hs
          next hnil =>
            split at hs
            next => cases hs
            next =>
              cases hs
              exact ⟨[], .code, .epilogue hc.isIn htext hnil⟩
          next =>
            obtain ⟨⟨_, c₂, h₂⟩, hopen, hs⟩ := bind_eq_ok.1 hs
            obtain ⟨⟨more, c₃, h₃⟩, hmore, hs⟩ := bind_eq_ok.1 hs
            cases hs
            obtain ⟨hreaches, htell⟩ := htmlStmt_copied hc.isIn htext hopen
            obtain ⟨ys, mode', hrest⟩ := readInner_copied hlayout hreaches.isIn.isBehind hmore
            exact ⟨_, mode', .cons hreaches.literals htell hrest⟩
        next =>
          obtain ⟨⟨stmt, c₁, h₁⟩, hstmt, hs⟩ := bind_eq_ok.1 hs
          obtain ⟨⟨more, c₂, h₂⟩, hmore, hs⟩ := bind_eq_ok.1 hs
          cases hs
          obtain ⟨xs, mode', hreaches, hbehind, htell⟩ := readOrdinary_copied hlayout hc.isIn hstmt
          obtain ⟨ys, mode'', hrest⟩ := readInner_copied hlayout hbehind hmore
          exact ⟨_, mode'', .cons hreaches.literals htell hrest⟩
termination_by c.size

/-- A list ends inside of the tags if a token is behind it. -/
theorem EndsIn.inside {mode : Mode} {c : Cursor} {epilogue : Option String}
    (h : EndsIn mode c epilogue) (hahead : c.ahead ≠ []) : mode = .code ∧ c.IsIn .code := by
  cases epilogue with
  | none =>
    have hbehind : c.IsBehind mode := h
    obtain rfl := hbehind.mode_of_ahead hahead
    exact ⟨rfl, hbehind.isIn⟩
  | some text => exact absurd h.2.2.1 hahead

theorem EndsIn.exists_isIn {mode : Mode} {c : Cursor} {epilogue : Option String}
    (h : EndsIn mode c epilogue) :
    ∃ mode, c.IsIn mode := by
  cases epilogue with
  | none => exact ⟨mode, Cursor.IsBehind.isIn h⟩
  | some text => exact ⟨.html, h.2.1⟩

theorem readName?_copied {c : Cursor} (hc : c.IsIn .code) :
    c.Reaches [] .code (readName? c).rest ∧ ∀ x ∈ (readName? c).value, IsCalm x := by
  unfold readName?
  split
  next t c₁ h₁ htake =>
    obtain ⟨hreaches, -, _, d, hbegins⟩ := hc.take? htake rfl
    exact ⟨hreaches, fun x hx => Option.some.inj hx ▸ Cursor.IsIn.isCalm_of_begins
      hbegins (.inl rfl)⟩
  next => exact ⟨hc.refl, by simp⟩

section Namespace

variable {mode : Mode} {c c₁ : Cursor} {trivia : Trivia} {name : Option String} {l : Listing}
  {xs : List (List Char)}

theorem isCalm_namespaceHeader (hname : ∀ x ∈ name, IsCalm x) :
    IsCalm ("namespace" ++ name.elim "" (" " ++ ·)) := by
  refine Scan.isCalm_append.2 ⟨by decide, ?_⟩
  cases name with
  | none => decide
  | some x => exact Scan.isCalm_append.2 ⟨by decide, hname x rfl⟩

/-- A namespace in braces tells the literals of its statements. -/
theorem tells_bracedText (hlayout : IsIndent layout.indent) (hmargin : IsIndent margin)
    (hname : ∀ x ∈ name, IsCalm x) (htrailing : Tells .code .code AtLineEnd trivia.trailingText [])
    (h : ListingTells layout .code .code c l c₁ xs) :
    Tells .code .code AtLineEnd
      (namespaceText layout margin ⟨trivia, name, true, l.stmts, l.closingComments⟩) xs := by
  have hinner := hmargin.append hlayout
  have hbrace : Tells .code .code Anything "\x7d" [] := .mark Scan.isToken_rightBrace rfl rfl
  have hheader := (Tells.of_isCalm (isCalm_namespaceHeader hname)).append_opens Fragment.tells_brace
    Fragment.opens_brace
  have hlist := (hheader.before (h.stmts _ false none hinner)).append (h.closingText hinner)
    (keeps_linesAt _ _)
  have hall :=
    (((hlist.append_opens tells_newline Opens.newline).before hmargin.tells).before hbrace).before
      htrailing
  simp only [List.nil_append, List.append_nil] at hall
  rw [namespaceText]
  exact hall

theorem tells_unbracedText (hmargin : IsIndent margin) (hname : ∀ x ∈ name, IsCalm x)
    (htrailing : Tells .code .code AtLineEnd trivia.trailingText [])
    (h : ListingTells layout .code mode c l c₁ xs) :
    Tells .code mode AtLineEnd
      (namespaceText layout margin ⟨trivia, name, false, l.stmts, l.closingComments⟩) xs := by
  have hend : Tells .code .code Anything ";" [] := .separator (c := ';') (by decide)
  have hheader := ((Tells.of_isCalm (isCalm_namespaceHeader hname)).append_opens hend
    (Opens.separator (c := ';') (by decide))).before htrailing
  have hlist := hheader.append (h.stmts _ true none hmargin) (keeps_listText _ _ _)
  have hall := hlist.append (h.closingText hmargin) (keeps_linesAt _ _)
  simp only [List.nil_append, List.append_nil] at hall
  rw [namespaceText]
  exact hall

end Namespace

/-- A namespace is written with the literals of its statements. -/
theorem readNamespace_copied (hlayout : IsIndent layout.indent) {c : Cursor} (hc : c.IsIn .code)
    {s : Step 1 (NamespaceDecl × Option String) c} (hs : readNamespace c = .ok s) :
    ∃ xs mode, Lexeme.literals c.pieces = xs ++ Lexeme.literals s.rest.pieces ∧
      EndsIn mode s.rest s.value.2 ∧
      TellsAs layout mode (.namespace_ s.value.1) xs := by
  have htrivia : TriviaTells c.leadingTrivia [] := ⟨hc.isComment_texts, .nil, nofun⟩
  unfold readNamespace at hs
  dsimp only at hs
  obtain ⟨⟨_, c₁, h₁⟩, hword, hs⟩ := bind_eq_ok.1 hs
  have hreaches₁ := hc.takeWord hword
  obtain ⟨hreaches₂, hname⟩ := readName?_copied hreaches₁.isIn
  have hreaches₂ := hreaches₁.trans hreaches₂
  have hentry {decl : NamespaceDecl} {xs : List (List Char)} {mode : Mode}
      (htrivia : TriviaTells decl.trivia [])
      (hdecl : ∀ margin, IsIndent margin →
        Tells .code mode AtLineEnd (namespaceText layout margin decl) xs) :
      TellsAs layout mode (.namespace_ decl) xs := by
    intro margin atTop previous hmargin
    have hleading := tells_leadingText (s := .namespace_ decl) rfl htrivia hmargin atTop previous
    exact hleading.before (hdecl margin hmargin)
  dsimp only at hs
  split at hs
  next hopen =>
    obtain ⟨⟨⟨stmts, closing, epilogue⟩, c₄, h₄⟩, hinner, hs⟩ := bind_eq_ok.1 hs
    obtain ⟨⟨_, c₅, h₅⟩, hclose, hs⟩ := bind_eq_ok.1 hs
    cases hs
    have hreaches₃ := hreaches₂.trans (hreaches₂.isIn.take? hopen rfl).1
    obtain ⟨xs, mode, hlist⟩ := readInner_copied hlayout hreaches₃.isIn.isBehind hinner
    have hahead : c₄.ahead ≠ [] := by
      rw [(Cursor.take_eq_ok hclose).1]
      exact List.cons_ne_nil _ _
    obtain ⟨rfl, hc₄⟩ := hlist.ends.inside hahead
    obtain ⟨hreaches₆, htrivia⟩ := (hc₄.take hclose rfl).isIn.finish htrivia
    have hreaches₆ := (hc₄.take hclose rfl).trans hreaches₆
    have hliterals : Lexeme.literals c.pieces = xs ++ Lexeme.literals c₄.pieces :=
      hreaches₃.literals.trans (by rw [hlist.literals]; rfl)
    refine ⟨xs, .code, hliterals.trans (by rw [hreaches₆.literals]; rfl), hreaches₆.isIn.isBehind,
      hentry htrivia fun margin hmargin => ?_⟩
    exact tells_bracedText hlayout hmargin hname htrivia.trailingText hlist
  next => cases hs
  next =>
    obtain ⟨⟨_, c₃, h₃⟩, hend, hs⟩ := bind_eq_ok.1 hs
    dsimp only at hs
    obtain ⟨⟨⟨stmts, closing, epilogue⟩, c₅, h₅⟩, hinner, hs⟩ := bind_eq_ok.1 hs
    cases hs
    have hreaches₃ := hreaches₂.trans (hreaches₂.isIn.take hend rfl)
    obtain ⟨hreaches₄, htrivia⟩ := hreaches₃.isIn.finish htrivia
    have hreaches₄ := hreaches₃.trans hreaches₄
    obtain ⟨xs, mode, hlist⟩ := readInner_copied hlayout hreaches₄.isIn.isBehind hinner
    refine ⟨xs, mode, hreaches₄.literals.trans (by rw [hlist.literals]; rfl), hlist.ends,
      hentry htrivia fun margin hmargin => ?_⟩
    exact tells_unbracedText hmargin hname htrivia.trailingText hlist

/-- A file tells the literals of its statements, up to its end. -/
theorem readOuter_copied (hlayout : IsIndent layout.indent) {mode : Mode} {c : Cursor}
    (hc : c.IsBehind mode) {s : Step 0 Listing c} (hs : readOuter c = .ok s) :
    s.rest.ahead = [] ∧ ∃ xs mode', ListingTells layout mode mode' c s.value s.rest xs := by
  unfold readOuter at hs
  dsimp only at hs
  split at hs
  next hnil =>
    cases hs
    exact ⟨List.isEmpty_iff.1 hnil, [], mode, .nil hc rfl hc⟩
  next hahead =>
    obtain rfl := hc.mode_of_ahead (by simpa using hahead)
    split at hs
    next =>
      obtain ⟨⟨⟨decl, epilogue⟩, c₁, h₁⟩, hnamespace, hs⟩ := bind_eq_ok.1 hs
      obtain ⟨⟨more, c₂, h₂⟩, hmore, hs⟩ := bind_eq_ok.1 hs
      cases hs
      obtain ⟨xs, mode, hliterals, hends, htell⟩ := readNamespace_copied hlayout hc.isIn hnamespace
      cases epilogue with
      | none =>
        obtain ⟨hahead, ys, mode', hrest⟩ := readOuter_copied hlayout hends hmore
        exact ⟨hahead, _, mode', .cons hliterals htell hrest⟩
      | some text =>
        -- The namespace goes to the end of the file, and nothing is left for the file itself.
        obtain ⟨rfl, hc₁, hnil, hend⟩ := hends
        unfold readOuter at hmore
        rw [if_pos (List.isEmpty_iff.2 hnil)] at hmore
        cases hmore
        have hnothing : ListingTells layout .code .code c₁ ⟨[], Expr.commentTexts c₁.head.comments,
            some text⟩ c₁ [] :=
          ⟨rfl, fun _ _ _ _ => .nil .code _, hc₁.isComment_texts, nofun, rfl, hc₁, hnil, hend⟩
        exact ⟨hnil, _, .code, .cons hliterals htell hnothing⟩
    next =>
      split at hs
      next =>
        obtain ⟨⟨text, c₁, h₁⟩, htext, hs⟩ := bind_eq_ok.1 hs
        dsimp only at hs
        split at hs
        next hnil =>
          cases hs
          exact ⟨List.isEmpty_iff.1 hnil, [], .code, .epilogue hc.isIn htext hnil⟩
        next =>
          obtain ⟨⟨_, c₂, h₂⟩, hopen, hs⟩ := bind_eq_ok.1 hs
          obtain ⟨⟨more, c₃, h₃⟩, hmore, hs⟩ := bind_eq_ok.1 hs
          cases hs
          obtain ⟨hreaches, htell⟩ := htmlStmt_copied hc.isIn htext hopen
          obtain ⟨hahead, ys, mode', hrest⟩ := readOuter_copied hlayout hreaches.isIn.isBehind hmore
          exact ⟨hahead, _, mode', .cons hreaches.literals htell hrest⟩
      next =>
        obtain ⟨⟨stmt, c₁, h₁⟩, hstmt, hs⟩ := bind_eq_ok.1 hs
        obtain ⟨⟨more, c₂, h₂⟩, hmore, hs⟩ := bind_eq_ok.1 hs
        cases hs
        obtain ⟨xs, mode', hreaches, hbehind, htell⟩ := readOrdinary_copied hlayout hc.isIn hstmt
        obtain ⟨hahead, ys, mode'', hrest⟩ := readOuter_copied hlayout hbehind hmore
        exact ⟨hahead, _, mode'', .cons hreaches.literals htell hrest⟩
termination_by c.size

end Stmt

end ClassEdit
