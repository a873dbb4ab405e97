import ClassEdit.Proofs.File.ImportReading

/-!
Files are read as they are written. Main statement: a plain file is read as the file with its values
spelled and its spacing settled, whatever the layout, as long as the line ending is the newline.
-/

namespace ClassEdit

open Scan (isName Stops IsToken)

namespace Stmt

variable {layout : Layout} {margin : String}

def Begins (c : Cursor) : Prop :=
  c.head.kind = .word ∧ c.isAtWord "namespace" = false

theorem begins_of_text {c : Cursor} (hkind : c.head.kind = .word)
    (htext : ∃ w ∈ ["use", "class", "abstract", "final", "readonly"], c.head.text = w.toList) :
    Begins c := by
  obtain ⟨w, hw, htext⟩ := htext
  have hall : ∀ w ∈ ["use", "class", "abstract", "final", "readonly"],
      (w.toList.map Char.toLower == "namespace".toList) = false := by decide
  refine ⟨hkind, ?_⟩
  rw [Cursor.isAtWord, Lexeme.isWord, htext, hall w hw, Bool.and_false]

theorem leadingTrivia_eq {c : Cursor} (hc : c.head.comments = []) :
    c.leadingTrivia = { Trivia.empty with blankBefore := some c.head.followsBlankLine } := by
  simp [Cursor.leadingTrivia, hc, Token.first, Expr.commentTexts, Trivia.empty]

/-- A statement that begins with the word for it is read as an import. -/
theorem reads_ordinary_import {c c' : Cursor} {i : Import} (hc : c.head.comments = [])
    (hkind : c.head.kind = .word) (htext : c.head.text = "use".toList)
    (hread : Reads (Import.read { Trivia.empty with blankBefore := some c.head.followsBlankLine }) c
      i c') :
    Reads readOrdinary c (.import_ i) c' := by
  obtain ⟨hsize, hread⟩ := hread.eq_ok
  have huse : c.isAtWord "use" = true := by
    rw [Cursor.isAtWord, Lexeme.isWord, hkind, htext]
    rfl
  rw [Reads, readOrdinary, leadingTrivia_eq hc, Member.takeAttributes_none (by simp [hkind])]
  simp only [Trivia.empty] at hread
  simp [huse, Trivia.empty, hread]

/-- A statement that begins with a modifier or with the word itself is read as a class. -/
theorem reads_ordinary_class {c c' : Cursor} {d : ClassDecl} (hc : c.head.comments = [])
    (hkind : c.head.kind = .word)
    (htext : ∃ w ∈ ["class", "abstract", "final", "readonly"], c.head.text = w.toList)
    (hclass : c.isAtClass = true)
    (hread : Reads
      (ClassDecl.read { Trivia.empty with blankBefore := some c.head.followsBlankLine }) c d c') :
    Reads readOrdinary c (.class_ d) c' := by
  obtain ⟨hsize, hread⟩ := hread.eq_ok
  have huse : c.isAtWord "use" = false := by
    obtain ⟨w, hw, htext⟩ := htext
    have hall : ∀ w ∈ ["class", "abstract", "final", "readonly"],
        (w.toList.map Char.toLower == "use".toList) = false := by decide
    rw [Cursor.isAtWord, Lexeme.isWord, htext, hall w hw, Bool.and_false]
  rw [Reads, readOrdinary, leadingTrivia_eq hc, Member.takeAttributes_none (by simp [hkind])]
  simp only [Trivia.empty] at hread
  simp [huse, hclass, Trivia.empty, hread]

/-- The lines of a statement: the spacing before it, its indentation and its text. -/
theorem ahead_stmt (hindent : IsMargin layout.indent) (hmargin : IsMargin margin)
    {s : Stmt} (hs : s.IsPlain) (atTop : Bool) (previous : Option Stmt) {follow : List Char}
    {P : Cursor → Prop} (hP : ∀ c, P c → c.head.comments = []) (hA : Ahead follow P) :
    Ahead (((leadingText margin atTop previous s).toList ++ (text layout margin s).toList) ++
      follow) fun c =>
      c.head.comments = [] ∧ Begins c ∧ ∃ c',
        Reads readOrdinary c ((s.settled (usualGap atTop previous s)).mapValues Expr.spelled) c' ∧
          P c' := by
  generalize husual : usualGap atTop previous s = usual
  have hgap := hmargin.isBlank_lineBreak
  cases hs with
  | import_ hi =>
    rename_i i
    have htext : ((leadingText margin atTop previous (.import_ i)).toList ++
        (text layout margin (.import_ i)).toList) ++ follow =
          ((lineBreak (i.trivia.blankBefore.getD usual)).toList ++ margin.toList) ++
            (i.text.toList ++ follow) := by
      rw [leadingText, text, trivia?, husual, Option.getD_some]
      generalize hb : i.trivia.blankBefore.getD usual = b
      rw [hi.trivia]
      simp [Trivia.leadingText, Trivia.trailingText, Trivia.empty]
    rw [htext]
    refine ((Import.shows_text hi hP hA) _ (hgap _)).mono ?_
    rintro c ⟨hg, hco, ⟨hkind, htext⟩, hread⟩
    obtain ⟨c', hread, hc⟩ :=
      hread { Trivia.empty with blankBefore := some c.head.followsBlankLine } rfl
    refine ⟨hco, begins_of_text hkind ⟨"use", .head _, htext⟩, c', ?_, hc⟩
    have hstmt := reads_ordinary_import hco hkind htext hread
    rw [Lexeme.followsBlankLine, hg, count_lineBreak hmargin.2, hi.trivia.eq_settled] at hstmt
    exact hstmt
  | class_ hd =>
    rename_i d
    have htext : ((leadingText margin atTop previous (.class_ d)).toList ++
        (text layout margin (.class_ d)).toList) ++ follow =
          ((lineBreak (d.trivia.blankBefore.getD usual)).toList ++ margin.toList) ++
            ((d.text layout margin).toList ++ follow) := by
      rw [leadingText, text, trivia?, husual, Option.getD_some]
      generalize hb : d.trivia.blankBefore.getD usual = b
      rw [hd.trivia]
      simp [Trivia.leadingText, Trivia.empty]
    rw [htext]
    refine ((ClassDecl.shows_text hd hindent hmargin hP hA) _ (hgap _)).mono ?_
    rintro c ⟨hg, hco, hclass, ⟨hkind, htext⟩, hread⟩
    obtain ⟨c', hread, hc⟩ :=
      hread { Trivia.empty with blankBefore := some c.head.followsBlankLine } rfl
    refine ⟨hco, begins_of_text hkind ?_, c', ?_, hc⟩
    · obtain ⟨w, hw, htext⟩ := htext
      exact ⟨w, .tail _ hw, htext⟩
    · have hstmt := reads_ordinary_class hco hkind htext hclass hread
      rw [Lexeme.followsBlankLine, hg, count_lineBreak hmargin.2, hd.trivia.eq_settled] at hstmt
      exact hstmt

theorem toList_listText_cons {s : Stmt} (hs : s.IsPlain) (atTop : Bool) (previous : Option Stmt)
    (ss : List Stmt) :
    (listText layout margin atTop previous (s :: ss)).toList =
      ((leadingText margin atTop previous s).toList ++ (text layout margin s).toList) ++
        (listText layout margin atTop (some s) ss).toList := by
  cases hs <;> simp [listText]

/-- What a reader of statements does, except for how it ends. -/
def ReadsOn (read : (c : Cursor) → Except ParseError (Step 0 Listing c)) : Prop :=
  ∀ {c c' c'' : Cursor} {s : Stmt} {l : Listing}, Begins c → Reads readOrdinary c s c' →
    Reads read c' l c'' →
    Reads read c (l.cons s) c''

theorem readsOn_inner (braced : Bool) : ReadsOn (readInner braced) := by
  intro c c' c'' s l hc hread hrest
  obtain ⟨hsize, hread⟩ := hread.eq_ok
  obtain ⟨hsize', hrest⟩ := hrest.eq_ok
  have hnamespace : c.isAtNamespace = false := by rw [Cursor.isAtNamespace, hc.2, Bool.false_and]
  have hbrace : c.isAt .rightBrace = false := by rw [Cursor.isAt, hc.1]; rfl
  have htag : c.isAt .closeTag = false := by rw [Cursor.isAt, hc.1]; rfl
  rw [Reads, readInner]
  simp [Cursor.isEmpty_ahead hsize, hbrace, hnamespace, htag, hread, hrest]

theorem readsOn_outer : ReadsOn readOuter := by
  intro c c' c'' s l hc hread hrest
  obtain ⟨hsize, hread⟩ := hread.eq_ok
  obtain ⟨hsize', hrest⟩ := hrest.eq_ok
  have hnamespace : c.isAtNamespace = false := by rw [Cursor.isAtNamespace, hc.2, Bool.false_and]
  have htag : c.isAt .closeTag = false := by rw [Cursor.isAt, hc.1]; rfl
  rw [Reads, readOuter]
  simp [Cursor.isEmpty_ahead hsize, hnamespace, htag, hread, hrest]

theorem stops_listText {ss : List Stmt} (hss : ∀ s ∈ ss, s.IsPlain) (atTop : Bool)
    (previous : Option Stmt) {follow : List Char} (hf : ∃ r, follow = '\n' :: r) :
    ∃ r, (listText layout margin atTop previous ss).toList ++ follow = '\n' :: r := by
  cases ss with
  | nil =>
    obtain ⟨r, rfl⟩ := hf
    exact ⟨r, by simp [listText]⟩
  | cons s ss =>
    rw [toList_listText_cons (hss s (by simp)), leadingText]
    cases (s.trivia?.getD Trivia.empty).blankBefore.getD (usualGap atTop previous s)
    · exact ⟨_, by simp only [lineBreak, Bool.false_eq_true, if_false, String.toList_append]; rfl⟩
    · exact ⟨_, by simp only [lineBreak, if_true, String.toList_append]; rfl⟩

/-- Plain statements before a text that a reader of statements ends at. -/
theorem ahead_stmts {read : (c : Cursor) → Except ParseError (Step 0 Listing c)}
    (hread : ReadsOn read) (hindent : IsMargin layout.indent) (hmargin : IsMargin margin)
    {ss : List Stmt} (hss : ∀ s ∈ ss, s.IsPlain) (atTop : Bool) (previous : Option Stmt)
    {follow : List Char} {P : Cursor → Prop}
    (hA : Ahead follow fun c => c.head.comments = [] ∧ ∃ c', Reads read c ⟨[], [], none⟩ c' ∧
      P c') :
    Ahead ((listText layout margin atTop previous ss).toList ++ follow) fun c =>
      c.head.comments = [] ∧
      ∃ c', Reads read c
        ⟨(settledAfter atTop previous ss).map (·.mapValues Expr.spelled), [], none⟩ c' ∧ P c' := by
  induction ss generalizing previous with
  | nil => exact hA
  | cons s ss ih =>
    have hrest := ih (fun t ht => hss t (by simp [ht])) (some s)
    rw [toList_listText_cons (hss s (by simp)), List.append_assoc]
    refine (ahead_stmt hindent hmargin (hss s (by simp)) atTop previous
      (fun _ hc => hc.1) hrest).mono ?_
    rintro c ⟨hco, hbegins, c', hstmt, -, c'', hstmts, hc⟩
    exact ⟨hco, c'', hread hbegins hstmt hstmts, hc⟩

def AtEnd (c : Cursor) : Prop :=
  c.ahead = [] ∧ c.head.comments = []

theorem ahead_end : Ahead ['\n'] AtEnd :=
  fun pos => ⟨_, Cursor.before_blank pos isBlank_newline, rfl, rfl⟩

theorem AtEnd.reads_outer {c : Cursor} (h : AtEnd c) : Reads readOuter c ⟨[], [], none⟩ c := by
  rw [Reads, readOuter]
  simp [h.1, h.2, Expr.commentTexts]

theorem AtEnd.reads_inner {c : Cursor} (h : AtEnd c) :
    Reads (readInner false) c ⟨[], [], none⟩ c := by
  have hcomments : c.withComments [] = c := by
    obtain ⟨ahead, lexeme, comments⟩ := c
    obtain ⟨rfl, rfl⟩ := h
    rfl
  rw [Reads, readInner]
  simp [h.1, h.2, Expr.commentTexts, Step.skippingComments, hcomments]

theorem reads_inner_brace {c : Cursor} {t : Token} (ht : t.kind = .rightBrace)
    (hcomments : t.comments = []) :
    Reads (readInner true) (c.push t) ⟨[], [], none⟩ (c.push t) := by
  rw [Reads, readInner]
  simp [ht, hcomments, Expr.commentTexts]

theorem readName?_push {c : Cursor} {t : Token} (ht : t.kind = .word) :
    ∃ h, readName? (c.push t) = ⟨some t.string, c, h⟩ := by
  refine ⟨Nat.le_of_succ_le (c.size_push t), ?_⟩
  rw [readName?, Cursor.take?_push, if_pos ht]
  rfl

/-- A namespace in braces is read with the statements between them. -/
theorem reads_namespace_braced {c c' : Cursor} {t u v w : Token} {stmts : List Stmt}
    (ht : t.isWord "namespace" = true) (hcomments : t.comments = []) (hu : u.kind = .word)
    (hv : v.kind = .leftBrace) (hstmts : Reads (readInner true) c ⟨stmts, [], none⟩ (c'.push w))
    (hw : w.kind = .rightBrace) (hc' : c'.head.comments = []) :
    Reads readNamespace (((c.push v).push u).push t)
      (⟨{ Trivia.empty with blankBefore := some t.followsBlankLine }, some u.string,
        true, stmts, []⟩, none)
      c' := by
  obtain ⟨hsize, hstmts⟩ := hstmts.eq_ok
  obtain ⟨h, hname⟩ := readName?_push (c := c.push v) hu
  have htrivia := leadingTrivia_eq (c := ((c.push v).push u).push t) hcomments
  rw [Cursor.head_push] at htrivia
  rw [Reads, readNamespace, htrivia, Cursor.takeWord_push, if_pos ht]
  simp only [ok_bind]
  generalize hs : readName? ((c.push v).push u) = s
  rw [hname] at hs
  subst hs
  simp only [Cursor.take?_push, hv, if_true, hstmts, ok_bind, Cursor.take_push, hw]
  generalize hs : c'.finish _ = s
  rw [Member.finish_eq hc'] at hs
  subst hs
  simp [Trivia.empty]

/-- A namespace without braces is read with all statements behind it. -/
theorem reads_namespace_open {c c' : Cursor} {t u v : Token} {stmts : List Stmt}
    (ht : t.isWord "namespace" = true) (hcomments : t.comments = []) (hu : u.kind = .word)
    (hv : v.kind = .semicolon) (hc : c.head.comments = [])
    (hstmts : Reads (readInner false) c ⟨stmts, [], none⟩ c') :
    Reads readNamespace (((c.push v).push u).push t)
      (⟨{ Trivia.empty with blankBefore := some t.followsBlankLine }, some u.string,
        false, stmts, []⟩, none)
      c' := by
  obtain ⟨hsize, hstmts⟩ := hstmts.eq_ok
  obtain ⟨h, hname⟩ := readName?_push (c := c.push v) hu
  have htrivia := leadingTrivia_eq (c := ((c.push v).push u).push t) hcomments
  rw [Cursor.head_push] at htrivia
  rw [Reads, readNamespace, htrivia, Cursor.takeWord_push, if_pos ht]
  simp only [ok_bind]
  generalize hs : readName? ((c.push v).push u) = s
  rw [hname] at hs
  subst hs
  simp only [Cursor.take?_push, Cursor.take_push, hv, if_true, ok_bind]
  generalize hs : c.finish _ = s
  rw [Member.finish_eq hc] at hs
  subst hs
  simp [hstmts, Trivia.empty]

theorem reads_outer_namespace {c c' : Cursor} {t u : Token} {decl : NamespaceDecl}
    (ht : t.isWord "namespace" = true) (hu : u.kind = .word)
    (hread : Reads readNamespace ((c.push u).push t) (decl, none) c') (hc' : AtEnd c') :
    Reads readOuter ((c.push u).push t) ⟨[.namespace_ decl], [], none⟩ c' := by
  obtain ⟨hsize, hread⟩ := hread.eq_ok
  obtain ⟨hsize', hrest⟩ := hc'.reads_outer.eq_ok
  have hnamespace : ((c.push u).push t).isAtNamespace = true := by
    simp [Cursor.isAtNamespace, ht, hu]
  rw [Reads, readOuter]
  simp [hnamespace, hread, hrest, Listing.cons]

end Stmt

namespace Content

variable {layout : Layout}

/-- The text between the opening tag and the end of the file. -/
def body (layout : Layout) : Content → List Char
  | flat stmts => (Stmt.listText layout "" true none stmts).toList ++ ['\n']
  | inside blankBefore name braced stmts =>
    (lineBreak (blankBefore.getD true)).toList ++ (("namespace" ++ " ").toList ++ (name.toList ++
      if braced
        then [' '] ++ (['\x7b'] ++ ((Stmt.listText layout layout.indent false none stmts).toList ++
        (['\n'] ++ (['\x7d'] ++ ['\n']))))
      else [';'] ++ ((Stmt.listText layout "" true none stmts).toList ++ ['\n'])))

theorem toList_plainText (d : Content) :
    (d.file.plainText layout).toList = "<?php".toList ++ d.body layout := by
  cases d with
  | flat stmts => simp [file, SourceFile.plainText, body, closingText, Expr.linesAt]
  | inside blankBefore name braced stmts =>
    cases braced <;>
      simp [file, SourceFile.plainText, body, closingText, Expr.linesAt, Stmt.listText,
        Stmt.leadingText, Stmt.text, Stmt.namespaceText, Stmt.trivia?, Stmt.usualGap, Trivia.empty,
        Trivia.leadingText, Trivia.trailingText]

theorem body_eq_cons {d : Content} (hd : d.IsPlain) : ∃ r, d.body layout = '\n' :: r := by
  cases d with
  | flat stmts => exact Stmt.stops_listText hd true none ⟨[], rfl⟩
  | inside blankBefore name braced stmts =>
    cases hb : blankBefore.getD true
    · exact ⟨_, by simp only [body, hb, lineBreak, Bool.false_eq_true, if_false]; rfl⟩
    · exact ⟨_, by simp only [body, hb, lineBreak, if_true]; rfl⟩

/-- A namespace is read back with the statements in it. -/
theorem ahead_inside {blankBefore : Option Bool} {name : String} {stmts : List Stmt} (braced : Bool)
    (hindent : IsMargin layout.indent) (hname : isName name.toList = true)
    (hstmts : ∀ s ∈ stmts, s.IsPlain) :
    Ahead ((inside blankBefore name braced stmts).body layout) fun c => ∃ c', Reads Stmt.readOuter c
      ⟨((inside blankBefore name braced stmts).settled.mapValues Expr.spelled).file.stmts,
        [], none⟩ c' := by
  have hmargin : IsMargin "" := ⟨by simp, by simp⟩
  have hblank : ∀ d ∈ (lineBreak (blankBefore.getD true)).toList, isBlank d = true := by
    simpa using hmargin.isBlank_lineBreak (blankBefore.getD true)
  have hgap : ∀ c : Cursor, c.head.gap = (lineBreak (blankBefore.getD true)).toList →
      c.head.followsBlankLine = blankBefore.getD true := by
    intro c hc
    have h := count_lineBreak hmargin.2 (blankBefore.getD true)
    rw [Lexeme.followsBlankLine, hc]
    simpa using h
  cases braced with
  | true =>
    have hclose : Ahead (['\n'] ++ (['\x7d'] ++ ['\n'])) fun c => c.head.comments = [] ∧ ∃ c',
        Reads (Stmt.readInner true) c ⟨[], [], none⟩ c' ∧
          Pushed ['\n'] .rightBrace ['\x7d'] Stmt.AtEnd c' := by
      refine (Stmt.ahead_end.token isBlank_newline (Scan.isToken_rightBrace _) rfl (by decide)).mono
        ?_
      rintro _ ⟨p, c, rfl, hc⟩
      exact ⟨rfl, _, Stmt.reads_inner_brace rfl rfl, p, c, rfl, hc⟩
    have hstmts :=
      Stmt.ahead_stmts (Stmt.readsOn_inner true) hindent hindent hstmts false none hclose
    have hopen := hstmts.spaced (Scan.isToken_leftBrace _) rfl (by decide)
    have hheader := (shows_name hname (Scan.stops_cons.2 (by decide)) hopen).word
      (w := "namespace") rfl
    refine (hheader _ hblank).mono ?_
    rintro _ ⟨hg, -, gap, p, _, rfl, -, -, u, _, rfl, hu, rfl, q, c, rfl, -, _,
      hread, q', c', rfl, hc⟩
    have hword : Lexeme.isWord ⟨gap, .word, "namespace".toList, p⟩ "namespace" = true := rfl
    have hnamespace := Stmt.reads_namespace_braced (t := .bare ⟨gap, .word, "namespace".toList, p⟩)
      (v := .bare ⟨[' '], .leftBrace, ['\x7b'], q⟩) hword rfl hu rfl hread rfl hc.2
    have hblankBefore := hgap _ hg
    rw [Cursor.head_push] at hblankBefore
    rw [hblankBefore] at hnamespace
    exact ⟨c', Stmt.reads_outer_namespace hword hu hnamespace hc⟩
  | false =>
    have hclose : Ahead ['\n'] fun c => c.head.comments = [] ∧ ∃ c',
        Reads (Stmt.readInner false) c ⟨[], [], none⟩ c' ∧ Stmt.AtEnd c' :=
      Stmt.ahead_end.mono fun c hc => ⟨hc.2, c, hc.reads_inner, hc⟩
    have hstmts := Stmt.ahead_stmts (Stmt.readsOn_inner false) hindent hmargin
      hstmts true none hclose
    have hopen := hstmts.mark (Scan.isToken_semicolon _) rfl (by decide)
    have hheader := (shows_name hname (Scan.stops_cons.2 (by decide)) hopen).word
      (w := "namespace") rfl
    refine (hheader _ hblank).mono ?_
    rintro _ ⟨hg, -, gap, p, _, rfl, -, -, u, _, rfl, hu, rfl, q, c, rfl, hco, c', hread, hc⟩
    have hword : Lexeme.isWord ⟨gap, .word, "namespace".toList, p⟩ "namespace" = true := rfl
    have hnamespace := Stmt.reads_namespace_open (t := .bare ⟨gap, .word, "namespace".toList, p⟩)
      (v := .bare ⟨[], .semicolon, [';'], q⟩) hword rfl hu rfl hco hread
    have hblankBefore := hgap _ hg
    rw [Cursor.head_push] at hblankBefore
    rw [hblankBefore] at hnamespace
    exact ⟨c', Stmt.reads_outer_namespace hword hu hnamespace hc⟩

theorem ahead_body {d : Content} (hd : d.IsPlain) (hindent : IsMargin layout.indent) :
    Ahead (d.body layout) fun c => ∃ c', Reads Stmt.readOuter c
      ⟨(d.settled.mapValues Expr.spelled).file.stmts, [], none⟩ c' := by
  cases d with
  | flat stmts =>
    refine (Stmt.ahead_stmts Stmt.readsOn_outer hindent ⟨by simp, by simp⟩ hd true none
      (Stmt.ahead_end.mono fun c hc => ⟨hc.2, c, hc.reads_outer, hc⟩)).mono ?_
    rintro c ⟨-, c', hread, -⟩
    exact ⟨c', hread⟩
  | inside blankBefore name braced stmts => exact ahead_inside braced hindent hd.1 hd.2

end Content

/-- The opening tag and a line break before a text that can be cut into lexemes. -/
theorem Scan.lexemes_openTag {r : List Char} {ls : List Lexeme}
    (h : lexemes .code (Position.start.after ['<', '?', 'p', 'h', 'p']) ('\n' :: r) = .ok ls) :
    lexemes .html .start (['<', '?', 'p', 'h', 'p'] ++ '\n' :: r) =
      .ok (⟨[], .openTag, ['<', '?', 'p', 'h', 'p'], .start⟩ :: ls) := by
  have hlexeme : ∀ p, lexeme .html p '<' ('?' :: 'p' :: 'h' :: 'p' :: '\n' :: r) =
      .ok (.openTag, 4) :=
    fun _ => rfl
  have hrest : lexemes .code ((Position.start.after []).after ['<', '?', 'p', 'h', 'p'])
      ('\n' :: r) =
      .ok ls := h
  rw [lexemes]
  split
  next h' => cases h'
  next c s h' =>
    cases h'
    simp [gapOf, hlexeme, modeAfter, hrest, bind, Except.bind, pure, Except.pure]
    rfl

namespace SourceFile

/-- Behind the opening tag the statements are read. -/
theorem ofSource_of_ahead {r : List Char} {stmts : List Stmt}
    (h : Ahead ('\n' :: r) fun c => ∃ c', Reads Stmt.readOuter c ⟨stmts, [], none⟩ c') :
    ofSource (String.ofList (['<', '?', 'p', 'h', 'p'] ++ '\n' :: r)) =
      .ok ⟨none, stmts, [], none⟩ := by
  obtain ⟨c, ⟨ls, hls, hne, hlast, rfl⟩, c', hread⟩ :=
    h (Position.start.after ['<', '?', 'p', 'h', 'p'])
  obtain ⟨hsize, hread⟩ := hread.eq_ok
  have hfile : Lexeme.ofFile (String.ofList (['<', '?', 'p', 'h', 'p'] ++ '\n' :: r)) =
      .ok (⟨[], .openTag, ['<', '?', 'p', 'h', 'p'], .start⟩ :: ls) := by
    rw [Lexeme.ofFile, String.toList_ofList]
    exact Scan.lexemes_openTag hls
  have hcursor : Cursor.ofLexemes (⟨[], .openTag, ['<', '?', 'p', 'h', 'p'], .start⟩ :: ls) =
      (Cursor.ofLexemes ls).push (.bare ⟨[], .openTag, ['<', '?', 'p', 'h', 'p'], .start⟩) := by
    have htokens : Token.ofLexemes [] ls ≠ [] := Token.ofLexemes_ne_nil hlast hne
    rw [Cursor.ofLexemes, Token.ofLexemes_cons (by simp), List.dropLast_cons_of_ne_nil htokens,
      List.getLast?_cons_of_ne_nil htokens]
    rfl
  have htake := Cursor.take?_push (Cursor.ofLexemes ls)
    (.bare ⟨[], .openTag, ['<', '?', 'p', 'h', 'p'], .start⟩) .openTag
  rw [ofSource, hfile]
  simp only [ok_bind]
  rw [hcursor]
  split
  next h => cases h.symm.trans htake
  next t c₁ hc₁ h =>
    cases h.symm.trans htake
    simp [hread]

/-- A plain file is read as it is written, with newlines for line endings. -/
theorem ofSource_plainText {layout : Layout} (hindent : IsMargin layout.indent) {d : Content}
    (hd : d.IsPlain) :
    ofSource (d.file.plainText layout) = .ok (d.settled.mapValues Expr.spelled).file := by
  obtain ⟨r, hr⟩ : ∃ r, d.body layout = '\n' :: r := Content.body_eq_cons hd
  have htext : d.file.plainText layout = String.ofList
      (['<', '?', 'p', 'h', 'p'] ++ '\n' :: r) := by
    rw [← String.toList_inj, Content.toList_plainText, hr]
    simp
  have hbody := Content.ahead_body hd hindent
  rw [hr] at hbody
  rw [htext, ofSource_of_ahead hbody]
  cases d <;> rfl

theorem ofSource_namespace :
    ofSource "<?php\n\nnamespace N;\n" =
      .ok ⟨none, [.namespace_ ⟨⟨[], [], some true, none⟩, some "N", false, [], []⟩], [], none⟩ := by
  have hindent : IsMargin Layout.standard.indent := by simp [IsMargin, Layout.standard, isBlank]
  have hplain : (Content.inside none "N" false []).IsPlain := ⟨by decide, List.forall_mem_nil _⟩
  have htext : (Content.inside none "N" false []).file.plainText .standard =
      "<?php\n\nnamespace N;\n" := by
    decide +kernel
  rw [← htext, ofSource_plainText hindent hplain]
  rfl

end SourceFile

end ClassEdit
