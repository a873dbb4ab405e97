import ClassEdit.Proofs.Text.MovedRight
import ClassEdit.Proofs.Token.Following
import Mathlib.Data.List.Forall2

/-!
A source that was moved right, cut into lexemes. The scanner is led through both texts in step: what
it decides before the end of a line it decides the same way, and blanks at the beginning of a line
end no comment and no text outside of the tags. Main statement: the tokens are the same, and so are
the lines that begin inside a literal.
-/

namespace ClassEdit

namespace Scan

variable {d d' t x out : List Char} {kind : TokenKind} {mode : Mode}

section Comment

/-- White space before the end of a comment makes it longer by as much. -/
theorem blockCommentLength?_blanks {blanks : List Char} (hblanks : ∀ c ∈ blanks, isMargin c = true)
    {n : Nat} :
    blockCommentLength? (blanks ++ d) = some (n + blanks.length) ↔
      blockCommentLength? d = some n := by
  induction blanks with
  | nil => rfl
  | cons c blanks ih =>
    obtain ⟨hc, hrest⟩ := List.forall_mem_cons.1 hblanks
    have hmark : c = '*' → (blanks ++ d).head? ≠ some '/' := by
      rintro rfl
      cases hc
    rw [List.cons_append, List.length_cons, ← Nat.add_assoc, blockCommentLength?_eq_some_succ hmark,
      ih hrest]

/-- A block comment ends at the same marks. -/
theorem blockCommentLength?_movedRight (h : MovedRight (t.map (·, false)) out)
    (ht : blockCommentLength? (t ++ d) = some t.length) :
    blockCommentLength? (out ++ d') = some out.length := by
  induction t generalizing out with
  | nil => exact absurd (blockCommentLength?_pos ht) (Nat.lt_irrefl 0)
  | cons c r ih =>
    by_cases hend : c = '*' ∧ (r ++ d).head? = some '/'
    · obtain ⟨rfl, hslash⟩ := hend
      obtain rfl := closing_of_blockCommentLength? hslash ht
      obtain rfl := h.eq_of_not_mem (by simp)
      rfl
    · rw [not_and] at hend
      have hrest := (blockCommentLength?_eq_some_succ hend).1 ht
      rw [List.map_cons] at h
      cases h with
      | @keep _ _ _ out h =>
        refine (blockCommentLength?_eq_some_succ fun hc hslash => ?_).2 (ih h hrest)
        have hhead : out.head? = r.head? := by simpa [Function.comp_def] using h.head?_eq
        have hne : r ≠ [] := by
          rintro rfl
          exact absurd (blockCommentLength?_pos hrest) (Nat.lt_irrefl 0)
        obtain ⟨e, r, rfl⟩ := List.exists_cons_of_ne_nil hne
        obtain ⟨out, rfl⟩ := List.head?_eq_some_iff.1 hhead
        exact hend hc hslash
      | margin hblanks h =>
        rw [List.cons_append, List.length_cons, blockCommentLength?_eq_some_succ (by simp),
          List.append_assoc, List.length_append, Nat.add_comm, blockCommentLength?_blanks hblanks]
        exact ih h hrest

end Comment

section Html

theorem atOpenTag_cons_of_isBlank {c : Char} (hc : isBlank c = true) (r : List Char) :
    atOpenTag (c :: r) = false := by
  cases htag : atOpenTag (c :: r) with
  | false => rfl
  | true => cases (isBlank_of_openTag htag c List.mem_cons_self).symm.trans hc

theorem htmlLength_blanks {blanks : List Char} (hblanks : ∀ c ∈ blanks, isMargin c = true)
    (r : List Char) :
    htmlLength (blanks ++ r) = htmlLength r + blanks.length := by
  induction blanks with
  | nil => rfl
  | cons c blanks ih =>
    obtain ⟨hc, hrest⟩ := List.forall_mem_cons.1 hblanks
    exact htmlLength_eq_succ.2 ⟨atOpenTag_cons_of_isBlank (isBlank_of_isMargin hc) _, ih hrest⟩

/-- Text outside of the tags goes up to the same tag, or up to the end. -/
theorem htmlLength_movedRight {ds : List MarkedChar} (h : MovedRight (t.map (·, false)) out)
    (hd : MovedRight ds d') (ht : htmlLength (t ++ ds.map (·.1)) = t.length) :
    htmlLength (out ++ d') = out.length := by
  induction t generalizing out with
  | nil =>
    cases h
    exact SameLine.htmlLength (x := []) hd.sameLine ht
  | cons c t ih =>
    obtain ⟨htag, hrest⟩ := htmlLength_eq_succ.1 ht
    rw [List.map_cons] at h
    cases h with
    | @keep _ _ _ out h =>
      have hsame : SameLine ((t.map (·, false) ++ ds).map (·.1)) (out ++ d') :=
        (h.append hd).sameLine
      simp only [List.map_append, List.map_map, Function.comp_def, List.map_id'] at hsame
      exact htmlLength_eq_succ.2 ⟨(hsame.atOpenTag [c]).trans htag, ih h hrest⟩
    | margin hblanks h =>
      rw [List.cons_append, List.length_cons, htmlLength_eq_succ, List.append_assoc,
        htmlLength_blanks hblanks, ih h hrest, List.length_append, Nat.add_comm]
      exact ⟨atOpenTag_cons_of_isBlank rfl _, rfl⟩

end Html

section Begins

/-- Of the tokens of code only a comment can be moved. -/
theorem IsToken.eq_of_movedRight (h : IsToken kind x d) (hkind : kind ≠ .comment)
    (hmoved : MovedRight (x.map (·, kind.isLiteral)) out) : out = x := by
  cases hliteral : kind.isLiteral with
  | true =>
    rw [hliteral] at hmoved
    exact hmoved.eq_of_literal
  | false =>
    have hspans : kind.spansLines = false := by
      rw [TokenKind.spansLines_eq, beq_eq_false_iff_ne.2 h.kind_ne_html,
        beq_eq_false_iff_ne.2 hkind, hliteral]
      rfl
    exact hmoved.eq_of_not_mem (h.not_mem hspans)

/-- A comment that is moved right is a comment. -/
theorem IsToken.comment_movedRight {ds : List MarkedChar} (h : IsToken .comment x (ds.map (·.1)))
    (hmoved : MovedRight (x.map (·, false)) out) (hd : MovedRight ds d') :
    IsToken .comment out d' := by
  have hbegins := begins_code_iff.2 h
  obtain ⟨c, t, rfl, hc, hl⟩ := h
  obtain ⟨t', e, hr, hn, hspans⟩ := spans_of_codeLexeme (hl .start) rfl
  obtain ⟨rfl, rfl⟩ := List.append_inj hr hn
  cases hspans with
  | line _ ht =>
    have hline : '\n' ∉ c :: t := by
      rw [List.mem_cons, not_or]
      refine ⟨?_, not_mem_of_lineCommentLength ht⟩
      rintro rfl
      cases hc
    obtain rfl := hmoved.eq_of_not_mem hline
    exact begins_code_iff.1 (hbegins.follow hd.sameLine)
  | block ht =>
    cases hmoved with
    | keep hmoved =>
      cases hmoved with
      | keep hmoved =>
        refine ⟨'/', _, rfl, rfl, ?_⟩
        exact (Spans.block (blockCommentLength?_movedRight hmoved ht)).codeLexeme

/-- A lexeme that is moved right is one of the same kind. -/
theorem Begins.movedRight {ds : List MarkedChar} (h : Begins mode kind x (ds.map (·.1)))
    (hmoved : MovedRight (x.map (·, kind.isLiteral)) out) (hd : MovedRight ds d') :
    Begins mode kind out d' ∧ (kind ≠ .comment → kind ≠ .html → out = x) := by
  cases mode with
  | code =>
    have htoken := begins_code_iff.1 h
    by_cases hkind : kind = .comment
    · subst hkind
      exact ⟨begins_code_iff.2 (htoken.comment_movedRight hmoved hd), fun hne => absurd rfl hne⟩
    · obtain rfl := htoken.eq_of_movedRight hkind hmoved
      exact ⟨h.follow hd.sameLine, fun _ _ => rfl⟩
  | html =>
    rcases begins_html_iff.1 h with ⟨rfl, hlength, htag⟩ | ⟨rfl, hne, hends⟩
    · have hblank := isBlank_of_openTag htag
      rw [show (x ++ ds.map (·.1)).take 5 = x from hlength ▸ List.take_left] at hblank
      have hline : '\n' ∉ x := fun hmem => by cases hblank _ hmem
      obtain rfl := hmoved.eq_of_not_mem hline
      exact ⟨h.follow hd.sameLine, fun _ _ => rfl⟩
    · have hlength := htmlLength_movedRight hmoved hd hends
      refine ⟨begins_html_iff.2 (.inr ⟨rfl, ?_, hlength⟩), fun _ hhtml => absurd rfl hhtml⟩
      obtain ⟨c, t, rfl⟩ := List.exists_cons_of_ne_nil hne
      cases hmoved <;> exact List.cons_ne_nil _ _

end Begins

end Scan

namespace Lexeme

/-- Lexemes of the same kind, with the same text if they are code. -/
structure SameCode (l l' : Lexeme) : Prop where
  kind : l'.kind = l.kind
  text : l.kind ≠ .comment → l.kind ≠ .html → l'.text = l.text

/-- The kinds and the texts of the lexemes that are code. -/
def code (ls : List Lexeme) : List (TokenKind × List Char) :=
  (ls.filter fun l => l.kind != .comment && l.kind != .html).map fun l => (l.kind, l.text)

theorem code_eq {ls ls' : List Lexeme} (h : List.Forall₂ SameCode ls ls') : code ls' = code ls := by
  induction h with
  | nil => rfl
  | @cons l l' ls ls' hl _ ih =>
    unfold code at ih ⊢
    rw [List.filter_cons, List.filter_cons, hl.kind]
    split
    next hcode =>
      rw [Bool.and_eq_true, bne_iff_ne, bne_iff_ne] at hcode
      rw [List.map_cons, List.map_cons, ih, hl.kind, hl.text hcode.1 hcode.2]
    next => exact ih

end Lexeme

/-- What has become of a lexeme in a text that was moved right. -/
structure Lexeme.Moved (l l' : Lexeme) : Prop extends Lexeme.SameCode l l' where
  gapMoved : MovedRight (l.gap.map (·, false)) l'.gap
  textMoved : MovedRight l.marked l'.text

namespace Scan

open Lexeme (SameCode Moved)

/-- The scanner finds each lexeme again in a text that is moved right. -/
theorem Scanned.moved {mode : Mode} {p : Position} {cs out : List Char} {ls : List Lexeme}
    (h : Scanned mode p cs ls) (hmoved : MovedRight (ls.flatMap Lexeme.markedSource) out)
    (q : Position) :
    ∃ ls', Scanned mode q out ls' ∧ List.Forall₂ Moved ls ls' := by
  have hgaps {mode : Mode} {gap out : List Char} (hgap : IsGap mode gap)
      (h : MovedRight (gap.map (·, false)) out) :
      IsGap mode out := by
    cases mode with
    | html =>
      obtain rfl : gap = [] := hgap
      cases h
      rfl
    | code =>
      refine h.isBlank fun c hc => hgap c ?_
      simpa [Function.comp_def] using hc
  induction h generalizing q out with
  | @eof mode gap p hgap =>
    have hout : MovedRight (gap.map (·, false)) out := by
      simpa [Lexeme.markedSource, Lexeme.marked] using hmoved
    exact ⟨_, .eof q (hgaps hgap hout), .cons ⟨⟨rfl, fun _ _ => rfl⟩, hout, .nil⟩ .nil⟩
  | @cons mode p gap x cs kind ls hgap hx h ih =>
    rw [List.flatMap_cons, Lexeme.markedSource, List.append_assoc] at hmoved
    obtain ⟨gap', rest, rfl, hgap', hrest⟩ := hmoved.of_append
    obtain ⟨x', d', rfl, hx', hd'⟩ := hrest.of_append
    have hsource : (ls.flatMap Lexeme.markedSource).map (·.1) = cs :=
      (Lexeme.map_fst_markedSource ls).trans h.source
    rw [← hsource] at hx
    obtain ⟨hbegins, htext⟩ := hx.movedRight hx' hd'
    obtain ⟨ls', hls', hsame⟩ := ih hd' ((q.after gap').after x')
    exact ⟨_, .cons (hgaps hgap hgap') hbegins hls', .cons ⟨⟨rfl, htext⟩, hgap', hx'⟩ hsame⟩

/-- The scanner finds the same tokens in a text that is moved right. -/
theorem Scanned.movedRight {mode : Mode} {p : Position} {cs out : List Char} {ls : List Lexeme}
    (h : Scanned mode p cs ls) (hmoved : MovedRight (ls.flatMap Lexeme.markedSource) out)
    (q : Position) :
    ∃ ls', Scanned mode q out ls' ∧ List.Forall₂ SameCode ls ls' := by
  obtain ⟨ls', hls', hmoved⟩ := h.moved hmoved q
  exact ⟨ls', hls', hmoved.imp fun _ _ hl => hl.toSameCode⟩

end Scan

section Reindent

variable {margin code : String} {ls : List Lexeme}

theorem toList_reindent (h : Lexeme.ofCode code.toList = .ok ls) (hline : '\n' ∈ code.toList) :
    (reindent margin code).toList = indentLines margin.toList (ls.flatMap Lexeme.markedSource) := by
  rw [reindent]
  dsimp only
  rw [if_pos (List.contains_iff_mem.2 hline), h, String.toList_ofList]

theorem reindent_of_not_mem (hline : '\n' ∉ code.toList) : reindent margin code = code := by
  rw [reindent]
  exact if_neg (mt List.contains_iff_mem.1 hline)

/-- Code that is moved right is the same code, and its literals keep their lines. -/
theorem code_reindent (h : Lexeme.ofCode code.toList = .ok ls)
    (hmargin : ∀ c ∈ margin.toList, isMargin c = true) :
    (∃ ls', Lexeme.ofCode (reindent margin code).toList = .ok ls' ∧
      Lexeme.code ls' = Lexeme.code ls) ∧
      ∀ (before behind : List Lexeme) (l : Lexeme) (a b : List Char), ls = before ++ l :: behind →
        l.kind.isLiteral = true → l.text = a ++ '\n' :: b →
        ∃ line, (parts '\n' code.toList)[(before.flatMap Lexeme.source ++ l.gap ++ a).count
          '\n' + 1]? = some line ∧
          (parts '\n' (reindent margin code).toList)[(before.flatMap Lexeme.source ++ l.gap ++
            a).count '\n' + 1]? =
            some line := by
  have hscanned := Scan.scanned_of_lexemes h
  have hsource : (ls.flatMap Lexeme.markedSource).map (·.1) = code.toList :=
    (Lexeme.map_fst_markedSource ls).trans hscanned.source
  constructor
  · by_cases hline : '\n' ∈ code.toList
    · rw [toList_reindent h hline]
      obtain ⟨ls', hls', hsame⟩ := hscanned.movedRight (MovedRight.indentLines hmargin _) .start
      exact ⟨ls', hls'.lexemes_eq, Lexeme.code_eq hsame⟩
    · rw [reindent_of_not_mem hline]
      exact ⟨ls, h, rfl⟩
  · intro before behind l a b hls hliteral htext
    have hliteral : l.marked = a.map (·, true) ++ ('\n', true) :: b.map (·, true) := by
      rw [Lexeme.marked, htext, hliteral, List.map_append, List.map_cons]
    -- the newline has the mark of the literal, and the lines before it are counted by what is
    -- before it
    obtain ⟨cs, hcs⟩ :
        ∃ cs, cs = before.flatMap Lexeme.markedSource ++
          (l.gap.map (·, false) ++ a.map (·, true)) := ⟨_, rfl⟩
    have hmarked : ls.flatMap Lexeme.markedSource =
        cs ++ ('\n', true) :: (b.map (·, true) ++ behind.flatMap Lexeme.markedSource) := by
      rw [hls, hcs, List.flatMap_append, List.flatMap_cons, Lexeme.markedSource, hliteral]
      simp
    have hcount : before.flatMap Lexeme.source ++ l.gap ++ a = cs.map (·.1) := by
      rw [hcs, List.map_append, Lexeme.map_fst_markedSource]
      simp [Function.comp_def]
    have hline : '\n' ∈ code.toList := by
      rw [← hsource, hmarked]
      simp
    have hplain : '\n' ∉ margin.toList := fun hmem => by cases hmargin _ hmem
    rw [toList_reindent h hline, ← hsource, hmarked, hcount]
    exact Line.getElem?_parts_indentLines hplain cs _

/-- A comment and a string over two lines each, of which only the comment is moved. -/
theorem code_reindent_string :
    ∃ ls ls', Lexeme.ofCode "/* a\n b */ f(1,\n'c\n d');".toList = .ok ls ∧
      reindent "  " "/* a\n b */ f(1,\n'c\n d');" = "/* a\n   b */ f(1,\n  'c\n d');" ∧
      Lexeme.ofCode "/* a\n   b */ f(1,\n  'c\n d');".toList = .ok ls' ∧
        Lexeme.code ls' = Lexeme.code ls ∧
      ∃ line, (parts '\n' "/* a\n b */ f(1,\n'c\n d');".toList)[3]? = some line ∧
        (parts '\n' "/* a\n   b */ f(1,\n  'c\n d');".toList)[3]? = some line := by
  have hmoved : reindent "  " "/* a\n b */ f(1,\n'c\n d');" =
      "/* a\n   b */ f(1,\n  'c\n d');" := by decide +kernel
  have hread : (Lexeme.ofCode "/* a\n b */ f(1,\n'c\n d');".toList).toOption.map
      (fun ls => ((ls.take 5).flatMap Lexeme.source, ls[5]?.map fun l => (l.gap, l.kind, l.text))) =
        some ("/* a\n b */ f(1,".toList, some (['\n'], .quoted, "'c\n d'".toList)) := by
    decide +kernel
  cases hls : Lexeme.ofCode "/* a\n b */ f(1,\n'c\n d');".toList with
  | error e =>
    rw [hls] at hread
    cases hread
  | ok ls =>
    rw [hls] at hread
    obtain ⟨hbefore, hl⟩ := Prod.mk.inj (Option.some.inj hread)
    obtain ⟨l, hl, hfields⟩ := Option.map_eq_some_iff.1 hl
    obtain ⟨hgap, hfields⟩ := Prod.mk.inj hfields
    obtain ⟨hkind, htext⟩ := Prod.mk.inj hfields
    have hmargin : ∀ c ∈ "  ".toList, isMargin c = true := List.all_eq_true.1 (by decide)
    obtain ⟨⟨ls', hls', hcode⟩, hlines⟩ := code_reindent hls hmargin
    have hcut : ls = ls.take 5 ++ l :: ls.drop 6 := by
      obtain ⟨hlength, rfl⟩ := List.getElem?_eq_some_iff.1 hl
      rw [← List.drop_eq_getElem_cons hlength, List.take_append_drop]
    have hline := hlines _ _ l "'c".toList " d'".toList hcut (by rw [hkind]; rfl) htext
    rw [hbefore, hgap, hmoved] at hline
    rw [hmoved] at hls'
    exact ⟨ls, ls', rfl, hmoved, hls', hcode, hline⟩

end Reindent

end ClassEdit
