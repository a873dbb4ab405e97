import ClassEdit.Proofs.Token.Copying
import ClassEdit.Proofs.Fragment.Rejoining

/-!
The texts of parts of a source. A part is moved left when it is read and moved right when it is
written, and then other text comes behind it. Main statement: what is read tells the literals of its
part wherever it is written, but for carriage returns before newlines.
-/

namespace ClassEdit

open Scan (Scanned Boundary Holds AtSeparator IsGap modeAfter)

theorem exists_of_forall₂_append {α β : Type} {R : α → β → Prop} {xs ys : List α} {zs : List β}
    (h : List.Forall₂ R (xs ++ ys) zs) :
    ∃ us vs, zs = us ++ vs ∧ List.Forall₂ R xs us ∧ List.Forall₂ R ys vs := by
  have htake := List.forall₂_take xs.length h
  have hdrop := List.forall₂_drop xs.length h
  rw [List.take_left] at htake
  rw [List.drop_left] at hdrop
  exact ⟨_, _, (List.take_append_drop _ _).symm, htake, hdrop⟩

/-- A text of code that ends with a lexeme of the kind, and its literals. -/
def IsExcerpt (cs : List Char) (kind : TokenKind) (ys : List (List Char)) : Prop :=
  ∃ ls last e, Scanned .code .start cs (ls ++ [last, e]) ∧ last.kind = kind ∧
    Lexeme.literals (ls ++ [last]) = ys

namespace Lexeme

variable {flag : Bool} {l e : Lexeme} {ls ms : List Lexeme}

/-- The kinds are the same, but for that of text outside of the tags that may be gone before the
end. -/
theorem Alike.kinds (h : Alike flag ls ms) : ms.map (·.kind) = ls.map (·.kind) ∨
    ∃ xs x e, ls = xs ++ [x, e] ∧ x.kind = .html ∧ ms.map (·.kind) = (xs ++ [e]).map (·.kind) := by
  induction h with
  | nil => exact .inl rfl
  | cons h _ _ ih =>
    rcases ih with ih | ⟨xs, x, e, rfl, hx, ih⟩
    · exact .inl (by rw [List.map_cons, List.map_cons, h.kind, ih])
    · exact .inr
        ⟨_ :: xs, x, e, rfl, hx, by rw [List.map_cons, List.cons_append, List.map_cons, h.kind, ih]⟩
  | gone hl _ h ih =>
    rcases ih with ih | ⟨xs, x, e, hone, -⟩
    · exact .inr ⟨[], _, _, rfl, hl, ih⟩
    · have hlength := congrArg List.length hone
      simp at hlength

/-- Lexemes with the same code have the same literals. -/
theorem literals_of_sameCode (h : List.Forall₂ SameCode ls ms) : literals ms = literals ls := by
  induction h with
  | nil => rfl
  | @cons l l' ls ms hl _ ih =>
    rw [literals_cons, literals_cons, hl.kind, ih]
    split
    next hliteral =>
      have hcode : l.kind ≠ .comment ∧ l.kind ≠ .html := by
        constructor <;>
        · intro hkind
          rw [hkind] at hliteral
          cases hliteral
      rw [hl.text hcode.1 hcode.2]
    next => rfl

end Lexeme

namespace Scan

variable {mode : Mode} {x d t e follow : List Char} {xs : List (List Char)}

/-- A comment up to the end goes up to a tag that is put there, with a space before it. -/
theorem lineCommentLength_append_space (ht : lineCommentLength t = t.length)
    (htag : startsWith "?>" follow = true) :
    lineCommentLength (t ++ ' ' :: follow) = t.length + 1 := by
  induction t with
  | nil =>
    obtain ⟨r, rfl⟩ := List.isPrefixOf_iff_prefix.1 htag
    rfl
  | cons c t ih =>
    obtain ⟨hline, hmark, hrest⟩ := lineCommentLength_cons.1 ht
    refine lineCommentLength_cons.2 ⟨hline, ?_, ih hrest⟩
    cases t with
    | nil => simp
    | cons d t => exact hmark

/-- Comments stand in code. -/
theorem Begins.mode_of_comment (h : Begins mode .comment x d) : mode = .code := by
  cases mode with
  | code => rfl
  | html => rcases begins_html_iff.1 h with ⟨hkind, -⟩ | ⟨hkind, -⟩ <;> cases hkind

/-- A block comment is one before any text. -/
theorem isToken_block (ht : blockCommentLength? (t ++ d) = some t.length) (follow : List Char) :
    IsToken .comment ('/' :: '*' :: t) follow := by
  have hblock := blockCommentLength?_movedLeft (MovedLeft.refl follow t false) ht
  exact ⟨'/', '*' :: t, rfl, rfl, (Spans.block hblock).codeLexeme⟩

/-- A comment before a closing tag holds nothing of what is behind it. -/
theorem Begins.holds_beforeTag (hx : Begins mode .comment x e) (he : IsGap .code e)
    (htag : startsWith "?>" follow = true) (hrest : Holds .code follow xs) :
    Holds mode (x ++ (e ++ ' ' :: follow)) xs := by
  obtain rfl := hx.mode_of_comment
  have htoken := begins_code_iff.1 hx
  have hspace : Holds .code (e ++ ' ' :: follow) xs := (hrest.separator (by decide)).behindGap he
  by_cases hne : e = []
  · subst hne
    obtain ⟨c, t, rfl, hc, hl⟩ := htoken
    obtain ⟨t', d, hr, hn, hspans⟩ := spans_of_codeLexeme (hl .start) rfl
    obtain ⟨rfl, rfl⟩ := List.append_inj hr hn
    cases hspans with
    | line hmark ht =>
      rw [List.append_nil] at hmark ht
      have hmark' : (c = '#' ∧ (t ++ [' '] ++ follow).head? ≠ some '[') ∨
          (c = '/' ∧ (t ++ [' '] ++ follow).head? = some '/') := by
        cases t with
        | nil => simpa using hmark
        | cons d t => exact hmark
      have hlength : lineCommentLength (t ++ [' '] ++ follow) = (t ++ [' ']).length := by
        rw [List.append_assoc, List.length_append]
        exact lineCommentLength_append_space ht htag
      have hlonger : IsToken .comment (c :: (t ++ [' '])) follow :=
        ⟨c, _, rfl, hc, (Spans.line hmark' hlength).codeLexeme⟩
      have hholds := hrest.token hlonger rfl rfl
      rwa [List.cons_append, List.append_assoc] at hholds
    | block ht => exact hspace.token (isToken_block ht _) rfl rfl
  · exact hspace.token
      (htoken.append (fun hnil => absurd hnil hne) (atSeparator_cons (by decide) follow)) rfl rfl

end Scan

section Moving

variable {mode : Mode} {p : Position} {cs : List Char} {kind : TokenKind} {ys : List (List Char)}
  {l last : Lexeme} {ls behind : List Lexeme}

/-- Text outside of the tags stands behind a tag, if the source begins with code. -/
theorem modeAfter_of_html (h : Scanned .code p cs (l :: ls ++ last :: behind))
    (hbehind : behind ≠ []) (hlast : last.kind = .html) :
    ∀ x ∈ (l :: ls).getLast?, modeAfter x.kind = .html := by
  intro x hx
  obtain ⟨q, d, hd⟩ := h.behind (List.cons_ne_nil _ _) hx
  generalize modeAfter x.kind = mode at hd
  cases mode with
  | html => rfl
  | code =>
    obtain ⟨r, -, -, hbegins, -⟩ := hd.uncons hbehind
    exact absurd hlast (Scan.begins_code_iff.1 hbegins).kind_ne_html

/-- What is left of a part of a source is cut into the same lexemes, and the end. -/
theorem exists_scanned_excerpt (h : Scanned .code p cs (l :: ls ++ behind)) (hbehind : behind ≠ [])
    (hlast : last ∈ (l :: ls).getLast?) (hend : Boundary [] last behind) :
    ∃ ms e e', Scanned .code .start (excerpt (l :: ls)) (ms ++ [e']) ∧
      Scan.Again false (l :: ls) [e] (excerpt (l :: ls)) ms [e'] := by
  have honly {P : Lexeme → Prop} (h : P last) : ∀ x ∈ (l :: ls).getLast?, P x := by
    intro x hx
    obtain rfl := Option.some.inj ((Option.mem_def.1 hlast).symm.trans hx)
    exact h
  have hnil : AtLineEnd [] := by simp [AtLineEnd]
  obtain ⟨e, hkind, htext, -, hcut⟩ := h.cutOff hbehind (honly hend)
  obtain ⟨b, hmoved⟩ :=
    MovedLeft.dedent hnil l.start.margin (l.marked ++ ls.flatMap Lexeme.markedSource)
  have hboundary : Boundary [] last [e] := by
    refine ⟨fun _ => ⟨rfl, rfl⟩, fun _ x hx => ?_⟩
    rw [← Option.some.inj hx, hkind]
    decide
  have hrest : Scan.Relexes (modeAfter last.kind) (last.kind != .comment) [] [e] [] [] fun b =>
      ∃ e, b = [e] := by
    intro q
    refine ⟨[], _, .eof q (Scan.isGap_nil _), ⟨?_, .nil, rfl, .inl rfl⟩, _, rfl⟩
    refine .cons ⟨hkind.symm, fun _ => htext.symm⟩ (fun _ hcomment => ?_) (.nil _)
    cases hkind.symm.trans hcomment
  have hcode : Mode.code ≠ .html := by decide
  have hrelexes : Scan.Relexes .code false (l :: ls) [e] ([] ++ excerpt (l :: ls)) [] fun b =>
      ∃ e, b = [e] :=
    Scan.relexes_movedLeft hcut (List.cons_ne_nil _ _) (honly ⟨hboundary, hrest⟩)
      hnil (absurd · hcode)
      (Scan.isGap_nil .code) (absurd · Bool.false_ne_true) (absurd · hcode) hmoved
  obtain ⟨ms, _, hscanned, hagain, e', rfl⟩ := hrelexes .start
  rw [List.append_nil, List.nil_append] at hscanned
  exact ⟨ms, e, e', hscanned, hagain⟩

theorem exists_getLast?_of_kinds {ms : List Lexeme} (hkinds : ms.map (·.kind) = ls.map (·.kind))
    (hlast : last ∈ ls.getLast?) : ∃ x ∈ ms.getLast?, x.kind = last.kind := by
  have hends := congrArg List.getLast? hkinds
  rw [List.getLast?_map, List.getLast?_map, Option.mem_def.1 hlast] at hends
  exact Option.map_eq_some_iff.1 hends

/-- What is left of a part ends as the part does, unless other text is gone at its end.
Before that stands a tag. -/
theorem exists_getLast?_of_alike {ms : List Lexeme} {e e' : Lexeme}
    (h : Scanned .code p cs (l :: ls ++ behind)) (hbehind : behind ≠ [])
    (hlast : last ∈ (l :: ls).getLast?)
    (halike : Lexeme.Alike false (l :: ls ++ [e]) (ms ++ [e'])) :
    ∃ x ∈ ms.getLast?, modeAfter x.kind = modeAfter last.kind ∧
      (last.kind ≠ .html → x.kind = last.kind) := by
  rcases halike.kinds with hkinds | ⟨xs, y, e'', hparts, hy, hkinds⟩
  · rw [List.map_append, List.map_append] at hkinds
    obtain ⟨x, hx, hsame⟩ := exists_getLast?_of_kinds (List.append_inj' hkinds rfl).1 hlast
    exact ⟨x, hx, by rw [hsame], fun _ => hsame⟩
  · rw [List.map_append, List.map_append] at hkinds
    have hls : l :: ls = xs ++ [y] :=
      (List.append_inj' (hparts.trans (List.append_assoc xs [y] [e'']).symm) rfl).1
    rw [hls, List.getLast?_concat] at hlast
    obtain rfl := Option.some.inj hlast
    cases xs with
    | nil =>
      -- code does not begin with text outside of the tags
      obtain ⟨rfl, -⟩ := List.cons.inj hls
      obtain ⟨d, -, -, hbegins, -⟩ := h.uncons (by simp [hbehind])
      exact absurd hy (Scan.begins_code_iff.1 hbegins).kind_ne_html
    | cons x₀ xs =>
      have hlast := List.getLast?_eq_some_getLast (List.cons_ne_nil x₀ xs)
      obtain ⟨x, hx, hsame⟩ := exists_getLast?_of_kinds (List.append_inj' hkinds rfl).1 hlast
      refine ⟨x, hx, ?_, fun hne => absurd hy hne⟩
      rw [hls, List.append_assoc] at h
      rw [hsame, hy, modeAfter_of_html h hbehind hy _ hlast]
      rfl

/-- The text of a part of a source has the literals of the part, but for carriage returns. -/
theorem exists_isExcerpt (h : Scanned .code p cs (l :: ls ++ behind)) (hbehind : behind ≠ [])
    (hlast : last ∈ (l :: ls).getLast?) (hend : Boundary [] last behind) :
    ∃ kind ys, IsExcerpt (excerpt (l :: ls)) kind ys ∧
      List.Forall₂ LosesReturns (Lexeme.literals (l :: ls)) ys ∧
      modeAfter kind = modeAfter last.kind ∧ (last.kind ≠ .html → kind = last.kind) := by
  obtain ⟨ms, e, e', hscanned, hagain⟩ := exists_scanned_excerpt h hbehind hlast hend
  obtain ⟨x, hx, hafter, hsame⟩ := exists_getLast?_of_alike h hbehind hlast hagain.alike
  obtain ⟨ns, rfl⟩ := List.getLast?_eq_some_iff.1 hx
  rw [List.append_assoc] at hscanned
  exact ⟨x.kind, _, ⟨ns, x, e', hscanned, rfl, rfl⟩, hagain.literals, hafter, hsame⟩

namespace IsExcerpt

variable {follow : List Char} {xs : List (List Char)}

/-- Text that is moved right has the same literals and ends in the same way. -/
theorem reindent {margin code : String} (h : IsExcerpt code.toList kind ys)
    (hmargin : ∀ c ∈ margin.toList, isMargin c = true) :
    IsExcerpt (reindent margin code).toList kind ys := by
  by_cases hline : '\n' ∈ code.toList
  · obtain ⟨ls, last, e, hscanned, hkind, rfl⟩ := h
    rw [toList_reindent hscanned.lexemes_eq hline]
    obtain ⟨ms, hms, hsame⟩ := hscanned.movedRight (MovedRight.indentLines hmargin _) .start
    obtain ⟨us, vs, rfl, hus, hvs⟩ := exists_of_forall₂_append hsame
    obtain ⟨last', vs', hlast, hone, rfl⟩ := List.forall₂_cons_left_iff.1 hvs
    obtain ⟨e', rest, -, hnil, rfl⟩ := List.forall₂_cons_left_iff.1 hone
    obtain rfl := List.forall₂_nil_left_iff.1 hnil
    refine ⟨us, last', e', hms, hlast.kind.trans hkind, ?_⟩
    rw [Lexeme.literals_append, Lexeme.literals_append, Lexeme.literals_of_sameCode hus,
      Lexeme.literals_of_sameCode (.cons hlast .nil)]
  · rwa [reindent_of_not_mem hline]

/-- At the end of a line other text may follow. -/
theorem holds_atLineEnd (h : IsExcerpt cs kind ys) (hfollow : AtLineEnd follow)
    (hrest : Holds (modeAfter kind) follow xs) : Holds .code (cs ++ follow) (ys ++ xs) := by
  obtain ⟨ls, last, e, hscanned, rfl, rfl⟩ := h
  refine hscanned.holds_append (.of_atLineEnd hfollow) (fun _ c hc => ?_) fun mode hx he => ?_
  · rw [hfollow c hc]
    rfl
  · exact hx.holds_atLineEnd he hfollow hrest

/-- Before a separator other text may follow, but for a comment or a tag. -/
theorem holds_atSeparator (h : IsExcerpt cs kind ys) (hcomment : kind ≠ .comment)
    (hmode : modeAfter kind = .code) (hopen : kind = .openTag → ∀ c ∈ follow.head?, isBlank c =
      true) (hfollow : AtSeparator follow)
    (hrest : Holds .code follow xs) : Holds .code (cs ++ follow) (ys ++ xs) := by
  obtain ⟨ls, last, e, hscanned, rfl, rfl⟩ := h
  exact hscanned.holds_append hfollow hopen fun mode hx he =>
    hx.holds_atSeparator he hcomment hmode hopen hfollow hrest

/-- Before a closing tag a comment may stand with a space behind it. -/
theorem holds_beforeTag (h : IsExcerpt cs .comment ys) (htag : Scan.startsWith "?>" follow = true)
    (hrest : Holds .code follow xs) : Holds .code (cs ++ ' ' :: follow) (ys ++ xs) := by
  obtain ⟨ls, last, e, hscanned, hkind, rfl⟩ := h
  refine hscanned.holds_append (Scan.atSeparator_cons (by decide) follow) (fun hopen => ?_)
    fun mode hx he => ?_
  · cases hkind.symm.trans hopen
  · rw [hkind] at hx he
    rw [hkind]
    exact hx.holds_beforeTag he htag hrest

end IsExcerpt

/-- A lexeme of a source before those behind it. -/
theorem Scan.Scanned.begins_last (h : Scanned mode p cs (ls ++ behind)) (hbehind : behind ≠ [])
    (hlast : last ∈ ls.getLast?) : ∃ mode q d, Scan.Begins mode last.kind last.text d ∧
      Scanned (modeAfter last.kind) q d behind := by
  induction ls generalizing mode p cs with
  | nil => cases hlast
  | cons l ls ih =>
    obtain ⟨d, -, -, hx, hd⟩ := h.uncons (by simp [hbehind])
    cases ls with
    | nil =>
      obtain rfl := Option.some.inj hlast
      exact ⟨_, _, _, hx, hd⟩
    | cons l₂ ls => exact ih hd hlast

/-- A text on one line that does not end with a carriage return stays where it is. -/
theorem excerpt_of_not_mem (hline : '\n' ∉ l.text ++ ls.flatMap Lexeme.source)
    (hend : (l.text ++ ls.flatMap Lexeme.source).getLast? ≠ some '\r') :
    excerpt (l :: ls) = l.text ++ ls.flatMap Lexeme.source := by
  obtain ⟨cs, hcs⟩ : ∃ cs, cs = l.marked ++ ls.flatMap Lexeme.markedSource := ⟨_, rfl⟩
  have hsource : cs.map (·.1) = l.text ++ ls.flatMap Lexeme.source := by
    rw [hcs, List.map_append, Lexeme.map_fst_marked, Lexeme.map_fst_markedSource]
  rw [← hsource] at hline hend ⊢
  have hparts := Line.map_text_ofMarked true cs
  rw [parts_of_not_mem hline] at hparts
  obtain ⟨line, hone, htext⟩ := List.map_eq_singleton_iff.1 hparts
  rw [excerpt, ← hcs, dedent, hone, List.map_singleton, Line.join, Line.dedent,
    if_pos (Line.isData_of_ofMarked hone), htext, dropEndWhile]
  cases hrev : (cs.map (·.1)).reverse with
  | nil => exact (List.reverse_eq_nil_iff.1 hrev).symm
  | cons c r =>
    rw [← List.head?_reverse, hrev] at hend
    rw [List.dropWhile_cons_of_neg (by simpa using hend), ← hrev, List.reverse_reverse]

/-- Code may begin without the white space before it. -/
theorem Scan.Scanned.withoutGap (h : Scanned .code p cs (l :: ls)) (hls : ls ≠ []) :
    ∃ q l', l'.kind = l.kind ∧ l'.text = l.text ∧
      Scanned .code q (l.text ++ ls.flatMap Lexeme.source) (l' :: ls) := by
  obtain ⟨d, -, -, hx, hd⟩ := h.uncons hls
  rw [hd.source]
  have hscanned : Scanned .code (p.after l.gap) (l.text ++ d)
      (⟨[], l.kind, l.text, p.after l.gap⟩ :: ls) :=
    .cons (Scan.isGap_nil .code) hx hd
  exact ⟨_, ⟨[], l.kind, l.text, p.after l.gap⟩, rfl, rfl, hscanned⟩

theorem getLast?_sources (hlast : last ∈ (l :: ls).getLast?) (htext : last.text ≠ []) :
    (l.text ++ ls.flatMap Lexeme.source).getLast? = last.text.getLast? := by
  have hends (xs : List Char) : (xs ++ last.text).getLast? = last.text.getLast? := by
    rw [List.getLast?_append, List.getLast?_eq_some_getLast htext, Option.some_or]
  rcases List.eq_nil_or_concat' ls with rfl | ⟨ms, last', rfl⟩
  · obtain rfl : l = last := Option.some.inj hlast
    rw [List.flatMap_nil, List.append_nil]
  · rw [← List.cons_append, List.getLast?_concat] at hlast
    obtain rfl := Option.some.inj hlast
    rw [List.flatMap_append, List.flatMap_singleton, Lexeme.source, ← List.append_assoc, ←
      List.append_assoc, hends]

/-- A part that ends with a block comment, all on one line, is the same text elsewhere. -/
theorem exists_scanned_of_block (h : Scanned .code p cs (l :: ls ++ behind)) (hbehind : behind ≠ [])
    (hlast : last ∈ (l :: ls).getLast?) (hend : Boundary [] last behind)
    (hline : ∀ x ∈ l :: ls, '\n' ∉ x.source) (hslash : last.text.getLast? = some '/') :
    ∃ q ms last' e, Scanned .code q (excerpt (l :: ls)) (ms ++ [last', e]) ∧
      last'.kind = last.kind ∧
      last'.text = last.text ∧ Lexeme.literals (ms ++ [last']) = Lexeme.literals (l :: ls) := by
  obtain ⟨e, -, htext, hgap, hcut⟩ := h.cutOff hbehind fun x hx => by
    obtain rfl := Option.some.inj ((Option.mem_def.1 hlast).symm.trans hx)
    exact hend
  have hplain : '\n' ∉ l.text ++ ls.flatMap Lexeme.source := by
    intro hmem
    have hmem' : '\n' ∈ (l :: ls).flatMap Lexeme.source := by
      rw [List.flatMap_cons, Lexeme.source, List.append_assoc]
      exact List.mem_append_right _ hmem
    obtain ⟨x, hx, hmem⟩ := List.mem_flatMap.1 hmem'
    exact hline x hx hmem
  have hsources := getLast?_sources hlast (by rintro hnil; rw [hnil] at hslash; cases hslash)
  have hexcerpt := excerpt_of_not_mem hplain (by rw [hsources, hslash]; decide)
  obtain ⟨q, l', hkind, htext', hscanned⟩ := hcut.withoutGap (by simp)
  have hscanned' : Scanned .code q (excerpt (l :: ls)) (l' :: ls ++ [e]) := by
    have hsource : (ls ++ [e]).flatMap Lexeme.source = ls.flatMap Lexeme.source := by
      rw [List.flatMap_append, List.flatMap_singleton, Lexeme.source, htext, hgap,
        List.append_nil, List.append_nil]
    rw [hexcerpt, ← hsource]
    exact hscanned
  have hliterals : Lexeme.literals (l' :: ls) = Lexeme.literals (l :: ls) := by
    rw [Lexeme.literals_cons, Lexeme.literals_cons, hkind, htext']
  rcases List.eq_nil_or_concat' ls with rfl | ⟨ms, last', rfl⟩
  · obtain rfl : l = last := Option.some.inj hlast
    exact ⟨q, [], l', e, hscanned', hkind, htext', hliterals⟩
  · rw [← List.cons_append, List.getLast?_concat] at hlast
    obtain rfl := Option.some.inj hlast
    have hparts : l' :: (ms ++ [last']) ++ [e] = (l' :: ms) ++ [last', e] := by simp
    rw [hparts] at hscanned'
    exact ⟨q, l' :: ms, last', e, hscanned', rfl, rfl, hliterals⟩

/-- Before other code on its line nothing but a block comment ends, unless a closing tag is next. -/
theorem isBlock_of_sameLine {x d : List Char} {next : Lexeme} (hx : Scan.Begins .code .comment x d)
    (hd : Scanned .code p d (next :: behind)) (hbehind : behind ≠ []) (hline : '\n' ∉ next.source)
    (htag : ¬Scan.startsWith "?>" d = true) :
    ∃ t, x = '/' :: '*' :: t ∧ Scan.blockCommentLength? (t ++ d) = some t.length := by
  obtain ⟨c, t, rfl, -, hl⟩ := Scan.begins_code_iff.1 hx
  obtain ⟨t', d', hr, hn, hspans⟩ := Scan.spans_of_codeLexeme (hl .start) rfl
  obtain ⟨rfl, rfl⟩ := List.append_inj hr hn
  cases hspans with
  | @block t ht => exact ⟨t, rfl, ht⟩
  | line _ ht =>
    rcases Scan.ends_of_lineCommentLength ht with hends | htag'
    · -- a comment that goes up to the end of its line has nothing else behind it there
      obtain ⟨r, rfl, -, ⟨c', u, htext, -⟩, -⟩ := hd.uncons hbehind
      rw [Lexeme.source, htext] at hline
      rw [htext, ← List.append_assoc] at hends
      obtain ⟨b, bs, hsource⟩ := List.exists_cons_of_ne_nil (show next.gap ++ c' :: u ≠ [] by simp)
      rw [hsource] at hends hline
      exact absurd (by rw [hends b rfl]; exact List.mem_cons_self) hline
    · exact absurd htag' htag

/-- A part that ends with a block comment, before other text on its line. -/
theorem holds_oneLine_of_block {t d : List Char} (h : Scanned .code p cs (l :: ls ++ behind))
    (hbehind : behind ≠ []) (hlast : last ∈ (l :: ls).getLast?) (hend : Boundary [] last behind)
    (hline : ∀ x ∈ l :: ls, '\n' ∉ x.source) (hcomment : last.kind = .comment)
    (htext : last.text = '/' :: '*' :: t) (ht : Scan.blockCommentLength? (t ++ d) = some t.length)
    {follow : List Char} {xs : List (List Char)} (hrest : Holds .code follow xs) :
    Holds .code (excerpt (l :: ls) ++ ' ' :: follow) (Lexeme.literals (l :: ls) ++ xs) := by
  obtain ⟨u, hu⟩ := Scan.ends_of_blockCommentLength? ht
  have hslash : last.text.getLast? = some '/' := by
    rw [htext, hu, ← List.cons_append, ← List.cons_append, List.getLast?_concat]
  obtain ⟨q, ms, last', e, hscanned, hkind, hsame, hliterals⟩ :=
    exists_scanned_of_block h hbehind hlast hend hline hslash
  rw [← hliterals]
  refine hscanned.holds_append (Scan.atSeparator_cons (by decide) follow) (fun hopen => ?_)
    fun mode hx he => ?_
  · cases hopen.symm.trans (hkind.trans hcomment)
  · rw [hkind, hcomment] at hx he
    obtain rfl := hx.mode_of_comment
    have hrest' : Holds .code (e.gap ++ ' ' :: follow) xs :=
      (hrest.separator (by decide)).behindGap he
    rw [hkind, hcomment, hsame, htext]
    exact hrest'.token (Scan.isToken_block ht _) rfl rfl

/-- A part of a source on one line, before other text on the line. Behind a comment that goes up to
a closing tag there must be a tag again. -/
theorem exists_oneLine {next : Lexeme} (h : Scanned .code p cs (l :: ls ++ next :: behind))
    (hbehind : behind ≠ []) (hlast : last ∈ (l :: ls).getLast?)
    (hend : Boundary [] last (next :: behind)) (hmode : modeAfter last.kind = .code)
    (hline : ∀ x ∈ l :: ls ++ [next], '\n' ∉ x.source) :
    ∃ ys, List.Forall₂ LosesReturns (Lexeme.literals (l :: ls)) ys ∧ ∀ follow xs,
      (last.kind = .comment → next.source = "?>".toList → Scan.startsWith "?>" follow = true) →
        Holds .code follow xs → Holds .code (excerpt (l :: ls) ++ ' ' :: follow) (ys ++ xs) := by
  obtain ⟨kind, ys, hexcerpt, hys, hafter, hkind⟩ :=
    exists_isExcerpt h (List.cons_ne_nil _ _) hlast hend
  obtain rfl := hkind (by rintro hhtml; rw [hhtml] at hmode; cases hmode)
  by_cases hcomment : last.kind = .comment
  · obtain ⟨mode', q, d, hx, hd⟩ := h.begins_last (List.cons_ne_nil _ _) hlast
    rw [hmode] at hd
    by_cases htag : Scan.startsWith "?>" d = true
    · refine ⟨ys, hys, fun follow xs hfollow hrest => ?_⟩
      obtain ⟨r, rfl⟩ := List.isPrefixOf_iff_prefix.1 htag
      have htoken : Scan.IsToken .closeTag "?>".toList r := ⟨'?', ['>'], rfl, rfl, fun _ => rfl⟩
      rw [hcomment] at hexcerpt
      exact hexcerpt.holds_beforeTag (hfollow hcomment (hd.eq_of_isToken htoken).2) hrest
    · rw [hcomment] at hx
      obtain rfl := hx.mode_of_comment
      obtain ⟨t, htext, ht⟩ := isBlock_of_sameLine hx hd hbehind (hline next (by simp)) htag
      exact ⟨_, List.forall₂_same.2 fun x _ => .refl x, fun follow xs _ hrest =>
        holds_oneLine_of_block h
        (List.cons_ne_nil _ _) hlast hend (fun x hx => hline x (List.mem_append_left _ hx))
          hcomment htext ht hrest⟩
  · refine ⟨ys, hys, fun follow xs _ hrest => ?_⟩
    refine hexcerpt.holds_atSeparator hcomment hmode (fun _ c hc => ?_)
      (Scan.atSeparator_cons (by decide) follow)
      (hrest.separator (by decide))
    rw [← Option.some.inj hc]
    rfl

end Moving

end ClassEdit
