import ClassEdit.Proofs.Copying

/-!
Literals in the statements of a block. The statements are parts of the source before the closing
brace, each of which ends inside of the tags. Main statement: the text of a body tells the literals
of its statements, on lines of their own or on the line of the signature.
-/

namespace ClassEdit

open Scan (Scanned AtSeparator Boundary modeAfter)

/-- The statement tells the literals on a line of its own, at any indentation. -/
def StmtTells (x : String) (xs : List (List Char)) : Prop :=
  ∀ margin, IsIndent margin → Tells .code .code AtLineEnd (reindent margin x) xs

namespace Fragment

/-- Parts of code, each of which ends inside of the tags where a part can end. -/
inductive CutInside (behind : List Lexeme) : List (List Lexeme) → Prop where
  | nil : CutInside behind []
  | cons {l last : Lexeme} {ls : List Lexeme} {parts : List (List Lexeme)}
      (hlast : last ∈ (l :: ls).getLast?) (hmode : modeAfter last.kind = .code)
      (hend : Boundary [] last (parts.flatten ++ behind)) (h : CutInside behind parts) :
      CutInside behind ((l :: ls) :: parts)

section Parts

variable {p : Position} {cs : List Char} {behind : List Lexeme} {parts : List (List Lexeme)}

theorem literals_flatten (parts : List (List Lexeme)) :
    Lexeme.literals parts.flatten = (parts.map Lexeme.literals).flatten := by
  induction parts with
  | nil => rfl
  | cons part parts ih =>
      rw [List.flatten_cons, Lexeme.literals_append, ih, List.map_cons, List.flatten_cons]

theorem toList_partText (part : List Lexeme) : (partText part).toList = excerpt part := by
  rw [partText, String.toList_ofList]

/-- Each part of a block tells its literals, wherever it is written. -/
theorem CutInside.tells (h : CutInside behind parts)
    (hscanned : Scanned .code p cs (parts.flatten ++ behind)) (hbehind : behind ≠ []) :
    List.Forall₂ StmtTells (parts.map partText) (parts.map Lexeme.literals) := by
  induction h generalizing p cs with
  | nil => exact .nil
  | @cons l last ls parts hlast hmode hend _ ih =>
    rw [List.flatten_cons, List.append_assoc] at hscanned
    have hne : parts.flatten ++ behind ≠ [] := by simp [hbehind]
    obtain ⟨q, d, hrest⟩ := hscanned.behind hne hlast
    rw [hmode] at hrest
    refine .cons (fun margin hmargin => ?_) (ih hrest)
    obtain ⟨kind, ys, hexcerpt, hys, hafter, -⟩ := exists_isExcerpt hscanned hne hlast hend
    refine ⟨ys, hys, fun follow zs hfollow hzs => ?_⟩
    have htext : IsExcerpt (partText (l :: ls)).toList kind ys := by
      rw [toList_partText]
      exact hexcerpt
    exact (htext.reindent hmargin).holds_atLineEnd hfollow (by rwa [hafter, hmode])

/-- A closing tag stays at the beginning of a part. -/
theorem startsWith_excerpt {l : Lexeme} {ls : List Lexeme}
    (h : Scanned .code p cs (l :: ls ++ behind)) (hbehind : ls ++ behind ≠ [])
    (hl : l.source = "?>".toList) :
    l.kind = .closeTag ∧ Scan.startsWith "?>" (excerpt (l :: ls)) = true := by
  obtain ⟨d, rfl, hgap, -, -⟩ := h.uncons hbehind
  rw [← List.append_assoc, show l.gap ++ l.text = "?>".toList from hl] at h
  have htoken : Scan.IsToken .closeTag "?>".toList d := ⟨'?', ['>'], rfl, rfl, fun _ => rfl⟩
  have hnil : l.gap = [] := by
    cases hblanks : l.gap with
    | nil => rfl
    | cons c gap =>
      rw [Lexeme.source, hblanks] at hl
      obtain ⟨rfl, -⟩ := List.cons.inj hl
      rw [hblanks] at hgap
      cases hgap _ List.mem_cons_self
  have htext : l.text = ['?', '>'] := by
    rw [Lexeme.source, hnil] at hl
    exact hl
  refine ⟨(h.eq_of_isToken htoken).1, ?_⟩
  have hend : AtLineEnd [] := by simp [AtLineEnd]
  obtain ⟨b, hmoved⟩ := MovedLeft.dedent hend l.start.margin
    (l.marked ++ ls.flatMap Lexeme.markedSource)
  rw [Lexeme.marked, htext] at hmoved
  obtain ⟨out, hout, hmoved⟩ := hmoved.of_cons rfl
  obtain ⟨out', rfl, -⟩ := hmoved.of_cons rfl
  rw [excerpt, Lexeme.marked, htext, hout]
  rfl

/-- Statements on one line before a brace. -/
theorem CutInside.oneLine {brace : Lexeme} {more : List Lexeme}
    (h : CutInside (brace :: more) parts)
    (hscanned : Scanned .code p cs (parts.flatten ++ brace :: more)) (hmore : more ≠ [])
    (hbrace : brace.kind = .rightBrace) (hline : ∀ x ∈ parts.flatten ++ [brace], '\n' ∉ x.source) :
    Tells .code .code Anything (String.join (parts.map fun part => partText part ++ " "))
      (parts.map Lexeme.literals).flatten := by
  induction h generalizing p cs with
  | nil => exact .nil .code _
  | @cons l last ls parts hlast hmode hend h ih =>
    rw [List.flatten_cons, List.append_assoc] at hscanned hline
    obtain ⟨q, d, hrest⟩ := hscanned.behind (by simp) hlast
    rw [hmode] at hrest
    have hbehind := ih hrest fun x hx => hline x (List.mem_append_right _ hx)
    obtain ⟨next, behind, hnext, hne, htag⟩ : ∃ next behind, parts.flatten ++
      brace :: more = next :: behind ∧
        behind ≠ [] ∧ (next.source = "?>".toList → ∀ follow, Scan.startsWith "?>"
          ((String.join (parts.map fun part => partText part ++ " ")).toList ++ follow) =
            true) := by
      cases parts with
      | nil =>
        refine ⟨brace, more, rfl, hmore, fun hsource => ?_⟩
        have hscanned : Scanned .code _ _ ([brace] ++ more) := hrest
        have hkind := (startsWith_excerpt hscanned hmore hsource).1
        cases hbrace.symm.trans hkind
      | cons part parts =>
        cases h with
        | @cons l' _ ls' =>
          refine ⟨l',
            ls' ++ (parts.flatten ++ brace :: more), by simp, by simp, fun hsource follow => ?_⟩
          rw [List.flatten_cons, List.append_assoc] at hrest
          have hstarts := (startsWith_excerpt hrest (by simp) hsource).2
          rw [List.map_cons, String.join_cons, String.toList_append, String.toList_append,
            toList_partText]
          simp only [List.append_assoc]
          exact Scan.startsWith_of_append hstarts
    have hmem : next ∈ parts.flatten ++ [brace] := by
      have hhead := congrArg List.head? hnext
      cases hparts : parts.flatten with
      | nil =>
        rw [hparts] at hhead
        exact List.mem_singleton.2 (Option.some.inj hhead).symm
      | cons x xs =>
        rw [hparts] at hhead
        rw [← Option.some.inj hhead]
        exact List.mem_cons_self
    rw [hnext] at hscanned hend
    have hlines : ∀ x ∈ l :: ls ++ [next], '\n' ∉ x.source := by
      intro x hx
      rcases List.mem_append.1 hx with hx | hx
      · exact hline x (List.mem_append_left _ hx)
      · rw [List.mem_singleton.1 hx]
        exact hline next (List.mem_append_right _ hmem)
    obtain ⟨ys, hys, hone⟩ := exists_oneLine hscanned hne hlast hend hmode hlines
    rw [List.map_cons, String.join_cons, List.map_cons, List.flatten_cons]
    obtain ⟨zs, hzs, hbehind⟩ := hbehind
    refine ⟨ys ++ zs, List.rel_append hys hzs, fun follow us _ hus => ?_⟩
    have hall := hone _ _ (fun _ hsource => htag hsource follow) (hbehind follow us trivial hus)
    simpa [toList_partText] using hall

end Parts

section Reading

theorem ahead_ne_nil_of_split {isFirst : Bool} {c : Cursor} {s : Step 0 (List InnerStmt) c}
    (hs : split true isFirst c = .ok s) : c.ahead ≠ [] := by
  intro hnil
  unfold split at hs
  rw [if_pos (by simp [hnil])] at hs
  cases hs

/-- A statement and the comment behind it are a part of the source, if there is something left. -/
theorem exists_part {c : Cursor} (hc : c.IsIn .code) {s : Step 1 (List Token) c}
    (hs : c.takeStatement = .ok s) (hleft : s.rest.sameLineComment.rest.ahead ≠ []) :
    ∃ l ls last, s.value.flatMap Token.pieces ++ s.rest.sameLineComment.value.toList = l :: ls ∧
      last ∈ (l :: ls).getLast? ∧ modeAfter last.kind = .code ∧ c.pieces = l :: ls ++
        s.rest.sameLineComment.rest.pieces ∧
        Boundary [] last s.rest.sameLineComment.rest.pieces ∧
          c.Reaches (Lexeme.literals (l :: ls)) .code s.rest.sameLineComment.rest := by
  obtain ⟨t, ht, hout, hword, hstands⟩ := hc.stands.takeStatement hs
  obtain ⟨n, -, -, hvalue, hrest⟩ := Cursor.takeStatement_eq_ok hs
  have hmode : modeAfter t.kind = .code := by
    cases hafter : modeAfter t.kind with
    | code => rfl
    | html =>
      have hnil := s.rest.map_ahead_sameLineComment
      rw [(hout hafter).1] at hnil
      exact absurd (List.map_eq_nil_iff.1 hnil) hleft
  have hpieces : c.pieces = s.value.flatMap Token.pieces ++ s.rest.sameLineComment.value.toList ++
      s.rest.sameLineComment.rest.pieces := by
    rw [c.pieces_skip (n - 1 + 1), ← hvalue, ← hrest, Cursor.pieces_sameLineComment,
      List.append_assoc]
  have hlast : (s.value.flatMap Token.pieces).getLast? = some t.toLexeme := by
    rw [Cursor.getLast?_pieces, Option.mem_def.1 ht]
    rfl
  obtain ⟨last, hmem, hkind, hend⟩ : ∃ last ∈
      (s.value.flatMap Token.pieces ++ s.rest.sameLineComment.value.toList).getLast?,
        modeAfter last.kind = .code ∧
        Boundary [] last s.rest.sameLineComment.rest.pieces := by
    rcases s.rest.sameLineComment_cases with ⟨hnone, hsame, -⟩ | ⟨l, ls, hcomments, -, hsome, -⟩
    · rw [hnone, hsame, Option.toList_none, List.append_nil]
      have htaken : c.pieces = s.value.flatMap Token.pieces ++ s.rest.pieces := by
        rw [c.pieces_skip (n - 1 + 1), ← hvalue, ← hrest]
      exact ⟨_, hlast, hmode, (hc.behind htaken hstands.lexed hlast).isIn.boundary hout hword⟩
    · rw [hsome, Option.toList_some, List.getLast?_concat]
      have hcomment : l.kind = .comment :=
        Cursor.comments_of_lexed hstands.lexed l (by rw [hcomments]; exact List.mem_cons_self)
      exact ⟨l, rfl, by rw [hcomment]; rfl, .of_comment hcomment⟩
  obtain ⟨l, ls, hpart⟩ :=
    List.exists_cons_of_ne_nil (List.ne_nil_of_mem (List.mem_of_getLast? hmem))
  obtain ⟨mode, hlexed⟩ := hstands.lexed
  have hreaches := hc.behind hpieces ⟨_, hlexed.sameLineComment.2.2⟩ hmem
  rw [hkind] at hreaches
  rw [hpart] at hmem hpieces hreaches
  exact ⟨l, ls, last, hpart, hmem, hkind, hpieces, hend, hreaches⟩

/-- The statements of a block are made of parts, up to its closing brace. -/
theorem exists_parts_of_split {isFirst : Bool} {c : Cursor} (hc : c.IsIn .code)
    {s : Step 0 (List InnerStmt) c} (hs : split true isFirst c = .ok s) :
    ∃ parts, s.value.map (·.text) = parts.map partText ∧ s.rest.ahead ≠ [] ∧
      s.rest.head.kind = .rightBrace ∧ c.Reaches (Lexeme.literals parts.flatten) .code s.rest ∧
      c.pieces = parts.flatten ++ s.rest.head.toLexeme :: (s.rest.skip 1).pieces ∧
      CutInside (s.rest.head.toLexeme :: (s.rest.skip 1).pieces) parts := by
  unfold split at hs
  split at hs
  next => cases hs
  next hahead =>
    have hahead : c.ahead ≠ [] := by simpa using hahead
    obtain ⟨mode, hlexed⟩ := hc.lexed
    split at hs
    next hends =>
      cases hs
      have hkind : c.head.kind = .rightBrace := by
        simpa [Cursor.isAt, hahead] using hends
      have hpieces := (hlexed.skip_one hahead).1
      cases hcomments : c.head.comments with
      | nil =>
        rw [hcomments] at hpieces
        exact ⟨[], rfl, hahead, hkind, hc.refl, hpieces, .nil⟩
      | cons l ls =>
        rw [hcomments] at hpieces
        have hplain := hcomments ▸ hc.comments
        have hnone : Lexeme.literals [l :: ls].flatten = [] := by
          rw [List.flatten_singleton, Lexeme.literals_of_comments hplain]
        have hlast := List.getLast?_eq_some_getLast (List.cons_ne_nil l ls)
        have hcomment := hplain _ (List.mem_of_getLast? hlast)
        refine ⟨[l :: ls], rfl, hahead, hkind, hnone ▸ hc.refl, by simpa using hpieces, ?_⟩
        exact .cons hlast (by rw [hcomment]; rfl) (.of_comment hcomment) .nil
    next hends =>
      obtain ⟨⟨ts, c₁, h₁⟩, htake, hs⟩ := bind_eq_ok.1 hs
      dsimp only at hs
      have h₂ := c₁.sameLineComment.progress
      obtain ⟨⟨more, c₃, h₃⟩, hmore, hs⟩ := bind_eq_ok.1 hs
      cases hs
      obtain ⟨l, ls, last, hpart, hlast, hmode, hpieces, hend, hreaches⟩ :=
        exists_part hc htake (ahead_ne_nil_of_split hmore)
      obtain ⟨parts, htexts, hleft, hkind, hrest, hbehind, hparts⟩ :=
        exists_parts_of_split hreaches.isIn hmore
      refine ⟨(l :: ls) :: parts, ?_, hleft, hkind, ?_, ?_,
        .cons hlast hmode (hbehind ▸ hend) hparts⟩
      · refine List.cons_eq_cons.2 ⟨?_, htexts⟩
        rw [partText, ← hpart]
      · rw [List.flatten_cons, Lexeme.literals_append]
        exact hreaches.trans hrest
      · rw [List.flatten_cons, List.append_assoc]
        exact hpieces.trans (congrArg (l :: ls ++ ·) hbehind)
termination_by c.size

/-- What stands between the braces of a block. -/
structure BlockParts (c : Cursor) (texts : List String) (c₁ : Cursor) (parts : List (List Lexeme))
    (brace : Lexeme) : Prop where
  texts : texts = parts.map partText
  reaches : c.Reaches (parts.map Lexeme.literals).flatten .code c₁
  pieces : c.pieces = c.head.pieces ++ (parts.flatten ++ brace :: c₁.pieces)
  closes : brace.kind = .rightBrace
  cut : CutInside (brace :: c₁.pieces) parts
  scanned : ∃ p cs, Scanned .code p cs (parts.flatten ++ brace :: c₁.pieces)

section BlockParts

variable {c c₁ : Cursor} {texts : List String} {parts : List (List Lexeme)} {brace : Lexeme}

/-- The statements of a block tell the literals between its braces. -/
theorem BlockParts.tells (h : BlockParts c texts c₁ parts brace) :
    List.Forall₂ StmtTells texts (parts.map Lexeme.literals) := by
  obtain ⟨p, cs, hscanned⟩ := h.scanned
  rw [h.texts]
  exact h.cut.tells hscanned (List.cons_ne_nil _ _)

/-- The same on one line. -/
theorem BlockParts.oneLine (h : BlockParts c texts c₁ parts brace)
    (hline : ∀ x ∈ parts.flatten ++ [brace], '\n' ∉ x.source) :
    Tells .code .code Anything (String.join (texts.map (· ++ " ")))
      (parts.map Lexeme.literals).flatten := by
  obtain ⟨p, cs, hscanned⟩ := h.scanned
  rw [h.texts, List.map_map]
  exact h.cut.oneLine hscanned c₁.pieces_ne_nil h.closes hline

/-- Between the braces of a block stand its tokens behind the first. -/
theorem BlockParts.tokens (h : BlockParts c texts c₁ parts brace) (hbehind : c.Behind false c₁)
    (hsize : c₁.size + 1 ≤ c.size) :
    parts.flatten ++ [brace] = ((c.ahead.take (c.size - c₁.size)).drop 1).flatMap Token.pieces := by
  obtain ⟨n⟩ := hbehind
  have hskip : c.skip (c.size - (c.skip n).size) = c.skip n := by
    rw [Cursor.size_skip]
    rcases Nat.le_total n c.size with hle | hle
    · rw [Nat.sub_sub_self hle]
    · rw [Nat.sub_eq_zero_of_le hle, Nat.sub_zero, Cursor.skip, Cursor.skip,
        List.drop_eq_nil_of_le hle]
      exact congrArg (Cursor.mk · c.eof) (List.drop_eq_nil_of_le (Nat.le_refl c.ahead.length))
  have hpieces := c.pieces_skip (c.size - (c.skip n).size)
  rw [hskip, h.pieces] at hpieces
  obtain ⟨m, hm⟩ : ∃ m, c.size - (c.skip n).size = m + 1 :=
    Nat.exists_eq_succ_of_ne_zero (Nat.sub_ne_zero_of_lt hsize)
  rw [hm] at hpieces ⊢
  cases hahead : c.ahead with
  | nil => simp [Cursor.size, hahead] at hsize
  | cons t ts =>
    rw [hahead, List.take_succ_cons, List.flatMap_cons, Cursor.head, hahead, List.headD_cons,
      List.append_assoc, List.append_cancel_left_eq] at hpieces
    have hsame : (parts.flatten ++ [brace]) ++ (c.skip n).pieces =
        (ts.take m).flatMap Token.pieces ++ (c.skip n).pieces := by
      simpa using hpieces
    simpa using List.append_cancel_right hsame

end BlockParts

/-- A block is made of its parts, between its braces. -/
theorem exists_blockParts {c : Cursor} {mode : Mode} (hc : c.IsIn mode)
    {s : Step 1 (List InnerStmt) c} (hs : block c = .ok s) :
    ∃ parts brace, BlockParts c (s.value.map (·.text)) s.rest parts brace := by
  unfold block at hs
  obtain ⟨⟨_, c₁, h₁⟩, hopen, hs⟩ := bind_eq_ok.1 hs
  obtain ⟨⟨stmts, c₂, h₂⟩, hsplit, hs⟩ := bind_eq_ok.1 hs
  obtain ⟨⟨_, c₃, h₃⟩, hclose, hs⟩ := bind_eq_ok.1 hs
  cases hs
  have hreaches := hc.take hopen rfl
  obtain ⟨parts, htexts, hahead, hkind, hbehind, hpieces, hparts⟩ :=
    exists_parts_of_split hreaches.isIn hsplit
  have hrest := hreaches.trans (hbehind.trans (hbehind.isIn.take hclose rfl))
  obtain ⟨m, hlexed⟩ := hc.lexed
  obtain ⟨m', hlexed'⟩ := hbehind.isIn.lexed
  have hfirst := (hlexed.take hopen).1
  have hskip := (hlexed'.skip_one hahead).1
  rw [(hlexed'.take hclose).1, List.append_cancel_left_eq, List.cons.injEq] at hskip
  rw [← hskip.2] at hpieces hparts
  rw [List.append_nil, List.nil_append] at hrest
  refine ⟨parts, c₂.head.toLexeme, htexts, literals_flatten parts ▸ hrest, ?_, hkind, hparts, ?_⟩
  · rw [hfirst, hpieces]
    simp [Token.pieces]
  · exact hpieces ▸ hreaches.isIn.scanned

end Reading

section Printing

variable {layout : Layout} {margin : String} {stmts : List InnerStmt}
  {xss : List (List (List Char))}

theorem tells_lineBreak (gap : Bool) : Tells .code .code Anything (lineBreak gap) [] := by
  refine .blank ?_
  cases gap <;> decide

/-- A statement on its line. -/
theorem tells_line (gap : Bool) (hmargin : IsIndent margin) {x : String} {xs : List (List Char)}
    (h : StmtTells x xs) :
    Tells .code .code AtLineEnd (lineBreak gap ++ margin ++ reindent margin x) xs := by
  exact ((tells_lineBreak gap).before hmargin.tells).before (h margin hmargin)

theorem opens_lineBreak (gap : Bool) : Opens AtLineEnd (lineBreak gap) := by
  intro follow c hc
  cases gap <;> exact (Option.some.inj hc).symm

/-- A block tells the literals of its statements. -/
theorem tells_blockText (hlayout : IsIndent layout.indent) (hmargin : IsIndent margin)
    (h : List.Forall₂ StmtTells (stmts.map (·.text)) xss) :
    Tells .code .code Anything (InnerStmt.blockText layout margin stmts) xss.flatten := by
  have hinner := hmargin.append hlayout
  have hlines {stmts : List InnerStmt} {xss : List (List (List Char))}
      (h : List.Forall₂ StmtTells (stmts.map (·.text)) xss) :
        List.Forall₂ (Tells .code .code AtLineEnd)
        (stmts.map fun s =>
          lineBreak s.blankBefore ++ (margin ++ layout.indent) ++
            reindent (margin ++ layout.indent) s.text) xss := by
    rw [List.forall₂_map_left_iff] at h ⊢
    exact h.imp fun s _ hs => tells_line s.blankBefore hinner hs
  have hkeeps (stmts : List InnerStmt) : ∀ x ∈ stmts.map fun s =>
      lineBreak s.blankBefore ++ (margin ++ layout.indent) ++
        reindent (margin ++ layout.indent) s.text,
        Keeps AtLineEnd x := by
    intro x hx
    obtain ⟨s, -, rfl⟩ := List.mem_map.1 hx
    exact (((opens_lineBreak s.blankBefore).append _).append _).keeps
  have hend {x : String} {xs : List (List Char)} (hx : Tells .code .code AtLineEnd x xs) :
      Tells .code .code Anything (x ++ "\n" ++ margin ++ "\x7d") xs := by
    have hbrace : Tells .code .code Anything "\x7d" [] := .mark Scan.isToken_rightBrace rfl rfl
    have hall := ((hx.append_opens tells_newline Opens.newline).before hmargin.tells).before hbrace
    simpa using hall
  unfold InnerStmt.blockText
  dsimp only
  cases stmts with
  | nil =>
    cases h
    exact hend (.nil .code _)
  | cons s more =>
    cases h with
    | cons hs hmore =>
      exact hend ((tells_line false hinner hs).append (Tells.join (hlines hmore) (hkeeps more))
        (Keeps.join (hkeeps more)))

theorem tells_brace : Tells .code .code Anything " \x7b" [] := by
  have hbrace : Tells .code .code Anything "\x7b" [] := .mark Scan.isToken_leftBrace rfl rfl
  exact tells_space.before hbrace

theorem opens_brace : Opens AtSeparator " \x7b" := by
  intro follow
  simpa using Scan.atSeparator_cons (c := ' ') (by decide) _

end Printing

end Fragment

end ClassEdit
