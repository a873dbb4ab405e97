import ClassEdit.Fragment.Split
import ClassEdit.Proofs.Token.Comments
import ClassEdit.Proofs.Token.Places
import ClassEdit.Proofs.Token.Scanned

/-!
The parts of a source that statements are made of: a statement with the comments before it and one
behind it, and the comments before the end. Main statement: the parts put together are the source,
so that the statements of a fragment hold all that is not white space, in order.
-/

namespace ClassEdit

namespace Cursor

variable {c : Cursor}

theorem exists_takeMore? (hc : c.ahead ≠ []) (n : Nat) : ∃ s, c.takeMore? n = some s ∧
    s.value = c.ahead.take (n + 1) ∧ s.rest = c.skip (n + 1) := by
  obtain ⟨ahead, eof⟩ := c
  cases ahead with
  | nil => exact absurd rfl hc
  | cons t ts => exact ⟨_, rfl, rfl, rfl⟩

/-- Where a statement ends, its tokens are taken. -/
theorem exists_takeStatement {n : Nat} (hc : c.ahead ≠ []) (hn : Extent.statement c = .ok n) :
    ∃ s, c.takeStatement = .ok s ∧ s.value = c.ahead.take (n - 1 + 1) ∧
      s.rest = c.skip (n - 1 + 1) := by
  obtain ⟨s, hs, hvalue, hrest⟩ := exists_takeMore? hc (n - 1)
  refine ⟨s, ?_, hvalue, hrest⟩
  rw [takeStatement, if_neg (by simpa using hc), hn]
  simp only [bind, Except.bind, hs]
  rfl

/-- A statement that is taken is the next tokens, as many as its extent. -/
theorem takeStatement_eq_ok {s : Step 1 (List Token) c} (h : c.takeStatement = .ok s) :
    ∃ n, c.ahead ≠ [] ∧ Extent.statement c = .ok n ∧ s.value = c.ahead.take (n - 1 + 1) ∧
      s.rest = c.skip (n - 1 + 1) := by
  have hc : c.ahead ≠ [] := by
    intro hnil
    rw [takeStatement, if_pos (by simp [hnil])] at h
    cases h
  have hn : ∃ n, Extent.statement c = .ok n := by
    rw [takeStatement, if_neg (by simpa using hc)] at h
    obtain ⟨n, hn, -⟩ := bind_eq_ok.1 h
    exact ⟨n, hn⟩
  obtain ⟨n, hn⟩ := hn
  obtain ⟨s', hs', hvalue, hrest⟩ := exists_takeStatement hc hn
  cases h.symm.trans hs'
  exact ⟨n, hc, hn, hvalue, hrest⟩

theorem pieces_skip (c : Cursor) (n : Nat) :
    c.pieces = (c.ahead.take n).flatMap Token.pieces ++ (c.skip n).pieces := by
  have htokens : c.tokens = c.ahead.take n ++ (c.skip n).tokens := by
    rw [tokens, tokens, skip, ← List.append_assoc, List.take_append_drop]
  rw [pieces, pieces, htokens, List.flatMap_append]

theorem exists_isLexed_skip (hc : ∃ mode, c.IsLexed mode) (n : Nat) :
    ∃ mode, (c.skip n).IsLexed mode := by
  obtain ⟨mode, hc⟩ := hc
  have htokens : c.tokens = c.ahead.take n ++ (c.skip n).tokens := by
    rw [tokens, tokens, Cursor.skip, ← List.append_assoc, List.take_append_drop]
  have hsequence := hc.tokens
  rw [htokens] at hsequence
  obtain ⟨mode', hrest⟩ := hsequence.of_append
  exact ⟨mode', hrest, hc.eof⟩

/-- A comment on the same line is taken off what is ahead, and nothing else is. -/
theorem pieces_sameLineComment (c : Cursor) :
    c.pieces = c.sameLineComment.value.toList ++ c.sameLineComment.rest.pieces := by
  unfold sameLineComment
  split
  next l ls hcomments =>
    split
    next => rfl
    next =>
      have hcut : c.head.comments = [l] ++ ls := hcomments
      exact pieces_withComments hcut
  next => rfl

end Cursor

/-- The text without its white space. -/
def visible (cs : List Char) : List Char := cs.filter (!isBlank ·)

section Visible

theorem visible_append (xs ys : List Char) : visible (xs ++ ys) = visible xs ++ visible ys :=
  List.filter_append _ _

theorem visible_eq_nil {cs : List Char} (h : ∀ c ∈ cs, isBlank c = true) : visible cs = [] := by
  simpa [visible] using h

theorem visible_flatMap {α : Type} (f : α → List Char) (xs : List α) :
    visible (xs.flatMap f) = xs.flatMap fun x => visible (f x) := by
  simp [visible, List.filter_flatMap]

theorem visible_join (ls : List (List Char)) : visible (Line.join ls) = ls.flatMap visible := by
  fun_induction Line.join ls with
  | case1 => rfl
  | case2 l => simp
  | case3 l ls hne ih =>
    rw [visible_append, visible, visible, List.filter_cons_of_neg (by decide)]
    exact congrArg (visible l ++ ·) ih

/-- A line that is moved left loses nothing but white space. -/
theorem Line.visible_dedent (width : Nat) (l : Line) :
    visible (l.dedent width) = visible l.text := by
  have htrim : visible (dropEndWhile (· == '\r') l.text) = visible l.text := by
    have hend : visible (l.text.reverse.takeWhile (· == '\r')).reverse = [] := by
      refine visible_eq_nil fun c hc => ?_
      have hreturn := List.all_eq_true.1 List.all_takeWhile c (List.mem_reverse.1 hc)
      rw [eq_of_beq hreturn]
      rfl
    conv => rhs; rw [← dropEndWhile_append (· == '\r') l.text, visible_append,
      hend, List.append_nil]
  unfold Line.dedent
  simp only
  split
  next => exact htrim
  next =>
    rw [← htrim]
    generalize dropEndWhile (· == '\r') l.text = text
    have hmargin : visible (text.take (min width (text.takeWhile isMargin).length)) = [] := by
      rw [← List.take_take, ← List.prefix_iff_eq_take.1 (List.takeWhile_prefix isMargin)]
      exact visible_eq_nil fun c hc =>
        isBlank_of_isMargin (List.all_eq_true.1 List.all_takeWhile c (List.mem_of_mem_take hc))
    conv =>
      rhs
      rw [← List.take_append_drop (min width (text.takeWhile isMargin).length) text, visible_append,
        hmargin, List.nil_append]

theorem visible_dedent (width : Nat) (cs : List MarkedChar) :
    visible (dedent width cs) = visible (cs.map (·.1)) := by
  rw [dedent, ← Line.join_ofMarked true cs, visible_join, visible_join,
    List.flatMap_map, List.flatMap_map]
  exact congrArg (List.flatMap · _) (funext (Line.visible_dedent width))

/-- What is kept of a part is all of it but white space. -/
theorem visible_excerpt {ls : List Lexeme} (h : ∀ l ∈ ls, ∀ c ∈ l.gap, isBlank c = true) :
    visible (excerpt ls) = visible (ls.flatMap Lexeme.source) := by
  cases ls with
  | nil => rfl
  | cons l ls =>
    have hgap : visible l.gap = [] := visible_eq_nil (h l List.mem_cons_self)
    rw [excerpt, visible_dedent, List.map_append, Lexeme.map_fst_marked,
      Lexeme.map_fst_markedSource, List.flatMap_cons, visible_append, visible_append, Lexeme.source,
      visible_append, hgap, List.nil_append]

end Visible

namespace Fragment

open Cursor (pieces)

/-- What the statements up to the end of the source are made of. -/
inductive Parts : Cursor → List (List Lexeme) → Prop where
  | nil {c : Cursor} (hahead : c.ahead = []) (hcomments : c.head.comments = []) : Parts c []
  | closing {c : Cursor} {l : Lexeme} {ls : List Lexeme} (hahead : c.ahead = [])
      (hcomments : c.head.comments = l :: ls) : Parts c [l :: ls]
  | cons {c : Cursor} {s : Step 1 (List Token) c} {parts : List (List Lexeme)}
      (hs : c.takeStatement = .ok s) (h : Parts s.rest.sameLineComment.rest parts) :
      Parts c ((s.value.flatMap Token.pieces ++ s.rest.sameLineComment.value.toList) :: parts)

def partText (ls : List Lexeme) : String := String.ofList (excerpt ls)

def tokens (ls : List Lexeme) : List Lexeme := ls.filter (·.kind != .comment)

theorem tokens_append (ls ms : List Lexeme) : tokens (ls ++ ms) = tokens ls ++ tokens ms :=
  List.filter_append _ _

theorem tokens_of_comments {ls : List Lexeme} (h : ∀ l ∈ ls, l.kind = .comment) : tokens ls = [] :=
  List.filter_eq_nil_iff.2 fun l hl => by simp [h l hl]

/-- The comments before tokens are no tokens. -/
theorem tokens_pieces {mode : Mode} {ts us : List Token} (h : Token.Sequence mode (ts ++ us)) :
    tokens (ts.flatMap Token.pieces) = ts.map (·.toLexeme) := by
  induction ts generalizing mode with
  | nil => rfl
  | cons t ts ih =>
    cases h with
    | cons hkind hcomments _ hbehind =>
      have hself : tokens [t.toLexeme] = [t.toLexeme] := by simp [tokens, hkind]
      rw [List.flatMap_cons, tokens_append, ih hbehind, Token.pieces, tokens_append,
        tokens_of_comments hcomments, hself]
      rfl

/-- A part is the tokens of a statement and comments. -/
theorem tokens_part {c : Cursor} {s : Step 1 (List Token) c} (hc : ∃ mode, c.IsLexed mode)
    (hs : c.takeStatement = .ok s) :
    tokens (s.value.flatMap Token.pieces ++ s.rest.sameLineComment.value.toList) =
      s.value.map (·.toLexeme) ∧
      ∃ mode, s.rest.sameLineComment.rest.IsLexed mode := by
  obtain ⟨n, -, -, hvalue, hrest⟩ := Cursor.takeStatement_eq_ok hs
  obtain ⟨mode, hlexed⟩ := Cursor.exists_isLexed_skip hc (n - 1 + 1)
  rw [← hrest] at hlexed
  obtain ⟨-, hcomment, hlexed'⟩ := hlexed.sameLineComment
  obtain ⟨mode', hc⟩ := hc
  have hsequence := hc.tokens
  rw [Cursor.tokens, ← List.take_append_drop (n - 1 + 1) c.ahead, List.append_assoc, ← hvalue]
    at hsequence
  have hcomments : tokens s.rest.sameLineComment.value.toList = [] :=
    tokens_of_comments (by simpa using hcomment)
  refine ⟨?_, mode, hlexed'⟩
  rw [tokens_append, tokens_pieces hsequence, hcomments, List.append_nil]

theorem split_of_nil {c : Cursor} (isFirst : Bool) (h : c.ahead = []) :
    split false isFirst c = .ok (.here (closing isFirst c.head.comments)) := by
  rw [split, h]
  rfl

/-- A fragment is cut into its first statement, a comment on the same line and the rest. -/
theorem split_of_takeStatement {c : Cursor} (isFirst : Bool) (h : c.ahead ≠ []) :
    split false isFirst c = do
      let ⟨ts, c₁, h₁⟩ ← c.takeStatement
      let ⟨comment, c₂, h₂⟩ := c₁.sameLineComment
      let stmt : InnerStmt :=
        ⟨partText (ts.flatMap Token.pieces ++ comment.toList), !isFirst &&
          c.head.first.followsBlankLine⟩
      let ⟨more, c₃, h₃⟩ ← split false false c₂
      return .weaken <| .past h₁ <| .after h₂ ⟨stmt :: more, c₃, h₃⟩ := by
  rw [split]
  have hempty : c.ahead.isEmpty = false := by simpa using h
  simp only [hempty, Bool.false_and, Bool.false_or, Bool.false_eq_true, if_false]
  rfl

/-- The texts of statements are those of their parts. -/
theorem parts_of_split {isFirst : Bool} {c : Cursor} {s : Step 0 (List InnerStmt) c}
    (h : split false isFirst c = .ok s) :
    ∃ parts, Parts c parts ∧ s.value.map (·.text) = parts.map partText := by
  induction hn : c.size using Nat.strongRecOn generalizing isFirst c with
  | ind n ih =>
    subst hn
    by_cases hahead : c.ahead = []
    · rw [split_of_nil isFirst hahead] at h
      cases hcomments : c.head.comments with
      | nil =>
        rw [hcomments] at h
        cases h
        exact ⟨[], .nil hahead hcomments, rfl⟩
      | cons l ls =>
        rw [hcomments] at h
        cases h
        exact ⟨[l :: ls], .closing hahead hcomments, rfl⟩
    · rw [split_of_takeStatement isFirst hahead] at h
      obtain ⟨s₁, hs₁, h⟩ := bind_eq_ok.1 h
      obtain ⟨s₃, hs₃, h⟩ := bind_eq_ok.1 h
      cases h
      have hsize : s₁.rest.sameLineComment.rest.size < c.size :=
        Nat.lt_of_le_of_lt s₁.rest.sameLineComment.progress s₁.progress
      obtain ⟨parts, hparts, htexts⟩ := ih _ hsize hs₃ rfl
      exact ⟨_, .cons hs₁ hparts, congrArg _ htexts⟩

theorem eof_rest {c : Cursor} {s : Step 1 (List Token) c} (hs : c.takeStatement = .ok s) :
    s.rest.sameLineComment.rest.eof.toLexeme = c.eof.toLexeme := by
  obtain ⟨n, -, -, -, hrest⟩ := Cursor.takeStatement_eq_ok hs
  rw [hrest]
  exact (Cursor.Behind.refl.skip (n - 1 + 1)).sameLineComment.eof_eq

namespace Parts

variable {c : Cursor} {parts : List (List Lexeme)}

/-- Where there are parts, there are statements with their texts. -/
theorem exists_split (h : Parts c parts) (isFirst : Bool) :
    ∃ s, split false isFirst c = .ok s ∧ s.value.map (·.text) = parts.map partText := by
  induction h generalizing isFirst with
  | nil hahead hcomments =>
    rw [split_of_nil isFirst hahead, hcomments]
    exact ⟨_, rfl, rfl⟩
  | closing hahead hcomments =>
    rw [split_of_nil isFirst hahead, hcomments]
    exact ⟨_, rfl, rfl⟩
  | @cons c s parts hs _ ih =>
    obtain ⟨n, hahead, -⟩ := Cursor.takeStatement_eq_ok hs
    obtain ⟨s', hs', htexts⟩ := ih false
    rw [split_of_takeStatement isFirst hahead, hs]
    simp only [bind, Except.bind, hs']
    exact ⟨_, rfl, congrArg _ htexts⟩

/-- The parts and the end are the source that is left. -/
theorem pieces_eq (h : Parts c parts) : c.pieces = parts.flatten ++ [c.eof.toLexeme] := by
  induction h with
  | nil hahead hcomments => rw [Cursor.pieces_of_nil hahead, hcomments]; rfl
  | closing hahead hcomments => rw [Cursor.pieces_of_nil hahead, hcomments]; simp
  | @cons c s parts hs _ ih =>
    obtain ⟨n, -, -, hvalue, hrest⟩ := Cursor.takeStatement_eq_ok hs
    rw [c.pieces_skip (n - 1 + 1), ← hvalue, ← hrest, Cursor.pieces_sameLineComment, ih,
      eof_rest hs]
    simp

end Parts

/-- A source that is accepted has parts. -/
theorem exists_parts {source : String} {stmts : List InnerStmt} (h : ofSource source = .ok stmts) :
    ∃ ls parts,
    Lexeme.ofCode (withoutOpenTag source.toList) = .ok ls ∧ Parts (.ofLexemes ls) parts ∧
      stmts.map (·.text) = parts.map partText := by
  obtain ⟨ls, hls, h⟩ := bind_eq_ok.1 h
  obtain ⟨s, hs, h⟩ := bind_eq_ok.1 h
  cases h
  obtain ⟨parts, hparts, htexts⟩ := parts_of_split hs
  exact ⟨ls, parts, hls, hparts, htexts⟩

theorem ofSource_of_parts {source : String} {ls : List Lexeme} {parts : List (List Lexeme)}
    (hls : Lexeme.ofCode (withoutOpenTag source.toList) = .ok ls)
    (h : Parts (.ofLexemes ls) parts) :
    ∃ stmts, ofSource source = .ok stmts ∧ stmts.map (·.text) = parts.map partText := by
  obtain ⟨s, hs, htexts⟩ := h.exists_split true
  refine ⟨s.value, ?_, htexts⟩
  simp only [ofSource, hls, ok_bind, hs]
  rfl

/-- The lexemes of a source are those of its parts and its end. -/
theorem flatten_parts {mode : Mode} {p : Position} {cs : List Char} {ls : List Lexeme}
    {parts : List (List Lexeme)} (hls : Scan.lexemes mode p cs = .ok ls)
    (h : Parts (.ofLexemes ls) parts) :
    ls = parts.flatten ++ [(Cursor.ofLexemes ls).eof.toLexeme] := by
  rw [← h.pieces_eq]
  exact (Cursor.isLexed_ofLexemes hls).2.symm

/-- The statements of a fragment hold all of its code but white space, each character once and in
order. -/
theorem visible_texts {source : String} {stmts : List InnerStmt} (h : ofSource source = .ok stmts) :
    visible (stmts.flatMap (·.text.toList)) = visible (withoutOpenTag source.toList) := by
  obtain ⟨ls, hls, h⟩ := bind_eq_ok.1 h
  obtain ⟨s, hs, h⟩ := bind_eq_ok.1 h
  cases h
  obtain ⟨parts, hparts, htexts⟩ := parts_of_split hs
  obtain ⟨hlexed, hpieces⟩ := Cursor.isLexed_ofLexemes hls
  have hsource := Scan.source_lexemes hls
  have hgaps := Scan.isBlank_of_mem_gap hls
  have hplaces : ∀ l ∈ ls, l.StandsIn .start (withoutOpenTag source.toList) :=
    (Scan.cuts_lexemes ..).of_ok hls
  rw [← hpieces, hparts.pieces_eq] at hsource hgaps hplaces
  have hpart (part : List Lexeme) (h : part ∈ parts) :
      visible (excerpt part) = visible (part.flatMap Lexeme.source) :=
    visible_excerpt fun l hl => hgaps l (List.mem_append_left _ (List.mem_flatten_of_mem h hl))
  have hmem : (Cursor.ofLexemes ls).eof.toLexeme ∈ parts.flatten ++
      [(Cursor.ofLexemes ls).eof.toLexeme] :=
    List.mem_append_right _ List.mem_cons_self
  obtain ⟨_, _, -, -, heof⟩ := hplaces _ hmem
  have hend : visible (Cursor.ofLexemes ls).eof.source = [] := by
    rw [Lexeme.source, (heof hlexed.eof).1, List.append_nil]
    exact visible_eq_nil (hgaps _ hmem)
  calc visible (s.value.flatMap (·.text.toList))
      = visible ((s.value.map (·.text)).flatMap String.toList) := by rw [List.flatMap_map]
    _ = parts.flatMap fun part => visible (excerpt part) := by
      rw [htexts, List.flatMap_map, visible_flatMap]
      simp only [partText, String.toList_ofList]
    _ = parts.flatMap fun part => visible (part.flatMap Lexeme.source) := by
      rw [List.flatMap_def, List.flatMap_def, List.map_congr_left hpart]
    _ = visible (withoutOpenTag source.toList) := by
      rw [← hsource, List.flatMap_append, visible_append, List.flatMap_singleton, hend,
        List.append_nil, List.flatten_eq_flatMap, List.flatMap_assoc, visible_flatMap]
      rfl

/-- A comment, a loop and a comment at the end. -/
theorem visible_texts_loop :
    ∃ stmts,
      ofSource "<?php\n  $a = 1; // one\n\n  while ($a):\n    f('x y');\n  endwhile;\n  /* end */" =
        .ok stmts ∧
      stmts.map (·.text) = ["$a = 1; // one", "while ($a):\n  f('x y');\nendwhile;", "/* end */"] ∧
      visible (stmts.flatMap (·.text.toList)) =
        "$a=1;//onewhile($a):f('xy');endwhile;/*end*/".toList := by
  have htexts :
      (ofSource
        "<?php\n  $a = 1; // one\n\n  while ($a):\n    f('x y');\n  endwhile;\n  /* end */"
      ).toOption.map (·.map (·.text)) =
        some ["$a = 1; // one", "while ($a):\n  f('x y');\nendwhile;", "/* end */"] := by
    decide +kernel
  cases hread :
    ofSource "<?php\n  $a = 1; // one\n\n  while ($a):\n    f('x y');\n  endwhile;\n  /* end */"
      with
  | error e =>
    rw [hread] at htexts
    cases htexts
  | ok stmts =>
    rw [hread] at htexts
    refine ⟨stmts, rfl, Option.some.inj htexts, ?_⟩
    rw [visible_texts hread]
    decide +kernel

end Fragment

end ClassEdit
