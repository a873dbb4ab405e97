import ClassEdit.Proofs.Offset.Extent

/-!
Code cut into its statements by the number of the next token and the offset up to which statements
have been read. Main statement: with a round for each token that is left and one for the end, it
comes to the same statements as the reader that goes from cursor to cursor.
-/

namespace ClassEdit

open Lexeme (extent)

namespace Reading

def blankBefore (isFirst : Bool) (start stop : Nat) : Reading Bool :=
  if isFirst then return false else hasBlankLine start stop

/-- The statements behind an offset, up to the end of the source or up to a closing
brace, which stays ahead. -/
def split : Nat → Bool → Bool → Nat → Reading (List InnerStmt)
  | 0, _, _, _ => exhausted
  | n + 1, braced, isFirst, stop => do
    let next ← peek
    if braced && next.kind == .eof then refuse ⟨.ended (.kind .rightBrace), next.span⟩
    else
      let leading ← commentsBetween stop next.span.start
      let start := (leading.head?.map (·.span.start)).getD next.span.start
      if next.kind == .eof || (braced && next.kind == .rightBrace) then
        match leading.getLast? with
        | some l =>
          let text ← excerptBetween start l.span.stop
          let blank ← blankBefore isFirst stop start
          return [⟨text, blank⟩]
        | none => return []
      else
        statement (n + 1)
        let last ← prevEnd
        let comment ← sameLineComment last
        let behind := (comment.map (·.span.stop)).getD last
        let text ← excerptBetween start behind
        let blank ← blankBefore isFirst stop start
        let more ← split n braced false behind
        return ⟨text, blank⟩ :: more

def block (n : Nat) : Reading (List InnerStmt) := do
  let opening ← expect .leftBrace
  setEnd opening.span.stop
  let stmts ← split n true true (← lastEnd)
  let closing ← expect .rightBrace
  setEnd closing.span.stop
  return stmts

end Reading

namespace Fragment

/-- Code without an opening tag of five bytes before it. -/
def withoutOpenTagAt? (cs : List Char) : Option (List Char) :=
  let trimmed := cs.dropWhile isBlank
  match upTo? trimmed 5 with
  | some tag => if tag.map Char.toLower == "<?php".toList then from? trimmed 5 else some cs
  | none => some cs

/-- The tag before code is five bytes long, and cutting it off is never out of bounds. -/
theorem withoutOpenTagAt?_eq (cs : List Char) :
    withoutOpenTagAt? cs = some (withoutOpenTag cs) := by
  unfold withoutOpenTagAt? withoutOpenTag
  dsimp only
  generalize cs.dropWhile isBlank = trimmed
  by_cases htag : (trimmed.take 5).map Char.toLower = "<?php".toList
  · have hsize := (Scan.take_length_of_isOpenTag htag).1
    have hfrom := from?_append (trimmed.take 5) (trimmed.drop 5)
    have hupTo := upTo?_append (trimmed.take 5) (trimmed.drop 5)
    rw [List.take_append_drop, hsize] at hfrom hupTo
    rw [hupTo, if_pos (beq_iff_eq.2 htag)]
    dsimp only
    rw [if_pos (beq_iff_eq.2 htag), hfrom]
  · rw [if_neg (mt eq_of_beq htag)]
    cases hupTo : upTo? trimmed 5 with
    | none => rfl
    | some tag =>
      obtain ⟨behind, rfl, -⟩ := upTo?_eq_some hupTo
      refine if_neg fun hlower => htag ?_
      have hlower := eq_of_beq hlower
      have hlength : tag.length = 5 := by
        rw [← List.length_map Char.toLower, hlower]
        rfl
      rw [List.take_left' hlength, hlower]

end Fragment

section Statements

variable {ls front run : List Lexeme} {stop : Nat} {s s' : At} {c c' : Cursor} {l : Lexeme}
  {tight : Bool} {n : Nat}

/-- What lies between two places is their excerpt. -/
theorem Splits.excerptTo (h : Splits ls front s c) (hpieces : c.pieces = (l :: run) ++ c'.pieces)
    (h' : Reaches ls stop s' c') (s'' : At) :
    Reading.excerptBetween l.span.start stop (Tape.ofLexemes ls) s'' =
      .ok (String.ofList (excerpt (l :: run)), s'') := by
  have hsplit := h.split
  rw [hpieces] at hsplit
  have hexcerpt := excerpt?_eq h.whole hsplit (Cursor.pieces_ne_nil _)
  rw [← h'.eq_extent (by rw [hsplit]; simp)] at hexcerpt
  exact Reading.excerptBetween_eq hexcerpt s''

theorem Reaches.blankBefore (h : Reaches ls stop s c) (isFirst : Bool) (s' : At) :
    Reading.blankBefore isFirst stop c.head.first.span.start (Tape.ofLexemes ls) s' =
      .ok (!isFirst && c.head.first.followsBlankLine, s') := by
  cases isFirst with
  | true => rfl
  | false => exact Reading.hasBlankLine_eq h.newlines?_first s'

theorem Token.exists_pieces (t : Token) : ∃ run, t.pieces = t.first :: run := by
  rw [Token.pieces, Token.first]
  cases t.comments with
  | nil => exact ⟨[], rfl⟩
  | cons l comments => exact ⟨comments ++ [t.toLexeme], rfl⟩

/-- What a statement covers, with the comments before it and the one behind it on its last line. -/
theorem Reaches.pieces_statement (h : Reaches ls stop s c) {k : Nat}
    (hk : k ≤ c.size) (hpos : 0 < k) :
    ∃ run, (c.ahead.take k).flatMap Token.pieces ++ (c.skip k).sameLineComment.value.toList =
      c.head.first :: run ∧
      c.pieces = (c.head.first :: run) ++ (c.skip k).sameLineComment.rest.pieces := by
  obtain ⟨front, hfront, -⟩ := h
  obtain ⟨mode, hlexed⟩ := (hfront.skip hk).lexed
  obtain ⟨hpieces, -, -⟩ := hlexed.sameLineComment
  cases hahead : c.ahead with
  | nil =>
    rw [Cursor.size, hahead] at hk
    exact absurd hk (Nat.not_le.2 hpos)
  | cons t ts =>
    obtain ⟨j, rfl⟩ := Nat.exists_eq_succ_of_ne_zero (Nat.ne_of_gt hpos)
    obtain ⟨run, hrun⟩ := t.exists_pieces
    have hhead : c.head = t := by rw [Cursor.head, hahead]; rfl
    have htaken : ((t :: ts).take (j + 1)).flatMap Token.pieces =
        t.first :: (run ++ (ts.take j).flatMap Token.pieces) := by
      rw [List.take_succ_cons, List.flatMap_cons, hrun, List.cons_append]
    rw [hhead, htaken]
    refine ⟨_, rfl, ?_⟩
    rw [c.pieces_skip (j + 1), hahead, htaken, hpieces]
    simp

/-- Comments before the end of a block. -/
theorem Reaches.closing (h : Reaches ls stop s c) (isFirst : Bool) :
    (do
      match c.head.comments.getLast? with
      | some l =>
        let text ← Reading.excerptBetween c.head.first.span.start l.span.stop
        let blank ← Reading.blankBefore isFirst stop c.head.first.span.start
        return [⟨text, blank⟩]
      | none => return [] : Reading (List InnerStmt)) (Tape.ofLexemes ls) s =
        .ok (Fragment.closing isFirst c.head.comments, s) := by
  obtain ⟨front, hfront, -⟩ := id h
  have hblank := h.blankBefore isFirst s
  have hend := h.commentsEnd
  have hpieces := Cursor.pieces_withComments (List.append_nil c.head.comments).symm
  rw [Token.first] at hblank ⊢
  cases hcomments : c.head.comments with
  | nil => rfl
  | cons l comments =>
    rw [hcomments] at hblank hend hpieces
    rw [List.getLast?_cons] at hend ⊢
    dsimp only [Option.map_some, Option.getD_some, List.headD_cons] at hend hblank ⊢
    rw [Reading.bind_of_eq (hfront.excerptTo hpieces hend s), Reading.bind_of_eq hblank]
    rfl

/-- A fragment is cut into the same statements by offsets. -/
theorem Reaches.split (h : Reaches ls stop s c) (hn : c.size < n) (braced isFirst : Bool) :
    Tracks (Stands ls false) (Reading.split n braced isFirst stop (Tape.ofLexemes ls) s)
      (Fragment.split braced isFirst c) := by
  induction n generalizing stop s c isFirst with
  | zero => cases hn
  | succ n ih =>
    have hc := h.stands
    have heof : (c.head.kind == .eof) = c.ahead.isEmpty := hc.isAt_eof
    rw [Reading.split, Reading.bind_of_eq hc.peek, Fragment.split, heof]
    refine .ite (fun hend => ?broken) fun _ => ?_
    case broken =>
      have hkind := (hc.head_of_nil (List.isEmpty_iff.1 (Bool.and_eq_true_iff.1 hend).2)).2
      rw [Cursor.unexpected, ParseError.unexpected, if_pos hkind]
      exact .refuse _
    rw [Reading.bind_of_eq (h.commentsBetween s)]
    dsimp only
    rw [Token.start_first]
    refine .ite (fun _ => ?closed) fun _ => ?further
    case closed =>
      rw [h.closing isFirst]
      exact .ok (r := .here _) hc
    case further =>
      have htakes := hc.statement hn
      generalize hmachine : Reading.statement (n + 1) (Tape.ofLexemes ls) s = result at htakes
      generalize c.takeStatement = r at htakes
      cases htakes with
      | refused e =>
        rw [Reading.bind_of_error hmachine]
        exact .refused e
      | @ok k st hk hpos hvalue hrest =>
        obtain ⟨last, hprev, hlast⟩ := (hc.skip hk hpos).prevEnd
        obtain ⟨hcomment, hbehind⟩ := hlast.sameLineComment
        have hsize : st.rest.sameLineComment.rest.size < n := by
          have hstep := st.rest.sameLineComment.progress
          have hprogress := st.progress
          omega
        obtain ⟨run, htaken, hpieces⟩ := h.pieces_statement hk hpos
        obtain ⟨front, hfront, -⟩ := id h
        rw [← hrest] at hcomment hbehind htaken hpieces
        rw [← hvalue] at htaken
        rw [Reading.bind_of_eq hmachine, Reading.bind_of_eq hprev, Reading.bind_of_eq hcomment,
          Reading.bind_of_eq (hfront.excerptTo hpieces hbehind _),
          Reading.bind_of_eq (h.blankBefore isFirst _), ok_bind]
        rw [← htaken]
        exact .bind (ih hbehind hsize false) fun _ _ hs => .pure (t := Tape.ofLexemes ls) rfl hs

/-- The statements of a block are read, and a reader stands behind its closing brace. -/
theorem Stands.block (h : Stands ls tight s c) (hn : c.size < n) :
    Tracks (Stands ls true) (Reading.block n (Tape.ofLexemes ls) s) (Fragment.block c) := by
  rw [Reading.block, Fragment.block]
  refine .expect h (by decide) fun ⟨opening, c₁, h₁⟩ s₁ hs₁ hreaches => ?_
  have hreaches : Reaches ls opening.span.stop { s₁ with lastEnd := opening.span.stop } c₁ :=
    hreaches.of_pos rfl
  rw [Reading.setEnd_bind, Reading.lastEnd_bind]
  refine .bind (hreaches.split (by omega) true true) fun ⟨stmts, c₂, h₂⟩ s₂ hs₂ => ?_
  refine .expect hs₂ (by decide) fun ⟨closing, c₃, h₃⟩ s₃ hs₃ _ => ?_
  rw [Reading.setEnd_bind]
  exact .pure (t := Tape.ofLexemes ls) rfl (hs₃.of_pos rfl)

end Statements

end ClassEdit
