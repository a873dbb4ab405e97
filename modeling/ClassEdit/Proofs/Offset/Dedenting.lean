import ClassEdit.Proofs.Offset.Source
import ClassEdit.Proofs.Offset.Tiling
import ClassEdit.Proofs.Text.MovedBack
import ClassEdit.Proofs.Token.Reindenting

/-!
Code that was moved right and is moved left again, with its lines of data looked up by offsets in
what was moved. The lexemes of what was moved are those of the code, each with as many newlines as
before. Main statement: the code comes back, and with it the lines of which a literal has a part.
-/

namespace ClassEdit

open Lexeme (extent Moved)

/-- The character at an offset belongs to a literal. -/
def InLiteral (ls : List Lexeme) (offset : Nat) : Prop :=
  ∃ l ∈ ls, l.kind.isLiteral = true ∧ l.span.start ≤ offset ∧ offset < l.span.stop

/-- No line behind the first that begins outside of the literals consists of white space and begins
with a space or a tab. -/
def BlankLinesBare (ls : List Lexeme) (code : List Char) : Prop :=
  ∀ before behind, code = before ++ '\n' :: behind → ¬InLiteral ls (byteSize before) →
    (∀ c ∈ behind.takeWhile (· ≠ '\n'), isBlank c = true) → ∀ c ∈ behind.head?, isMargin c = false

section Decisions

variable {ls : List Lexeme} {code : List Char}

instance (offset : Nat) : Decidable (InLiteral ls offset) :=
  inferInstanceAs
    (Decidable (∃ l ∈ ls, l.kind.isLiteral = true ∧ l.span.start ≤ offset ∧ offset < l.span.stop))

/-- It is enough to look at each newline. -/
theorem blankLinesBare_iff : BlankLinesBare ls code ↔ ∀ i < code.length, code[i]? = some '\n' →
    ¬InLiteral ls (byteSize (code.take i)) →
      ((code.drop (i + 1)).takeWhile (· ≠ '\n')).all isBlank = true →
      (code.drop (i + 1)).head?.any isMargin = false := by
  have hbare (behind : List Char) : behind.head?.any isMargin = false ↔
      ∀ c ∈ behind.head?, isMargin c = false := by
    cases behind <;> simp
  simp only [List.all_eq_true, hbare]
  constructor
  · intro h i _ hnewline
    obtain ⟨hi, hc⟩ := List.getElem?_eq_some_iff.1 hnewline
    refine h _ _ ?_
    rw [← hc, ← List.drop_eq_getElem_cons hi, List.take_append_drop]
  · rintro h before behind rfl
    have hline := h before.length (by simp) (by simp)
    rw [List.take_left, ← List.singleton_append, ← List.append_assoc] at hline
    have hbehind : (before ++ ['\n'] ++ behind).drop (before.length + 1) = behind :=
      List.drop_left' (by simp)
    rwa [hbehind] at hline

instance : Decidable (BlankLinesBare ls code) :=
  decidable_of_iff' _ blankLinesBare_iff

end Decisions

section Marks

variable {ls ls' : List Lexeme} {l l' : Lexeme}

theorem Lexeme.newlineMarks_markedSource (l : Lexeme) : newlineMarks l.markedSource =
    List.replicate (l.gap.count '\n') false ++ List.replicate (l.text.count '\n')
      l.kind.isLiteral := by
  rw [markedSource, newlineMarks_append, marked, newlineMarks_map, newlineMarks_map]

theorem Lexeme.Moved.newlineMarks_eq (h : Moved l l') :
    newlineMarks l'.markedSource = newlineMarks l.markedSource := by
  have hgap : l'.gap.count '\n' = l.gap.count '\n' := by
    simpa [Function.comp_def] using h.gapMoved.count_newline
  have htext : l'.text.count '\n' = l.text.count '\n' := by
    have hcount := h.textMoved.count_newline
    rwa [Lexeme.map_fst_marked] at hcount
  rw [newlineMarks_markedSource, newlineMarks_markedSource, hgap, htext, h.kind]

/-- The newlines of what was moved right belong to literals as before. -/
theorem newlineMarks_moved (h : List.Forall₂ Moved ls ls') :
    newlineMarks (ls'.flatMap Lexeme.markedSource) =
      newlineMarks (ls.flatMap Lexeme.markedSource) := by
  induction h with
  | nil => rfl
  | cons hl _ ih =>
    rw [List.flatMap_cons, List.flatMap_cons, newlineMarks_append, newlineMarks_append, ih,
      hl.newlineMarks_eq]

/-- A character without a mark belongs to no literal. -/
theorem not_inLiteral_of_mark (h : IsWhole ls) {a b : List MarkedChar} {c : Char}
    (hcs : ls.flatMap Lexeme.markedSource = a ++ (c, false) :: b) :
    ¬InLiteral ls (byteSize (a.map (·.1))) := by
  rintro ⟨l, hl, hliteral, hle, hlt⟩
  obtain ⟨front, back, hls⟩ := List.append_of_mem hl
  have hpos := c.utf8Size_pos
  have hstart := h.span_start hls
  have hstop := h.span_stop hls
  rw [Lexeme.source, byteSize_append] at hstop
  have hextent : byteSize ((front.flatMap Lexeme.markedSource).map (·.1)) = extent front := by
    rw [Lexeme.map_fst_markedSource]
    rfl
  have hgap : byteSize ((l.gap.map (·, false)).map (·.1)) = byteSize l.gap := by
    simp [Function.comp_def]
  have hcut : (front.flatMap Lexeme.markedSource ++ l.gap.map (·, false)) ++
      (l.marked ++ back.flatMap Lexeme.markedSource) = a ++ (c, false) :: b := by
    rw [← hcs, hls, List.flatMap_append, List.flatMap_cons, Lexeme.markedSource]
    simp only [List.append_assoc]
  rcases append_eq_append_cons hcut with ⟨z, hbefore, -⟩ | ⟨z, rfl, hrest⟩
  · -- it stands before the literal
    have hsize := congrArg (fun cs : List MarkedChar => byteSize (cs.map (·.1))) hbefore
    simp only [List.map_append, List.map_cons, byteSize_append, byteSize_cons, hextent, hgap]
      at hsize
    omega
  · rcases append_eq_append_cons hrest with ⟨z', hmarked, -⟩ | ⟨z', rfl, -⟩
    · -- a character of the literal has the mark
      have hmem : (c, false) ∈ l.marked := by
        rw [hmarked]
        simp
      obtain ⟨d, -, hd⟩ := List.mem_map.1 hmem
      rw [hliteral] at hd
      cases hd
    · -- it stands behind the literal
      simp only [List.map_append, byteSize_append, hextent, hgap, Lexeme.map_fst_marked] at hlt
      omega

end Marks

section Reindent

variable {margin code : String} {ls : List Lexeme}

/-- Code without newlines is one line, which stays. -/
theorem toList_reindent_eq (h : Lexeme.ofCode code.toList = .ok ls) :
    (reindent margin code).toList = indentLines margin.toList (ls.flatMap Lexeme.markedSource) := by
  by_cases hline : '\n' ∈ code.toList
  · exact toList_reindent h hline
  · have hsource : (ls.flatMap Lexeme.markedSource).map (·.1) = code.toList :=
      (Lexeme.map_fst_markedSource ls).trans (Scan.scanned_of_lexemes h).source
    generalize ls.flatMap Lexeme.markedSource = cs at hsource
    have hnone : newlineMarks cs = [] := by
      rw [newlineMarks, List.map_eq_nil_iff, List.filter_eq_nil_iff]
      intro x hx hnewline
      rw [← hsource] at hline
      exact hline (beq_iff_eq.1 hnewline ▸ List.mem_map_of_mem hx)
    have hdata : ∀ l ∈ Line.ofMarked true cs, l.indent margin.toList = l.text := by
      intro l hl
      have hl := List.mem_map_of_mem (f := Line.isData) hl
      rw [Line.map_isData_ofMarked, hnone] at hl
      exact Line.indent_of_isData _ (List.mem_singleton.1 hl)
    rw [reindent_of_not_mem hline, indentLines, List.map_congr_left hdata,
      Line.join_ofMarked, hsource]

/-- Code that was moved right and is moved left by as much, but for the lines that begin inside of
literals, is the code again. -/
theorem dedent_reindent (hls : Lexeme.ofCode code.toList = .ok ls) (hreturn : '\r' ∉ code.toList)
    (hblank : BlankLinesBare ls code.toList) (hmargin : ∀ c ∈ margin.toList, isMargin c = true) :
    ∃ ls' lines, Lexeme.ofCode (reindent margin code).toList = .ok ls' ∧
      literalLines? (reindent margin code).toList ls' = some lines ∧
      dedent margin.toList.length (markLines lines 0 (reindent margin code).toList) =
        code.toList := by
  have hscanned := Scan.scanned_of_lexemes hls
  have hmoved : (reindent margin code).toList = indentLines margin.toList
      (ls.flatMap Lexeme.markedSource) :=
    toList_reindent_eq hls
  have hsource : (ls.flatMap Lexeme.markedSource).map (·.1) = code.toList :=
    (Lexeme.map_fst_markedSource ls).trans hscanned.source
  obtain ⟨ls', hscanned', hforall⟩ := hscanned.moved (MovedRight.indentLines hmargin _) .start
  rw [← hmoved] at hscanned'
  have hls' : Lexeme.ofCode (reindent margin code).toList = .ok ls' := hscanned'.lexemes_eq
  have hsource' : (ls'.flatMap Lexeme.markedSource).map (·.1) = (reindent margin code).toList :=
    (Lexeme.map_fst_markedSource ls').trans hscanned'.source
  refine ⟨ls', _, hls', literalLines?_of_lexemes hls', ?_⟩
  rw [← hsource', dedent_markLines (isDataOf_dataEnds _), ← hsource]
  refine dedent_indentLines hmargin (hsource'.trans hmoved) (newlineMarks_moved hforall)
    (hsource ▸ hreturn) ?_
  intro l hl hdata hall c hc
  obtain ⟨lines, hlines, hlast⟩ := Line.exists_ofMarked true (ls.flatMap Lexeme.markedSource)
  rw [hlines] at hl
  rcases List.mem_cons.1 hl with rfl | hl
  · cases hdata
  · obtain ⟨a, b, hcs, htext⟩ := hlast l hl
    rw [hdata] at hcs
    have hcut : code.toList = a.map (·.1) ++ '\n' :: b.map (·.1) := by
      rw [← hsource, hcs, List.map_append, List.map_cons]
    refine hblank _ _ hcut (not_inLiteral_of_mark (IsWhole.of_lexemes hls).1 hcs)
      (fun d hd => ?_) c ?_
    · rw [htext] at hall
      exact List.all_eq_true.1 hall d hd
    · rw [htext, List.head?_takeWhile] at hc
      exact (Option.mem_filter_iff.1 hc).1

/-- A line of blanks inside of a heredoc is data, and an empty line has nothing to lose. -/
theorem dedent_reindent_heredoc : ∃ (code moved : String) (ls ls' : List Lexeme),
    code = "f('a\n  b',\n<<<X\n \n X);\n\n/* c\n d */" ∧
    moved = "f('a\n  b',\n\t <<<X\n \n X);\n\n\t /* c\n\t  d */" ∧
    Lexeme.ofCode code.toList = .ok ls ∧ '\r' ∉ code.toList ∧ BlankLinesBare ls code.toList ∧
    (∀ c ∈ "\t ".toList, isMargin c = true) ∧ reindent "\t " code = moved ∧
    Lexeme.ofCode moved.toList = .ok ls' ∧ literalLines? moved.toList ls' = some [5, 18, 20] ∧
    dedent 2 (markLines [5, 18, 20] 0 moved.toList) = code.toList := by
  obtain ⟨code, hcode⟩ : ∃ code, code = "f('a\n  b',\n<<<X\n \n X);\n\n/* c\n d */" := ⟨_, rfl⟩
  obtain ⟨moved, htext⟩ : ∃ moved, moved = "f('a\n  b',\n\t <<<X\n \n X);\n\n\t /* c\n\t  d */" :=
    ⟨_, rfl⟩
  have hmoved : reindent "\t " code = moved := by
    rw [hcode, htext]
    decide +kernel
  have hreturn : '\r' ∉ code.toList := by
    rw [hcode]
    decide +kernel
  have hmargin : ∀ c ∈ "\t ".toList, isMargin c = true := List.all_eq_true.1 (by decide)
  have hbare : (Lexeme.ofCode code.toList).toOption.any
      (fun ls => decide (BlankLinesBare ls code.toList)) = true := by
    rw [hcode]
    decide +kernel
  have hoffsets : (Lexeme.ofCode moved.toList).toOption.bind (literalLines? moved.toList) =
      some [5, 18, 20] := by
    rw [htext]
    decide +kernel
  cases hls : Lexeme.ofCode code.toList with
  | error e =>
    rw [hls] at hbare
    cases hbare
  | ok ls =>
    rw [hls] at hbare
    have hblank : BlankLinesBare ls code.toList := of_decide_eq_true hbare
    obtain ⟨ls', lines, hls', hlines, hback⟩ := dedent_reindent hls hreturn hblank hmargin
    rw [hmoved] at hls' hlines hback
    rw [hls'] at hoffsets
    obtain rfl : lines = [5, 18, 20] := Option.some.inj (hlines.symm.trans hoffsets)
    exact ⟨code, moved, ls, ls', hcode, htext, hls, hreturn, hblank, hmargin, hmoved,
      hls', hlines, hback⟩

end Reindent

end ClassEdit
