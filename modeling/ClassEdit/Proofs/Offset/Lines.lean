import Mathlib.Data.List.Induction
import Mathlib.Data.List.TakeWhile
import ClassEdit.Proofs.Offset.Bytes

/-!
Lines by byte offsets. A line begins behind a newline, and it is data if its offset is among those
of the lines that begin inside of literals. Main statements: a text whose lines are marked by
offsets is moved like one whose characters carry the marks, and the margin of a line that is looked
up in the source is the one that was counted on the way.
-/

namespace ClassEdit

/-- The offsets behind the newlines of a text that begins at an offset. -/
def newlineEnds : Nat → List Char → List Nat
  | _, [] => []
  | offset, c :: cs =>
    let behind := offset + c.utf8Size
    if c = '\n' then behind :: newlineEnds behind cs else newlineEnds behind cs

/-- The offsets behind the newlines that are marked as data. -/
def dataEnds : Nat → List MarkedChar → List Nat
  | _, [] => []
  | offset, (c, mark) :: cs =>
    let behind := offset + c.utf8Size
    if c = '\n' ∧ mark then behind :: dataEnds behind cs else dataEnds behind cs

/-- The text with each character marked behind which one of the lines begins. -/
def markLines (lines : List Nat) : Nat → List Char → List MarkedChar
  | _, [] => []
  | offset, c :: cs =>
      (c, lines.contains (offset + c.utf8Size)) :: markLines lines (offset + c.utf8Size) cs

/-- The offsets of the lines that begin inside of the literals among lexemes, if these lie in the
source. -/
def literalLines? (source : List Char) : List Lexeme → Option (List Nat)
  | [] => some []
  | l :: ls =>
    if l.kind.isLiteral then do
      let text ← cut? source l.span.start l.span.stop
      return newlineEnds l.span.start text ++ (← literalLines? source ls)
    else literalLines? source ls

def lineStart (before : List Char) : Nat :=
  (newlineEnds 0 before).getLast?.getD 0

/-- The margin of the line at an offset, up to the offset. -/
def marginAt? (source : List Char) (offset : Nat) : Option Nat := do
  let before ← cut? source 0 offset
  let line ← cut? source (lineStart before) offset
  return (line.takeWhile isMargin).length

section Ends

variable {offset x : Nat}

@[simp] theorem newlineEnds_append (offset : Nat) (a b : List Char) :
    newlineEnds offset (a ++ b) = newlineEnds offset a ++ newlineEnds (offset + byteSize a) b := by
  induction a generalizing offset with
  | nil => rfl
  | cons c a ih =>
    simp only [List.cons_append, newlineEnds, byteSize_cons, ih, ← Nat.add_assoc]
    split <;> rfl

@[simp] theorem dataEnds_append (offset : Nat) (a b : List MarkedChar) :
    dataEnds offset (a ++ b) = dataEnds offset a ++
      dataEnds (offset + byteSize (a.map (·.1))) b := by
  induction a generalizing offset with
  | nil => rfl
  | cons c a ih =>
    simp only [List.cons_append, dataEnds, List.map_cons, byteSize_cons, ih, ← Nat.add_assoc]
    split <;> rfl

theorem dataEnds_map (offset : Nat) (mark : Bool) (cs : List Char) :
    dataEnds offset (cs.map (·, mark)) = if mark then newlineEnds offset cs else [] := by
  induction cs generalizing offset with
  | nil => cases mark <;> rfl
  | cons c cs ih =>
    rw [List.map_cons, dataEnds, ih]
    cases mark <;> simp [newlineEnds]

/-- The marked newlines are within the text. -/
theorem lt_of_mem_dataEnds {cs : List MarkedChar} (h : x ∈ dataEnds offset cs) :
    offset < x ∧ x ≤ offset + byteSize (cs.map (·.1)) := by
  induction cs generalizing offset with
  | nil => cases h
  | cons c cs ih =>
    obtain ⟨c, mark⟩ := c
    have hpos := c.utf8Size_pos
    simp only [List.map_cons, byteSize_cons]
    unfold dataEnds at h
    dsimp only at h
    split at h
    next =>
      rcases List.mem_cons.1 h with rfl | h
      · omega
      · have := ih h
        omega
    next =>
      have := ih h
      omega

/-- A newline is marked as data if the line behind it is among those. -/
theorem mem_dataEnds_iff (offset : Nat) {a b : List MarkedChar} {mark : Bool} :
    offset + byteSize (a.map (·.1)) + 1 ∈ dataEnds offset (a ++ ('\n', mark) :: b) ↔
      mark = true := by
  have hbefore : offset + byteSize (a.map (·.1)) + 1 ∉ dataEnds offset a := fun h => by
    have := (lt_of_mem_dataEnds h).2
    omega
  have hbehind : offset + byteSize (a.map (·.1)) + 1 ∉ dataEnds
      (offset + byteSize (a.map (·.1)) + 1) b := fun h => by
    have := (lt_of_mem_dataEnds h).1
    omega
  have hsize : ('\n' : Char).utf8Size = 1 := rfl
  rw [dataEnds_append, List.mem_append, dataEnds, hsize]
  cases mark with
  | true => simp
  | false => simp [hbefore, hbehind]

end Ends

section Marks

variable {β : Type} (f : Line → β)

/-- If the marks by offsets are those of the newlines, the lines are the same, but for the mark of
an empty last line, which makes no difference. -/
theorem map_ofMarked_markLines (hf : ∀ d d', f ⟨d, []⟩ = f ⟨d', []⟩)
    {lines : List Nat} {offset : Nat} {cs : List MarkedChar} (isData : Bool)
    (h : ∀ a mark b, cs = a ++ ('\n', mark) :: b → b ≠ [] →
      lines.contains (offset + byteSize (a.map (·.1)) + 1) = mark) :
    ∃ l ls ls', Line.ofMarked isData (markLines lines offset (cs.map (·.1))) = l :: ls ∧
      Line.ofMarked isData cs = l :: ls' ∧ ls.map f = ls'.map f := by
  induction cs generalizing offset isData with
  | nil => exact ⟨_, _, _, rfl, rfl, rfl⟩
  | cons c cs ih =>
    obtain ⟨c, mark⟩ := c
    have hmarks (a : List MarkedChar) (mark : Bool) (b : List MarkedChar)
        (hcs : cs = a ++ ('\n', mark) :: b)
        (hb : b ≠ []) : lines.contains (offset + c.utf8Size + byteSize (a.map (·.1)) + 1) =
          mark := by
      have hmark := h ((c, _) :: a) mark b (by rw [hcs]; rfl) hb
      rwa [List.map_cons, byteSize_cons, ← Nat.add_assoc] at hmark
    have hrest := ih (if c = '\n' then mark else isData) hmarks
    obtain ⟨l, ls, ls', hl, hl', hmap⟩ := hrest
    rw [List.map_cons, markLines, Line.ofMarked, Line.ofMarked]
    by_cases hc : c = '\n'
    · subst hc
      rw [if_pos rfl] at hl hl'
      rw [if_pos rfl, if_pos rfl]
      refine ⟨_, _, _, rfl, rfl, ?_⟩
      cases cs with
      | nil =>
        rw [List.map_nil, markLines, Line.ofMarked, Line.ofMarked, List.map_singleton,
          List.map_singleton, hf]
      | cons d cs =>
        have hsize : ('\n' : Char).utf8Size = 1 := rfl
        have hmark := h [] mark (d :: cs) rfl (List.cons_ne_nil _ _)
        rw [List.map_nil, byteSize_nil, Nat.add_zero] at hmark
        rw [hsize] at hl ⊢
        rw [hmark, hl, hl', List.map_cons, List.map_cons, hmap]
    · rw [if_neg hc] at hl hl'
      rw [if_neg hc, if_neg hc, hl, hl']
      exact ⟨_, _, _, rfl, rfl, hmap⟩

end Marks

section Moved

variable {lines : List Nat} {cs : List MarkedChar}

/-- The offsets of a text's own lines of data. -/
def IsDataOf (lines : List Nat) (cs : List MarkedChar) : Prop :=
  ∀ a mark b, cs = a ++ ('\n', mark) :: b → b ≠ [] →
    lines.contains (0 + byteSize (a.map (·.1)) + 1) = mark

theorem dedent_markLines (h : IsDataOf lines cs) (width : Nat) :
    dedent width (markLines lines 0 (cs.map (·.1))) = dedent width cs := by
  have hempty (d d' : Bool) : Line.dedent width ⟨d, []⟩ = Line.dedent width ⟨d', []⟩ := by
    cases d <;> cases d' <;> simp [Line.dedent, dropEndWhile]
  obtain ⟨l, ls, ls', hl, hl', hmap⟩ := map_ofMarked_markLines (Line.dedent width) hempty true h
  rw [dedent, dedent, hl, hl', List.map_cons, List.map_cons, hmap]

theorem indentLines_markLines (h : IsDataOf lines cs) (margin : List Char) :
    indentLines margin (markLines lines 0 (cs.map (·.1))) = indentLines margin cs := by
  have hempty (d d' : Bool) : Line.indent margin ⟨d, []⟩ = Line.indent margin ⟨d', []⟩ := by
    simp [Line.indent]
  obtain ⟨l, ls, ls', hl, hl', hmap⟩ := map_ofMarked_markLines (Line.indent margin) hempty true h
  rw [indentLines, indentLines, hl, hl', List.map_cons, List.map_cons, hmap]

theorem isDataOf_dataEnds (cs : List MarkedChar) : IsDataOf (dataEnds 0 cs) cs := by
  rintro a mark b rfl -
  rw [Bool.eq_iff_iff, List.contains_iff_mem]
  exact mem_dataEnds_iff 0

/-- Lines that are looked for between two offsets of the source, counted from the first. -/
theorem isDataOf_between (start : Nat) (cs : List MarkedChar) :
    IsDataOf
      (((dataEnds start cs).filter fun x => start < x ∧ x < start + byteSize (cs.map (·.1))).map
        (· - start))
      cs := by
  rintro a mark b rfl hb
  rw [Bool.eq_iff_iff, List.contains_iff_mem, ← mem_dataEnds_iff start (a := a) (b := b),
    List.mem_map]
  have hbehind : 0 < byteSize (b.map (·.1)) := byteSize_pos (by simpa using hb)
  have hsize : ('\n' : Char).utf8Size = 1 := rfl
  constructor
  · rintro ⟨x, hx, hoffset⟩
    obtain ⟨hx, hbounds⟩ := List.mem_filter.1 hx
    simp only [Bool.decide_and, Bool.and_eq_true, decide_eq_true_eq] at hbounds
    have hx' : start + byteSize (a.map (·.1)) + 1 = x := by
      rw [Nat.add_assoc, ← Nat.zero_add (byteSize _), ← hoffset]
      exact Nat.add_sub_cancel' (Nat.le_of_lt hbounds.1)
    exact hx' ▸ hx
  · intro h
    have hlt : start + byteSize (a.map (·.1)) + 1 < start + byteSize
        ((a ++ ('\n', mark) :: b).map (·.1)) := by
      rw [List.map_append, byteSize_append, List.map_cons, byteSize_cons, hsize]
      omega
    refine ⟨start + byteSize (a.map (·.1)) + 1, List.mem_filter.2 ⟨h, ?_⟩, by omega⟩
    rw [decide_eq_true_eq]
    exact ⟨by omega, hlt⟩

end Moved

section Margin

theorem lastLine_append_singleton (cs : List Char) (c : Char) :
    lastLine (cs ++ [c]) = if c = '\n' then [] else lastLine cs ++ [c] := by
  simp only [lastLine, List.reverse_append, List.reverse_singleton, List.singleton_append,
    List.takeWhile_cons]
  split <;> simp_all

/-- A text is what stands before its last line, and that line. -/
theorem exists_lineStart (cs : List Char) :
    ∃ a, cs = a ++ lastLine cs ∧ lineStart cs = byteSize a := by
  induction cs using List.reverseRecOn with
  | nil => exact ⟨[], rfl, rfl⟩
  | append_singleton cs c ih =>
    obtain ⟨a, hcs, hstart⟩ := ih
    rw [lastLine_append_singleton]
    split
    next hc =>
      subst hc
      refine ⟨cs ++ ['\n'], by rw [List.append_nil], ?_⟩
      simp [lineStart, newlineEnds]
    next hc =>
      refine ⟨a, ?_, ?_⟩
      · rw [← List.append_assoc, ← hcs]
      · rw [← hstart, lineStart, lineStart, newlineEnds_append]
        simp [newlineEnds, hc]

/-- The margin of a position is that of its line, up to the first character that is none. -/
theorem Position.margin_after_start (cs : List Char) :
    (start.after cs).margin = ((lastLine cs).takeWhile isMargin).length ∧
      (start.after cs).inMargin = (lastLine cs).all isMargin := by
  induction cs using List.reverseRecOn with
  | nil => exact ⟨rfl, rfl⟩
  | append_singleton cs c ih =>
    obtain ⟨hmargin, hin⟩ := ih
    have hstep : start.after (cs ++ [c]) = (start.after cs).step c := by
      rw [after_append]
      rfl
    rw [hstep, lastLine_append_singleton]
    unfold step
    split
    next => exact ⟨rfl, rfl⟩
    next =>
      dsimp only
      rw [hmargin, hin, List.all_append, List.takeWhile_append]
      have hall : ((lastLine cs).takeWhile isMargin).length = (lastLine cs).length ↔
          (lastLine cs).all isMargin = true := by
        rw [List.all_eq_true, ← List.takeWhile_eq_self_iff]
        exact ⟨fun h => (List.takeWhile_prefix _).eq_of_length h, congrArg _⟩
      by_cases hline : (lastLine cs).all isMargin = true
      · rw [if_pos (hall.2 hline), hall.2 hline, hline]
        cases hc : isMargin c <;> simp [hc]
      · rw [if_neg (mt hall.1 hline), Bool.eq_false_iff.2 hline]
        exact ⟨rfl, rfl⟩

/-- The margin of a line, looked up in the source, is the one that was counted up to the place. -/
theorem marginAt?_append (a b : List Char) :
    marginAt? (a ++ b) (byteSize a) = some (Position.start.after a).margin := by
  obtain ⟨before, ha, hstart⟩ := exists_lineStart a
  have hbefore : cut? (a ++ b) 0 (byteSize a) = some a := by
    have hcut := cut?_append [] a b
    rwa [byteSize_nil, Nat.zero_add] at hcut
  have hline : cut? (a ++ b) (lineStart a) (byteSize a) = some (lastLine a) := by
    have hcut := cut?_append before (lastLine a) b
    rwa [← byteSize_append, ← List.append_assoc, ← ha, ← hstart] at hcut
  rw [marginAt?, hbefore, Option.bind_eq_bind, Option.bind_some, hline,
    (Position.margin_after_start a).1]
  rfl

end Margin

end ClassEdit
