import ClassEdit.Proofs.Text.MovedRight

/-!
A text that was moved right and is moved left again. The lines of a marked text are given by its
characters and by the marks of its newlines; what is moved right has the same marks, and each of its
lines loses again what it gained. Main statement: the text comes back, if no line has a carriage
return and no blank line of code begins with a blank.
-/

namespace ClassEdit

def newlineMarks (cs : List MarkedChar) : List Bool :=
  (cs.filter (·.1 == '\n')).map (·.2)

theorem newlineMarks_append (a b : List MarkedChar) :
    newlineMarks (a ++ b) = newlineMarks a ++ newlineMarks b := by
  rw [newlineMarks, List.filter_append, List.map_append]
  rfl

/-- In a text with one mark all newlines have that mark. -/
theorem newlineMarks_map (cs : List Char) (mark : Bool) :
    newlineMarks (cs.map (·, mark)) = List.replicate (cs.count '\n') mark := by
  induction cs with
  | nil => rfl
  | cons c cs ih =>
    have hcons : newlineMarks ((c :: cs).map (·, mark)) =
        newlineMarks [(c, mark)] ++ newlineMarks (cs.map (·, mark)) :=
      newlineMarks_append [(c, mark)] _
    rw [hcons, ih]
    by_cases hc : c = '\n'
    · subst hc
      rw [List.count_cons_self, List.replicate_succ]
      rfl
    · have hnone : newlineMarks [(c, mark)] = [] := by simp [newlineMarks, hc]
      rw [hnone, List.count_cons_of_ne hc, List.nil_append]

/-- No newline comes in when a text is moved right. -/
theorem MovedRight.count_newline {cs : List MarkedChar} {out : List Char} (h : MovedRight cs out) :
    out.count '\n' = (cs.map (·.1)).count '\n' := by
  induction h with
  | nil => rfl
  | keep _ ih => rw [List.map_cons, List.count_cons, List.count_cons, ih]
  | @margin blanks out cs hblanks h ih =>
    have hnone : blanks.count '\n' = 0 := List.count_eq_zero.2 fun hmem => by cases hblanks _ hmem
    rw [List.map_cons, List.count_cons_self, List.count_cons_self, List.count_append,
      hnone, Nat.zero_add, ih]

theorem dropEndWhile_eq_self {p : Char → Bool} {cs : List Char} (h : ∀ c ∈ cs, p c = false) :
    dropEndWhile p cs = cs := by
  induction cs with
  | nil => rfl
  | cons c cs ih =>
    obtain ⟨hc, hrest⟩ := List.forall_mem_cons.1 h
    rw [dropEndWhile_cons_eq_ite, ih hrest, if_neg]
    rintro ⟨-, htrue⟩
    rw [hc] at htrue
    cases htrue

namespace Line

/-- A line of a text begins behind a newline and has its mark, but for the first one. -/
theorem exists_ofMarked (isData : Bool) (cs : List MarkedChar) :
    ∃ ls, ofMarked isData cs = ⟨isData, (cs.map (·.1)).takeWhile (· ≠ '\n')⟩ :: ls ∧
      ∀ l ∈ ls, ∃ a b, cs = a ++ ('\n', l.isData) :: b ∧
        l.text = (b.map (·.1)).takeWhile (· ≠ '\n') := by
  induction cs generalizing isData with
  | nil => exact ⟨[], rfl, List.forall_mem_nil _⟩
  | cons x cs ih =>
    obtain ⟨c, mark⟩ := x
    rw [ofMarked]
    split
    next hc =>
      subst hc
      obtain ⟨ls, hlines, hls⟩ := ih mark
      refine ⟨_, rfl, fun l hl => ?_⟩
      rw [hlines] at hl
      rcases List.mem_cons.1 hl with rfl | hl
      · exact ⟨[], cs, rfl, rfl⟩
      · obtain ⟨a, b, hcs, htext⟩ := hls l hl
        exact ⟨_ :: a, b, by rw [hcs, List.cons_append], htext⟩
    next hc =>
      obtain ⟨ls, hlines, hls⟩ := ih isData
      refine ⟨ls, ?_, fun l hl => ?_⟩
      · rw [hlines, push, List.map_cons, List.takeWhile_cons_of_pos (by simpa using hc)]
      · obtain ⟨a, b, hcs, htext⟩ := hls l hl
        exact ⟨_ :: a, b, by rw [hcs, List.cons_append], htext⟩

/-- A line is data if the newline before it is marked. -/
theorem map_isData_ofMarked (isData : Bool) (cs : List MarkedChar) :
    (ofMarked isData cs).map (·.isData) = isData :: newlineMarks cs := by
  induction cs generalizing isData with
  | nil => rfl
  | cons x cs ih =>
    obtain ⟨c, mark⟩ := x
    rw [ofMarked]
    split
    next hc =>
      subst hc
      rw [List.map_cons, ih]
      rfl
    next hc =>
      have hrest := ih isData
      have hmarks : newlineMarks ((c, mark) :: cs) = newlineMarks cs := by simp [newlineMarks, hc]
      rw [hmarks]
      cases hlines : ofMarked isData cs with
      | nil => exact absurd hlines (ofMarked_ne_nil _ _)
      | cons l ls =>
        rw [hlines] at hrest
        exact hrest

/-- A character of a line is one of the lines together. -/
theorem mem_join {l : List Char} {ls : List (List Char)} {c : Char} (hl : l ∈ ls) (hc : c ∈ l) :
    c ∈ join ls := by
  induction ls with
  | nil => cases hl
  | cons l' ls ih =>
    cases ls with
    | nil =>
      obtain rfl := List.mem_singleton.1 hl
      exact hc
    | cons l'' ls =>
      rw [join_cons (List.cons_ne_nil _ _), List.mem_append, List.mem_cons]
      rcases List.mem_cons.1 hl with rfl | hl
      · exact .inl hc
      · exact .inr (.inr (ih hl))

/-- Lines are told by their marks and their texts. -/
theorem eq_of_fields {ls ls' : List Line} (hdata : ls.map (·.isData) = ls'.map (·.isData))
    (htext : ls.map (·.text) = ls'.map (·.text)) : ls = ls' := by
  induction ls generalizing ls' with
  | nil => exact (List.map_eq_nil_iff.1 htext.symm).symm
  | cons l ls ih =>
    cases ls' with
    | nil => cases htext
    | cons l' ls' =>
      obtain ⟨hdata, hdatas⟩ := List.cons.inj hdata
      obtain ⟨htext, htexts⟩ := List.cons.inj htext
      obtain ⟨isData, text⟩ := l
      obtain ⟨isData', text'⟩ := l'
      cases hdata
      cases htext
      rw [ih hdatas htexts]

/-- A line that was moved right is moved back by the length of the margin. -/
theorem dedent_indent {margin : List Char} (hmargin : ∀ c ∈ margin, isMargin c = true) {l : Line}
    (hreturn : '\r' ∉ l.text)
    (hblank : l.isData = false → l.text.all isBlank = true →
      ∀ c ∈ l.text.head?, isMargin c = false) :
    dedent margin.length ⟨l.isData, l.indent margin⟩ = l.text := by
  have htrim {text : List Char} (h : '\r' ∉ text) : dropEndWhile (· == '\r') text = text :=
    dropEndWhile_eq_self fun c hc => beq_eq_false_iff_ne.2 fun hr => h (hr ▸ hc)
  have hplain : '\r' ∉ margin := fun hmem => by cases hmargin _ hmem
  cases hdata : l.isData with
  | true => rw [indent_of_isData margin hdata, dedent, htrim hreturn, if_pos rfl]
  | false =>
    rw [indent, hdata, Bool.false_or]
    split
    next hall =>
      have hnone : l.text.takeWhile isMargin = [] := by
        cases htext : l.text with
        | nil => rfl
        | cons c text =>
          have hc := hblank hdata hall c (by rw [htext]; rfl)
          rw [List.takeWhile_cons, hc]
          rfl
      rw [dedent, htrim hreturn, hnone]
      simp
    next =>
      have hcode : '\r' ∉ margin ++ l.text := by simp [hplain, hreturn]
      have hwidth : margin.length ≤ ((margin ++ l.text).takeWhile isMargin).length := by
        rw [List.takeWhile_append_of_pos hmargin, List.length_append]
        exact Nat.le_add_right _ _
      rw [dedent, htrim hcode]
      simp [Nat.min_eq_left hwidth]

end Line

/-- A text that was moved right with its marks is moved back. -/
theorem dedent_indentLines {margin : List Char} (hmargin : ∀ c ∈ margin, isMargin c = true)
    {cs ds : List MarkedChar} (htext : ds.map (·.1) = indentLines margin cs)
    (hmarks : newlineMarks ds = newlineMarks cs) (hreturn : '\r' ∉ cs.map (·.1))
    (hblank : ∀ l ∈ Line.ofMarked true cs, l.isData = false → l.text.all isBlank = true →
      ∀ c ∈ l.text.head?, isMargin c = false) : dedent margin.length ds = cs.map (·.1) := by
  have hplain : '\n' ∉ margin := fun hmem => by cases hmargin _ hmem
  have hlines : Line.ofMarked true ds = (Line.ofMarked true cs).map fun l =>
      ⟨l.isData, l.indent margin⟩ := by
    apply Line.eq_of_fields
    · rw [Line.map_isData_ofMarked, hmarks, ← Line.map_isData_ofMarked, List.map_map]
      rfl
    · rw [Line.map_text_ofMarked, htext, Line.parts_indentLines hplain, List.map_map]
      rfl
  have hback : ∀ l ∈ Line.ofMarked true cs, Line.dedent margin.length ⟨l.isData, l.indent margin⟩ =
      l.text := by
    intro l hl
    refine Line.dedent_indent hmargin (fun hmem => hreturn ?_) (hblank l hl)
    rw [← Line.join_ofMarked true]
    exact Line.mem_join (List.mem_map_of_mem hl) hmem
  calc dedent margin.length ds
      = Line.join ((Line.ofMarked true cs).map fun l => Line.dedent margin.length
        ⟨l.isData, l.indent margin⟩) := by
        rw [dedent, hlines, List.map_map]
        rfl
    _ = Line.join ((Line.ofMarked true cs).map (·.text)) := by rw [List.map_congr_left hback]
    _ = cs.map (·.1) := Line.join_ofMarked true cs

end ClassEdit
