import ClassEdit.Proofs.Text.MovedLeft

/-!
A text and what becomes of it when it is moved right, character by character: blanks are put behind
newlines that belong to no literal, and nothing else is done. Main statements: `indentLines` does
nothing else, up to the end of a line both texts are the same, and a line that begins inside a
literal is the same line in both.
-/

namespace ClassEdit

/-- The second text is the first one moved right. -/
inductive MovedRight : List MarkedChar → List Char → Prop where
  | nil : MovedRight [] []
  | keep {c : Char} {mark : Bool} {cs : List MarkedChar} {out : List Char} (h : MovedRight cs out) :
      MovedRight ((c, mark) :: cs) (c :: out)
  | margin {blanks out : List Char} {cs : List MarkedChar}
      (hblanks : ∀ c ∈ blanks, isMargin c = true) (h : MovedRight cs out) :
      MovedRight (('\n', false) :: cs) ('\n' :: (blanks ++ out))

namespace Line

theorem join_cons_cons (c : Char) (l : List Char) (ls : List (List Char)) :
    join ((c :: l) :: ls) = c :: join (l :: ls) := by
  cases ls <;> rfl

theorem join_append_cons (l l' : List Char) (ls : List (List Char)) :
    join ((l ++ l') :: ls) = l ++ join (l' :: ls) := by
  induction l with
  | nil => rfl
  | cons c l ih => rw [List.cons_append, join_cons_cons, ih, List.cons_append]

/-- What is cut at a newline is a line that has the mark of the newline. -/
theorem getElem?_ofMarked (isData mark : Bool) (cs ds : List MarkedChar) :
    ∃ l, (ofMarked isData (cs ++ ('\n', mark) :: ds))[(cs.map (·.1)).count '\n' + 1]? = some l ∧
      l.isData = mark := by
  induction cs generalizing isData with
  | nil =>
    obtain ⟨l, ls, hlines⟩ := List.exists_cons_of_ne_nil (ofMarked_ne_nil mark ds)
    refine ⟨l, ?_, isData_of_ofMarked hlines⟩
    rw [List.nil_append, ofMarked, if_pos rfl, hlines]
    rfl
  | cons x cs ih =>
    obtain ⟨c, mark'⟩ := x
    rw [List.cons_append, ofMarked, List.map_cons]
    split
    next hc =>
      obtain ⟨l, hl, hmark⟩ := ih mark'
      refine ⟨l, ?_, hmark⟩
      rw [hc, List.count_cons_self, List.getElem?_cons_succ, hl]
    next hc =>
      obtain ⟨l, hl, hmark⟩ := ih isData
      refine ⟨l, ?_, hmark⟩
      rw [List.count_cons_of_ne hc]
      cases hlines : ofMarked isData (cs ++ ('\n', mark) :: ds) with
      | nil => exact absurd hlines (ofMarked_ne_nil _ _)
      | cons l' ls =>
        rw [hlines] at hl
        exact hl

/-- The lines of a text that was moved right are the lines of the text, each moved right. -/
theorem parts_indentLines {margin : List Char} (hmargin : '\n' ∉ margin) (cs : List MarkedChar) :
    parts '\n' (indentLines margin cs) = (ofMarked true cs).map (indent margin) := by
  refine parts_join (by simp [ofMarked_ne_nil]) ?_
  rintro _ hx
  obtain ⟨l, hl, rfl⟩ := List.mem_map.1 hx
  have htext := not_mem_text_of_mem_ofMarked hl
  unfold indent
  split
  next => exact htext
  next => simp [hmargin, htext]

/-- A line that begins inside a literal is not moved. -/
theorem getElem?_parts_indentLines {margin : List Char} (hmargin : '\n' ∉ margin)
    (cs ds : List MarkedChar) :
    ∃ line, (parts '\n' ((cs ++ ('\n', true) :: ds).map (·.1)))[(cs.map (·.1)).count '\n' + 1]? =
      some line ∧
      (parts '\n' (indentLines margin (cs ++ ('\n', true) :: ds)))[(cs.map (·.1)).count '\n' + 1]? =
        some line := by
  obtain ⟨l, hl, hdata⟩ := getElem?_ofMarked true true cs ds
  refine ⟨l.text, ?_, ?_⟩
  · rw [← map_text_ofMarked true, List.getElem?_map, hl]
    rfl
  · rw [parts_indentLines hmargin, List.getElem?_map, hl, Option.map_some,
      indent_of_isData margin hdata]

end Line

namespace MovedRight

variable {out : List Char} {cs ds : List MarkedChar}

/-- To put a margin before every line but the first and those in literals is to move a text
right. -/
theorem of_lines {margin : List Char} (hmargin : ∀ c ∈ margin, isMargin c = true)
    (isData : Bool) {l : Line} {ls : List Line} (h : Line.ofMarked isData cs = l :: ls) :
    MovedRight cs (Line.join (l.text :: ls.map (Line.indent margin))) := by
  induction cs generalizing isData l ls with
  | nil =>
    cases h
    exact .nil
  | cons x r ih =>
    obtain ⟨c, mark⟩ := x
    unfold Line.ofMarked at h
    split at h
    next hc =>
      obtain ⟨l', ls', hr⟩ := List.exists_cons_of_ne_nil (Line.ofMarked_ne_nil mark r)
      have hrest := ih mark hr
      have hdata := Line.isData_of_ofMarked hr
      rw [hr] at h
      cases h
      rw [hc, List.map_cons, Line.join_cons (List.cons_ne_nil _ _), List.nil_append, Line.indent]
      split
      next => exact .keep hrest
      next hline =>
        rw [Bool.not_eq_true, Bool.or_eq_false_iff, hdata] at hline
        rw [hline.1, Line.join_append_cons]
        exact .margin hmargin hrest
    next =>
      obtain ⟨l', ls', hr⟩ := List.exists_cons_of_ne_nil (Line.ofMarked_ne_nil isData r)
      have hrest := ih isData hr
      rw [hr] at h
      cases h
      rw [Line.join_cons_cons]
      exact .keep hrest

/-- What is moved right gains nothing but blanks at the beginning of lines. -/
theorem indentLines {margin : List Char} (hmargin : ∀ c ∈ margin, isMargin c = true)
    (cs : List MarkedChar) :
    MovedRight cs (ClassEdit.indentLines margin cs) := by
  obtain ⟨l, ls, h⟩ := List.exists_cons_of_ne_nil (Line.ofMarked_ne_nil true cs)
  have hfirst := Line.indent_of_isData margin (Line.isData_of_ofMarked h)
  rw [ClassEdit.indentLines, h, List.map_cons, hfirst]
  exact of_lines hmargin true h

theorem append {out' : List Char} (h : MovedRight cs out) (h' : MovedRight ds out') :
    MovedRight (cs ++ ds) (out ++ out') := by
  induction h with
  | nil => exact h'
  | keep _ ih => exact .keep ih
  | margin hblanks _ ih =>
    rw [List.cons_append, List.cons_append, List.append_assoc]
    exact .margin hblanks ih

/-- Two texts are moved right one by one. -/
theorem of_append (h : MovedRight (cs ++ ds) out) :
    ∃ left right, out = left ++ right ∧ MovedRight cs left ∧ MovedRight ds right := by
  induction cs generalizing out with
  | nil => exact ⟨[], out, rfl, .nil, h⟩
  | cons x cs ih =>
    rw [List.cons_append] at h
    cases h with
    | keep h =>
      obtain ⟨left, right, rfl, hleft, hright⟩ := ih h
      exact ⟨_ :: left, right, rfl, .keep hleft, hright⟩
    | margin hblanks h =>
      obtain ⟨left, right, rfl, hleft, hright⟩ := ih h
      exact ⟨'\n' :: (_ ++ left), right, by simp, .margin hblanks hleft, hright⟩

theorem head?_eq (h : MovedRight cs out) : out.head? = (cs.map (·.1)).head? := by
  cases h <;> rfl

/-- Up to the end of a line both texts are the same. -/
theorem sameLine (h : MovedRight cs out) :
    ∃ line e e', cs.map (·.1) = line ++ e ∧ out = line ++ e' ∧ AtLineEnd e ∧ AtLineEnd e' ∧
      (e = [] → e' = []) := by
  have hnil : AtLineEnd [] := by simp [AtLineEnd]
  have hnewline (r : List Char) : AtLineEnd ('\n' :: r) := fun c hc => (Option.some.inj hc).symm
  induction h with
  | nil => exact ⟨[], [], [], rfl, rfl, hnil, hnil, fun _ => rfl⟩
  | @keep c _ _ _ _ ih =>
    obtain ⟨line, e, e', hcs, rfl, hends⟩ := ih
    exact ⟨c :: line, e, e', by rw [List.map_cons, hcs]; rfl, rfl, hends⟩
  | margin =>
      exact ⟨[], _, _, rfl, rfl, hnewline _, hnewline _, fun h => absurd h (List.cons_ne_nil _ _)⟩

/-- A literal keeps all its lines. -/
theorem eq_of_literal {t : List Char} (h : MovedRight (t.map (·, true)) out) : out = t := by
  induction t generalizing out with
  | nil =>
    cases h
    rfl
  | cons c t ih =>
    rw [List.map_cons] at h
    cases h with
    | keep h => rw [ih h]

/-- A text on one line is not moved. -/
theorem eq_of_not_mem {t : List Char} {mark : Bool} (h : MovedRight (t.map (·, mark)) out)
    (ht : '\n' ∉ t) :
    out = t := by
  induction t generalizing out with
  | nil =>
    cases h
    rfl
  | cons c t ih =>
    rw [List.mem_cons, not_or] at ht
    rw [List.map_cons] at h
    cases h with
    | keep h => rw [ih h ht.2]
    | margin => exact absurd rfl ht.1

theorem isBlank (h : MovedRight cs out) (hcs : ∀ c ∈ cs.map (·.1), isBlank c = true) :
    ∀ c ∈ out, ClassEdit.isBlank c = true := by
  induction h with
  | nil => exact List.forall_mem_nil _
  | keep _ ih =>
    obtain ⟨hc, hrest⟩ := List.forall_mem_cons.1 hcs
    exact List.forall_mem_cons.2 ⟨hc, ih hrest⟩
  | margin hblanks _ ih =>
    obtain ⟨hc, hrest⟩ := List.forall_mem_cons.1 hcs
    refine List.forall_mem_cons.2 ⟨hc, fun c hc => ?_⟩
    rcases List.mem_append.1 hc with hc | hc
    · exact isBlank_of_isMargin (hblanks c hc)
    · exact ih hrest c hc

end MovedRight

end ClassEdit
