import ClassEdit.Text.Lines
import ClassEdit.Text.Parts

/-!
A text and what is left of it when it is moved left, character by character: only blanks at the
beginning of a line and carriage returns at its end are dropped. Main statements: `dedent`
drops nothing else, up to the end of a line both texts are the same, and a text that was moved
left is not moved again.
-/

namespace ClassEdit

def AtLineEnd (cs : List Char) : Prop :=
  ∀ c ∈ cs.head?, c = '\n'

def AtBreak (cs : List Char) : Prop :=
  ∀ c ∈ cs.head?, c = '\r' ∨ c = '\n'

theorem AtLineEnd.atBreak {cs : List Char} (h : AtLineEnd cs) : AtBreak cs :=
  fun c hc => .inr (h c hc)

theorem AtBreak.append {cs : List Char} (h : AtBreak cs) (hne : cs ≠ []) (ds : List Char) :
    AtBreak (cs ++ ds) := by
  cases cs with
  | nil => exact absurd rfl hne
  | cons c r => exact h

/-- The second text is the first one moved left, where `follow` comes behind it. The flags say
whether blanks that come next begin a line, before and behind. -/
inductive MovedLeft (follow : List Char) : Bool → List MarkedChar → List Char → Bool → Prop where
  | nil (b : Bool) : MovedLeft follow b [] [] b
  | keep {b b' : Bool} {c : Char} {mark : Bool} {cs : List MarkedChar}
      {out : List Char} (hc : c ≠ '\n') (h : MovedLeft follow false cs out b') : MovedLeft follow b
      ((c, mark) :: cs) (c :: out) b'
  | newline {b b' b'' : Bool} {mark : Bool} {cs : List MarkedChar} {out : List Char}
      (hb : b'' = true → mark = false) (h : MovedLeft follow b'' cs out b') :
      MovedLeft follow b (('\n', mark) :: cs) ('\n' :: out) b'
  | margin {b' b'' : Bool} {c : Char} {mark : Bool} {cs : List MarkedChar} {out : List Char}
      (hc : isMargin c = true) (h : MovedLeft follow b'' cs out b') : MovedLeft follow true
      ((c, mark) :: cs) out b'
  | trim {b b' : Bool} {mark : Bool} {cs : List MarkedChar} {out : List Char}
      (hend : AtLineEnd (out ++ follow)) (h : MovedLeft follow b cs out b') : MovedLeft follow b
      (('\r', mark) :: cs) out b'

theorem dropEndWhile_cons_eq_ite (p : Char → Bool) (c : Char) (cs : List Char) :
    dropEndWhile p (c :: cs) =
      if dropEndWhile p cs = [] ∧ p c = true then [] else c :: dropEndWhile p cs := by
  simp only [dropEndWhile, List.reverse_cons, List.dropWhile_append, List.reverse_eq_nil_iff]
  cases hcs : List.dropWhile p cs.reverse with
  | nil => cases hc : p c <;> simp [hc]
  | cons d ds => simp

namespace Line

/-- The first line of a text is data if the text is told so. -/
theorem isData_of_ofMarked {isData : Bool} {cs : List MarkedChar} {l : Line} {ls : List Line}
    (h : ofMarked isData cs = l :: ls) : l.isData = isData := by
  induction cs generalizing l ls with
  | nil =>
    cases h
    rfl
  | cons x r ih =>
    obtain ⟨c, mark⟩ := x
    unfold ofMarked at h
    split at h
    next =>
      cases h
      rfl
    next =>
      obtain ⟨l', ls', hr⟩ := List.exists_cons_of_ne_nil (ofMarked_ne_nil isData r)
      rw [hr] at h
      cases h
      have hl := ih hr
      exact hl

/-- A line with one more character: it is a carriage return of the end, or it is kept, or it is
a blank of the margin. -/
theorem dedent_cons (width : Nat) (isData : Bool) (c : Char) (text : List Char) :
    (c = '\r' ∧ dedent width ⟨isData, c :: text⟩ = [] ∧ dedent width ⟨isData, text⟩ = []) ∨
      dedent width ⟨isData, c :: text⟩ = c :: dedent 0 ⟨isData, text⟩ ∨
      (isMargin c = true ∧ (0 < width && !isData) = true ∧
        dedent width ⟨isData, c :: text⟩ = dedent (width - 1) ⟨isData, text⟩) := by
  unfold dedent
  simp only [dropEndWhile_cons_eq_ite, beq_iff_eq]
  by_cases hend : dropEndWhile (· == '\r') text = [] ∧ c = '\r'
  · rw [if_pos hend, hend.1]
    exact .inl ⟨hend.2, by simp, by simp⟩
  · rw [if_neg hend]
    cases isData with
    | true => exact .inr (.inl (by simp))
    | false =>
      cases width with
      | zero => exact .inr (.inl (by simp))
      | succ width =>
        cases hc : isMargin c with
        | true => exact .inr (.inr ⟨rfl, rfl, by simp [hc, Nat.add_min_add_right]⟩)
        | false => exact .inr (.inl (by simp [hc]))

end Line

namespace MovedLeft

variable {follow out : List Char} {b b' : Bool} {cs : List MarkedChar}

/-- Of a line, the first `k` blanks can be dropped, of the lines behind it the first `width`. -/
theorem of_dedent (hfollow : AtLineEnd follow) (width k : Nat) (isData : Bool)
    {l : Line} {ls : List Line} (h : Line.ofMarked isData cs = l :: ls) :
    ∃ b', MovedLeft follow (0 < k && !isData) cs
      (Line.join (l.dedent k :: ls.map (Line.dedent width))) b' := by
  induction cs generalizing isData k l ls with
  | nil =>
    cases h
    refine ⟨0 < k && !isData, ?_⟩
    have hempty : Line.dedent k ⟨isData, []⟩ = [] := by simp [Line.dedent, dropEndWhile]
    rw [hempty]
    exact .nil _
  | cons x r ih =>
    obtain ⟨c, mark⟩ := x
    by_cases hc : c = '\n'
    · subst hc
      rw [Line.ofMarked, if_pos rfl] at h
      obtain ⟨l', ls', hr⟩ := List.exists_cons_of_ne_nil (Line.ofMarked_ne_nil mark r)
      rw [hr] at h
      cases h
      obtain ⟨b', hmoved⟩ := ih width mark hr
      have hempty : Line.dedent k ⟨isData, []⟩ = [] := by simp [Line.dedent, dropEndWhile]
      rw [hempty]
      refine ⟨b', .newline (fun hb => ?_) hmoved⟩
      simpa using (Bool.and_eq_true_iff.1 hb).2
    · rw [Line.ofMarked, if_neg hc] at h
      obtain ⟨⟨isData', text⟩, ls', hr⟩ :=
        List.exists_cons_of_ne_nil (Line.ofMarked_ne_nil isData r)
      obtain rfl : isData' = isData := Line.isData_of_ofMarked hr
      rw [hr] at h
      cases h
      have hjoin (x y : List Char) (ys : List (List Char)) (h : x = c :: y) :
          Line.join (x :: ys) = c :: Line.join (y :: ys) := by
        subst h
        cases ys <;> rfl
      rcases Line.dedent_cons k isData' c text
        with ⟨rfl, hcons, htext⟩ | hcons | ⟨hmargin, hstate, hcons⟩
      · obtain ⟨b', hmoved⟩ := ih k isData' hr
        rw [htext] at hmoved
        rw [hcons]
        refine ⟨b', .trim ?_ hmoved⟩
        cases ls with
        | nil => exact hfollow
        | cons l ls => simp [AtLineEnd, Line.join]
      · obtain ⟨b', hmoved⟩ := ih 0 isData' hr
        rw [hjoin _ _ _ hcons]
        exact ⟨b', .keep hc hmoved⟩
      · obtain ⟨b', hmoved⟩ := ih (k - 1) isData' hr
        rw [hcons, hstate]
        exact ⟨b', .margin hmargin hmoved⟩

/-- What is moved left loses only blanks at the beginning of lines and carriage returns at their
ends. -/
theorem dedent (hfollow : AtLineEnd follow) (width : Nat) (cs : List MarkedChar) :
    ∃ b, MovedLeft follow false cs (ClassEdit.dedent width cs) b := by
  obtain ⟨l, ls, h⟩ := List.exists_cons_of_ne_nil (Line.ofMarked_ne_nil true cs)
  have hmoved := of_dedent hfollow width width true h
  rw [Bool.not_true, Bool.and_false] at hmoved
  rw [ClassEdit.dedent, h]
  exact hmoved

theorem sublist (h : MovedLeft follow b cs out b') : out.Sublist (cs.map (·.1)) := by
  induction h with
  | nil => exact List.Sublist.refl _
  | keep _ _ ih => exact ih.cons_cons _
  | newline _ _ ih => exact ih.cons_cons _
  | margin _ _ ih => exact ih.cons _
  | trim _ _ ih => exact ih.cons _

/-- Two texts are moved left together. -/
theorem of_append {ds : List MarkedChar} (h : MovedLeft follow b (cs ++ ds) out b') :
    ∃ left right mid, out = left ++ right ∧ MovedLeft (right ++ follow) b cs left mid ∧
      MovedLeft follow mid ds right b' := by
  induction cs generalizing b out with
  | nil => exact ⟨[], out, b, rfl, .nil b, h⟩
  | cons x cs ih =>
    rw [List.cons_append] at h
    cases h with
    | keep hc h =>
      obtain ⟨left, right, mid, rfl, hleft, hright⟩ := ih h
      exact ⟨_ :: left, right, mid, rfl, .keep hc hleft, hright⟩
    | newline hb h =>
      obtain ⟨left, right, mid, rfl, hleft, hright⟩ := ih h
      exact ⟨_ :: left, right, mid, rfl, .newline hb hleft, hright⟩
    | margin hc h =>
      obtain ⟨left, right, mid, rfl, hleft, hright⟩ := ih h
      exact ⟨left, right, mid, rfl, .margin hc hleft, hright⟩
    | trim hend h =>
      obtain ⟨left, right, mid, rfl, hleft, hright⟩ := ih h
      rw [List.append_assoc] at hend
      exact ⟨left, right, mid, rfl, .trim hend hleft, hright⟩

/-- What is no white space is kept, and blanks behind it do not begin a line. -/
theorem of_cons {c : Char} {mark : Bool} (h : MovedLeft follow b ((c, mark) :: cs) out b')
    (hc : isBlank c = false) :
    ∃ out', out = c :: out' ∧ MovedLeft follow false cs out' b' := by
  cases h with
  | keep _ h => exact ⟨_, rfl, h⟩
  | newline => cases hc
  | margin hmargin => rw [isBlank_of_isMargin hmargin] at hc; cases hc
  | trim => cases hc

/-- Inside of a literal a character is kept, or it is a carriage return at the end of a line. -/
theorem of_literal {c : Char} (h : MovedLeft follow false ((c, true) :: cs) out b') :
    (∃ out', out = c :: out' ∧ MovedLeft follow false cs out' b') ∨
      (c = '\r' ∧ AtLineEnd (out ++ follow) ∧ MovedLeft follow false cs out b') := by
  cases h with
  | keep _ h => exact .inl ⟨_, rfl, h⟩
  | @newline _ _ b'' _ _ _ hb h =>
    cases b'' with
    | false => exact .inl ⟨_, rfl, h⟩
    | true => cases hb rfl
  | trim hend h => exact .inr ⟨rfl, hend, h⟩

/-- A text without line breaks is not moved. -/
theorem eq_of_plain {t : List Char} {mark : Bool}
    (h : MovedLeft follow false (t.map (·, mark)) out b') (ht : ∀ c ∈ t, c ≠ '\r' ∧ c ≠ '\n') :
    out = t ∧ b' = false := by
  induction t generalizing out with
  | nil =>
    cases h
    exact ⟨rfl, rfl⟩
  | cons c t ih =>
    obtain ⟨hc, hrest⟩ := List.forall_mem_cons.1 ht
    rw [List.map_cons] at h
    cases h with
    | keep _ h =>
      obtain ⟨rfl, hb⟩ := ih h hrest
      exact ⟨rfl, hb⟩
    | newline => exact absurd rfl hc.2
    | trim => exact absurd rfl hc.1

/-- A text keeps its newlines when it is moved. -/
theorem mem_newline_iff (h : MovedLeft follow b cs out b') : '\n' ∈ out ↔ '\n' ∈ cs.map (·.1) := by
  induction h with
  | nil => rfl
  | keep hc _ ih => simp [ih, Ne.symm hc]
  | newline => simp
  | @margin _ _ c _ _ _ hc _ ih =>
    have hne : c ≠ '\n' := by
      rintro rfl
      cases hc
    simp [ih, Ne.symm hne]
  | trim _ _ ih => simp [ih]

section State

/-- Behind what is no white space no line begins. -/
theorem state_of_last {c : Char} {mark : Bool} (h : MovedLeft follow b (cs ++ [(c, mark)]) out b')
    (hc : isBlank c = false) : b' = false := by
  obtain ⟨_, _, _, -, -, hlast⟩ := h.of_append
  obtain ⟨_, -, hnil⟩ := hlast.of_cons hc
  cases hnil
  rfl

theorem state_of_not_mem {t : List Char} {mark : Bool}
    (h : MovedLeft follow false (t.map (·, mark)) out b') (ht : '\n' ∉ t) : b' = false := by
  induction t generalizing out with
  | nil =>
    cases h
    rfl
  | cons c t ih =>
    rw [List.mem_cons, not_or] at ht
    rw [List.map_cons] at h
    cases h with
    | keep _ h => exact ih h ht.2
    | newline => exact absurd rfl ht.1
    | trim _ h => exact ih h ht.2

/-- The lines that begin inside a literal keep their blanks. -/
theorem state_of_literal {t : List Char} (h : MovedLeft follow false (t.map (·, true)) out b') :
    b' = false := by
  induction t generalizing out with
  | nil =>
    cases h
    rfl
  | cons c t ih =>
    rcases h.of_literal with ⟨out, -, h⟩ | ⟨-, -, h⟩
    · exact ih h
    · exact ih h

end State

/-- Up to the end of a line both texts are the same. -/
theorem sameLine (h : MovedLeft follow false cs out b') :
    ∃ line e e', cs.map (·.1) = line ++ e ∧ out = line ++ e' ∧ '\n' ∉ line ∧ AtBreak e ∧
      (e = [] → e' = []) ∧ (e ≠ [] → AtLineEnd (e' ++ follow)) := by
  induction cs generalizing out with
  | nil =>
    cases h
    exact ⟨[], [], [], rfl, rfl,
      List.not_mem_nil, by simp [AtBreak], fun _ => rfl, fun hne => absurd rfl hne⟩
  | cons x cs ih =>
    cases h with
    | @keep _ _ c _ _ _ hc h =>
      obtain ⟨line, e, e', hcs, rfl, hline, hbreak, hnil, hend⟩ := ih h
      refine ⟨c :: line, e, e', by rw [List.map_cons, hcs]; rfl, rfl, ?_, hbreak, hnil, hend⟩
      simp [hline, Ne.symm hc]
    | @newline _ _ _ mark _ out =>
      refine ⟨[], _, '\n' :: out, rfl, rfl, List.not_mem_nil, ?_, fun h =>
        absurd h (List.cons_ne_nil _ _), fun _ => ?_⟩
      · simp [AtBreak]
      · simp [AtLineEnd]
    | trim hend =>
      refine ⟨[], _, out, rfl, rfl, List.not_mem_nil, ?_, fun h => absurd h (List.cons_ne_nil _ _),
        fun _ => hend⟩
      simp [AtBreak]

end MovedLeft

section Twice

theorem parts_of_not_mem {sep : Char} {cs : List Char} (h : sep ∉ cs) : parts sep cs = [cs] := by
  induction cs with
  | nil => rfl
  | cons c r ih =>
    rw [List.mem_cons, not_or] at h
    rw [parts, if_neg (Ne.symm h.1), ih h.2]
    rfl

theorem parts_append_cons {sep : Char} {cs : List Char} (h : sep ∉ cs) (r : List Char) :
    parts sep (cs ++ sep :: r) = cs :: parts sep r := by
  induction cs with
  | nil => rw [List.nil_append, parts, if_pos rfl]
  | cons c cs ih =>
    rw [List.mem_cons, not_or] at h
    rw [List.cons_append, parts, if_neg (Ne.symm h.1), ih h.2]
    rfl

namespace Line

/-- Lines that were put together are cut apart again. -/
theorem parts_join {ls : List (List Char)} (hne : ls ≠ []) (h : ∀ l ∈ ls, '\n' ∉ l) :
    parts '\n' (join ls) = ls := by
  induction ls with
  | nil => exact absurd rfl hne
  | cons l ls ih =>
    obtain ⟨hl, hls⟩ := List.forall_mem_cons.1 h
    cases ls with
    | nil => exact parts_of_not_mem hl
    | cons l' ls =>
        rw [join_cons (List.cons_ne_nil _ _), parts_append_cons hl, ih (List.cons_ne_nil _ _) hls]

/-- The lines of a text are its parts between newlines, whatever is marked. -/
theorem map_text_ofMarked (isData : Bool) (cs : List MarkedChar) :
    (ofMarked isData cs).map (·.text) = parts '\n' (cs.map (·.1)) := by
  induction cs generalizing isData with
  | nil => rfl
  | cons x r ih =>
    obtain ⟨c, mark⟩ := x
    rw [ofMarked, List.map_cons, parts]
    split
    next => rw [List.map_cons, ih]
    next =>
      rw [← ih isData]
      cases hr : ofMarked isData r with
      | nil => exact absurd hr (ofMarked_ne_nil isData r)
      | cons l ls => rfl

/-- No line of a text holds a newline. -/
theorem not_mem_text_of_mem_ofMarked {isData : Bool} {cs : List MarkedChar} {l : Line}
    (h : l ∈ ofMarked isData cs) :
    '\n' ∉ l.text := by
  have hparts (ds : List Char) : ∀ p ∈ parts '\n' ds, '\n' ∉ p := by
    induction ds with
    | nil => simp [parts]
    | cons c r ih =>
      unfold parts
      split
      next => exact List.forall_mem_cons.2 ⟨List.not_mem_nil, ih⟩
      next hc =>
        obtain ⟨p, ps, hr⟩ := List.exists_cons_of_ne_nil (parts_ne_nil '\n' r)
        rw [hr] at ih ⊢
        obtain ⟨hp, hps⟩ := List.forall_mem_cons.1 ih
        exact List.forall_mem_cons.2 ⟨by simp [hp, Ne.symm hc], hps⟩
  have hmem := List.mem_map_of_mem (f := (·.text)) h
  rw [map_text_ofMarked] at hmem
  exact hparts _ _ hmem

/-- A line that is moved left does not end with a carriage return. -/
theorem getLast?_dedent (width : Nat) (l : Line) : (l.dedent width).getLast? ≠ some '\r' := by
  have htrim : (dropEndWhile (· == '\r') l.text).getLast? ≠ some '\r' := by
    intro h
    have hnot := List.head?_dropWhile_not (· == '\r') l.text.reverse
    rw [dropEndWhile, List.getLast?_reverse] at h
    rw [h] at hnot
    cases hnot
  unfold dedent
  dsimp only
  split
  next => exact htrim
  next =>
    rw [List.getLast?_drop]
    split
    next => exact (Option.some_ne_none _).symm
    next => exact htrim

/-- A line that was moved left has no carriage return at its end. -/
theorem dedent_dedent (width : Nat) (isData : Bool) (l : Line) :
    dedent 0 ⟨isData, l.dedent width⟩ = l.dedent width := by
  have hlast := getLast?_dedent width l
  generalize l.dedent width = text at hlast
  have hself : dropEndWhile (· == '\r') text = text := by
    have hhead : text.reverse.dropWhile (· == '\r') = text.reverse := by
      rw [List.getLast?_eq_head?_reverse] at hlast
      cases hr : text.reverse with
      | nil => rfl
      | cons c r =>
        rw [hr, List.head?_cons, ne_eq, Option.some.injEq] at hlast
        rw [List.dropWhile_cons_of_neg (by simpa using hlast)]
    rw [dropEndWhile, hhead, List.reverse_reverse]
  simp [dedent, hself]

theorem not_mem_dedent (width : Nat) {l : Line} (h : '\n' ∉ l.text) : '\n' ∉ l.dedent width := by
  have htrim : dropEndWhile (· == '\r') l.text <+: l.text := ⟨_, dropEndWhile_append _ _⟩
  unfold dedent
  dsimp only
  split
  next => exact fun hmem => h (htrim.subset hmem)
  next => exact fun hmem => h (htrim.subset (List.mem_of_mem_drop hmem))

end Line

/-- What was moved left is not moved by less. -/
theorem dedent_dedent {width : Nat} {cs ds : List MarkedChar} (h : ds.map (·.1) = dedent width cs) :
    dedent 0 ds = dedent width cs := by
  have hlines : (Line.ofMarked true ds).map (·.text) = (Line.ofMarked true cs).map
      (Line.dedent width) := by
    rw [Line.map_text_ofMarked, h, dedent, Line.parts_join]
    · simp [Line.ofMarked_ne_nil]
    · rintro _ hx
      obtain ⟨l, hl, rfl⟩ := List.mem_map.1 hx
      exact Line.not_mem_dedent width (Line.not_mem_text_of_mem_ofMarked hl)
  have hzero (l : Line) : l.dedent 0 = Line.dedent 0 ⟨true, l.text⟩ := by
    simp [Line.dedent]
  have hline (l : Line) : Line.dedent 0 ⟨true, l.dedent width⟩ = l.dedent width :=
    Line.dedent_dedent width true l
  calc dedent 0 ds
      = Line.join (((Line.ofMarked true ds).map (·.text)).map fun text => Line.dedent 0
        ⟨true, text⟩) := by
        rw [dedent, List.map_map, funext hzero]
        rfl
    _ = dedent width cs := by
        rw [hlines, List.map_map, dedent]
        congr 2
        exact funext hline

end Twice

end ClassEdit
