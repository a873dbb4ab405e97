import ClassEdit.Proofs.Text.LineEnding
import ClassEdit.Text.Lines

/-!
Texts with a carriage return before each newline. Such a text has the same lines as the one without,
so what looks for words, counts lines or moves lines comes to the same on both. Main statements:
normalizing gives the text without the carriage returns back, and so does moving it left.
-/

namespace ClassEdit

namespace LineEnding

/-- The text with a carriage return before each newline. -/
def widen (cs : List Char) : List Char := replaceWith ['\r', '\n'] cs

@[simp] theorem widen_nil : widen [] = [] := rfl

@[simp] theorem widen_newline (r : List Char) : widen ('\n' :: r) = '\r' :: '\n' :: widen r := rfl

theorem widen_cons {c : Char} (h : c ≠ '\n') (r : List Char) : widen (c :: r) = c :: widen r := by
  simp [widen, replaceWith, h]

theorem widen_append (a b : List Char) : widen (a ++ b) = widen a ++ widen b :=
  replaceWith_append _ a b

theorem widen_eq_self {cs : List Char} (h : '\n' ∉ cs) : widen cs = cs := by
  induction cs with
  | nil => rfl
  | cons c r ih =>
      rw [List.mem_cons, not_or] at h
      rw [widen_cons (Ne.symm h.1), ih h.2]

/-- What the wider text begins with, apart from a carriage return, the other one begins with. -/
theorem eq_cons_of_widen {c : Char} (hc : c ≠ '\r') {cs t : List Char} (h : widen cs = c :: t) :
    ∃ r, cs = c :: r ∧ t = widen r := by
  cases cs with
  | nil => cases h
  | cons d r =>
      by_cases hd : d = '\n'
      · subst hd
        exact absurd (List.cons.inj h).1.symm hc
      · rw [widen_cons hd] at h
        obtain ⟨rfl, rfl⟩ := List.cons.inj h
        exact ⟨r, rfl, rfl⟩

theorem mem_widen {c : Char} (hc : c ≠ '\r') {cs : List Char} : c ∈ widen cs ↔ c ∈ cs := by
  induction cs with
  | nil => rfl
  | cons d r ih =>
      by_cases hd : d = '\n'
      · subst hd
        simp [hc, ih]
      · simp [widen_cons hd, ih]

theorem count_newline_widen (cs : List Char) : (widen cs).count '\n' = cs.count '\n' := by
  induction cs with
  | nil => rfl
  | cons c r ih =>
      by_cases hc : c = '\n'
      · subst hc
        simp [ih]
      · simp [widen_cons hc, List.count_cons, ih]

theorem widen_take_drop (n : Nat) (cs : List Char) :
    widen cs = widen (cs.take n) ++ widen (cs.drop n) := by
  rw [← widen_append, List.take_append_drop]

theorem take_widen (n : Nat) (cs : List Char) :
    (widen cs).take (widen (cs.take n)).length = widen (cs.take n) := by
  rw [widen_take_drop n cs, List.take_left']
  rfl

theorem drop_widen (n : Nat) (cs : List Char) :
    (widen cs).drop (widen (cs.take n)).length = widen (cs.drop n) := by
  rw [widen_take_drop n cs, List.drop_left']
  rfl

/-- A test that does not tell the two line endings apart finds the same text. -/
theorem takeWhile_widen {p : Char → Bool} (h : p '\r' = p '\n') (cs : List Char) :
    (widen cs).takeWhile p = widen (cs.takeWhile p) := by
  induction cs with
  | nil => rfl
  | cons c r ih =>
      by_cases hc : c = '\n'
      · subst hc
        cases hp : p '\n' <;> simp [h, hp, ih]
      · cases hp : p c <;> simp [widen_cons hc, hp, ih]

theorem head?_widen {β : Type} {g : Option Char → β} (h : g (some '\r') = g (some '\n'))
    (cs : List Char) :
    g (widen cs).head? = g cs.head? := by
  cases cs with
  | nil => rfl
  | cons c r =>
      by_cases hc : c = '\n'
      · subst hc
        exact h
      · rw [widen_cons hc]
        rfl

/-- A word that stands on one line begins both texts or neither. -/
theorem isPrefixOf_widen {w : List Char} (h : ∀ c ∈ w, c ≠ '\r' ∧ c ≠ '\n') (cs : List Char) :
    w.isPrefixOf (widen cs) = w.isPrefixOf cs := by
  induction w generalizing cs with
  | nil => simp
  | cons d w ih =>
      obtain ⟨hd, hw⟩ := List.forall_mem_cons.1 h
      cases cs with
      | nil => rfl
      | cons c r =>
          by_cases hc : c = '\n'
          · subst hc
            simp [List.isPrefixOf, beq_eq_false_iff_ne.2 hd.1, beq_eq_false_iff_ne.2 hd.2]
          · simp [List.isPrefixOf, widen_cons hc, ih hw]

/-- The carriage returns are taken away again, whatever follows. -/
theorem normalize_widen {cs : List Char} (h : '\r' ∉ cs) (s : List Char) :
    normalize (widen cs ++ s) = cs ++ normalize s := by
  induction cs with
  | nil => rfl
  | cons c r ih =>
      rw [List.mem_cons, not_or] at h
      by_cases hc : c = '\n'
      · subst hc
        simp [normalize, ih h.2]
      · rw [widen_cons hc, List.cons_append, normalize_cons (fun e => absurd e.symm h.1), ih h.2]
        rfl

/-- A widened text has as many pairs as the text has newlines. -/
theorem countPairs_widen {cs : List Char} (h : '\r' ∉ cs) :
    countPairs (widen cs) = cs.count '\n' := by
  induction cs with
  | nil => rfl
  | cons c r ih =>
      rw [List.mem_cons, not_or] at h
      by_cases hc : c = '\n'
      · subst hc
        simp [countPairs, ih h.2]
      · rw [widen_cons hc, countPairs, ih h.2, List.count_cons_of_ne hc]
        intro r' e
        exact absurd e (Ne.symm h.1)

theorem countPairs_of_not_mem {cs : List Char} (h : '\r' ∉ cs) : countPairs cs = 0 := by
  induction cs with
  | nil => rfl
  | cons c r ih =>
      rw [List.mem_cons, not_or] at h
      rw [countPairs, ih h.2]
      intro r' e
      exact absurd e (Ne.symm h.1)

theorem dominant_of_not_mem {s : String} (h : '\r' ∉ s.toList) : dominant s = "\n" := by
  simp [dominant, countPairs_of_not_mem h]

theorem dominant_widen {s : String} (h : '\r' ∉ s.toList) (hn : '\n' ∈ s.toList) :
    dominant (String.ofList (widen s.toList)) = "\r\n" := by
  have hpos : 0 < s.toList.count '\n' := List.count_pos_iff.2 hn
  simp only [dominant, String.toList_ofList, countPairs_widen h, count_newline_widen]
  rw [if_pos (by omega)]

end LineEnding

open LineEnding (widen)

/-- The text with a carriage return before each newline. What has carriage returns already does not
stand in a source with newlines alone and stays as it is. -/
def widenText (s : String) : String :=
  if '\r' ∈ s.toList then s else String.ofList (widen s.toList)

theorem widenText_of_clean {cs : List Char} (h : '\r' ∉ cs) :
    widenText (String.ofList cs) = String.ofList (widen cs) := by
  rw [widenText, String.toList_ofList, if_neg h]

def pending (cut : Bool) : List Char := if cut then ['\r'] else []

/-- The marked text with a carriage return before each newline, under its mark. -/
def widenMarked (cs : List MarkedChar) : List MarkedChar :=
  cs.flatMap fun c => if c.1 = '\n' then [('\r', c.2), c] else [c]

theorem widenMarked_append (a b : List MarkedChar) :
    widenMarked (a ++ b) = widenMarked a ++ widenMarked b :=
  List.flatMap_append

theorem widenMarked_map (mark : Bool) (cs : List Char) :
    widenMarked (cs.map fun c => (c, mark)) = (widen cs).map fun c => (c, mark) := by
  induction cs with
  | nil => rfl
  | cons c r ih =>
      simp only [widenMarked, List.map_cons, List.flatMap_cons] at ih ⊢
      by_cases hc : c = '\n'
      · subst hc
        simp [ih]
      · simp [LineEnding.widen_cons hc, hc, ih]

namespace Line

def trimmed (l : Line) : Line := { l with text := dropEndWhile (· == '\r') l.text }

theorem dropEndWhile_cons {c : Char} (hc : c ≠ '\r') (cs : List Char) :
    dropEndWhile (· == '\r') (c :: cs) = c :: dropEndWhile (· == '\r') cs := by
  simp only [dropEndWhile, List.reverse_cons, List.dropWhile_append]
  split
  next h => simp [List.isEmpty_iff.1 h, hc]
  next => rw [List.reverse_append, List.reverse_singleton, List.singleton_append]

theorem dedent_trimmed (width : Nat) (l : Line) : l.trimmed.dedent width = l.dedent width := by
  have htwice (cs : List Char) : (cs.dropWhile (· == '\r')).dropWhile (· == '\r') =
      cs.dropWhile (· == '\r') := by
    induction cs with
    | nil => rfl
    | cons c cs ih => cases h : c == '\r' <;> simp [h, ih]
  simp [dedent, trimmed, dropEndWhile, htwice]

theorem trimmed_push (isData : Bool) {c : Char} (hc : c ≠ '\r') (ls : List Line) :
    (push isData c ls).map trimmed = push isData c (ls.map trimmed) := by
  cases ls with
  | nil => simp [push, trimmed, dropEndWhile_cons hc]; rfl
  | cons l ls => simp [push, trimmed, dropEndWhile_cons hc]

/-- Carriage returns before the newlines, and one at the end, are all that tells the lines apart. -/
theorem trimmed_ofMarked_widenMarked (isData cut : Bool) {cs : List MarkedChar}
    (h : ∀ c ∈ cs, c.1 ≠ '\r') :
    (ofMarked isData (widenMarked cs ++ (pending cut).map fun c => (c, false))).map trimmed =
      (ofMarked isData cs).map trimmed := by
  induction cs generalizing isData with
  | nil => cases cut <;> rfl
  | cons x r ih =>
      obtain ⟨c, mark⟩ := x
      obtain ⟨hc, hr⟩ := List.forall_mem_cons.1 h
      have ih' := fun isData => ih isData hr
      simp only [widenMarked] at ih' ⊢
      by_cases hn : c = '\n'
      · subst hn
        simp [ofMarked, push, ih', trimmed, dropEndWhile]
      · simp [ofMarked, hn, trimmed_push _ hc, ih']

end Line

/-- Text that is moved left loses the carriage returns before its newlines. -/
theorem dedent_widenMarked (width : Nat) (cut : Bool) {cs : List MarkedChar}
    (h : ∀ c ∈ cs, c.1 ≠ '\r') :
    dedent width (widenMarked cs ++ (pending cut).map fun c => (c, false)) = dedent width cs := by
  have hlines (ls : List Line) : ls.map (Line.dedent width) = (ls.map Line.trimmed).map
      (Line.dedent width) := by
    simp [Line.dedent_trimmed]
  rw [dedent, dedent, hlines, Line.trimmed_ofMarked_widenMarked _ _ h, ← hlines]

end ClassEdit
