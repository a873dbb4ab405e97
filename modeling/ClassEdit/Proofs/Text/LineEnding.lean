import ClassEdit.Text.LineEnding

/-!
Line endings and texts put together. Normalizing works on each text by itself unless a cut falls
between a carriage return and its newline. Main statement: a text with one more text in it stays
that when both get the line ending asked for.
-/

namespace ClassEdit

namespace LineEnding

theorem normalize_cons {c : Char} {r : List Char} (h : c = '\r' → r.head? ≠ some '\n') :
    normalize (c :: r) = c :: normalize r := by
  cases r with
  | nil => simp [normalize]
  | cons d r =>
      refine normalize.eq_2 c (d :: r) ?_
      intro r' hc hr
      cases hr
      exact h hc rfl

/-- Two texts are normalized apart unless a carriage return and a newline meet between them. -/
theorem normalize_append {a b : List Char}
    (h : a.getLast? = some '\r' → b.head? ≠ some '\n') :
    normalize (a ++ b) = normalize a ++ normalize b := by
  fun_induction normalize a with
  | case1 r ih =>
      simp only [List.cons_append, normalize]
      rw [ih]
      intro hr
      apply h
      cases r with
      | nil => cases hr
      | cons c r => simpa using hr
  | case2 c r hne ih =>
      have hcut : c = '\r' → (r ++ b).head? ≠ some '\n' := by
        intro hc
        cases r with
        | nil => exact h (by simp [hc])
        | cons d r =>
            intro hd
            have hd' : d = '\n' := by simpa using hd
            exact hne r hc (by rw [hd'])
      rw [List.cons_append, normalize_cons hcut, ih, List.cons_append]
      intro hr
      apply h
      cases r with
      | nil => cases hr
      | cons d r => simpa using hr
  | case3 => rfl

/-- A text without carriage returns stays as it is, whatever follows. -/
theorem normalize_append_of_not_mem {cs : List Char} (h : '\r' ∉ cs) (s : List Char) :
    normalize (cs ++ s) = cs ++ normalize s := by
  induction cs with
  | nil => rfl
  | cons c cs ih =>
      rw [List.mem_cons, not_or] at h
      rw [List.cons_append, normalize_cons (fun hc => absurd hc.symm h.1), ih h.2]
      rfl

/-- A newline at the end of a text is never taken for a part of something else. -/
theorem normalize_append_newline (a : List Char) :
    ∃ e, normalize (a ++ ['\n']) = e ++ ['\n'] := by
  by_cases h : a.getLast? = some '\r'
  · obtain ⟨a', rfl⟩ := List.getLast?_eq_some_iff.1 h
    refine ⟨normalize a', ?_⟩
    rw [List.append_assoc, normalize_append (by simp)]
    rfl
  · exact ⟨normalize a, by rw [normalize_append (fun h' => absurd h' h)]; rfl⟩

theorem normalize_append_line (a b : List Char) :
    normalize (a ++ '\n' :: b) = normalize (a ++ ['\n']) ++ normalize b := by
  rw [← normalize_append (by simp)]
  simp

theorem replaceWith_append (ending a b : List Char) :
    replaceWith ending (a ++ b) = replaceWith ending a ++ replaceWith ending b :=
  List.flatMap_append

/-- What stands before a newline is normalized in the same way whatever is put between the two. -/
theorem normalize_insert_before_newline (u v : List Char) :
    ∃ e x, normalize (u ++ ['\n']) = e ++ ['\n'] ∧
      normalize (u ++ v ++ ['\n']) = e ++ x ++ ['\n'] := by
  by_cases h : u.getLast? = some '\r'
  · obtain ⟨u', rfl⟩ := List.getLast?_eq_some_iff.1 h
    obtain ⟨x, hx⟩ := normalize_append_newline ('\r' :: v)
    refine ⟨normalize u', x, ?_, ?_⟩
    · rw [List.append_assoc, normalize_append (by simp)]
      rfl
    · have he : u' ++ ['\r'] ++ v ++ ['\n'] = u' ++ ('\r' :: v ++ ['\n']) := by simp
      rw [he, normalize_append (by simp), hx, List.append_assoc]
  · obtain ⟨x, hx⟩ := normalize_append_newline v
    refine ⟨normalize u, x, ?_, ?_⟩
    · rw [normalize_append (fun h' => absurd h' h)]
      rfl
    · rw [List.append_assoc, normalize_append (fun h' => absurd h' h), hx, List.append_assoc]

end LineEnding

/-- The second text is the first with one more text in it. A text that begins a line is put in where
another line begins or where no carriage return stands before it. -/
def Inserts (a b : String) : Prop :=
  ∃ u v w : String, a = u ++ w ∧ b = u ++ v ++ w ∧
    (v.toList.head? = some '\n' →
      w.toList.head? = some '\n' ∨ ∃ c, u.toList.getLast? = some c ∧ c ≠ '\r')

namespace Inserts

variable {a b : String}

theorem append_left (p : String) (h : Inserts a b) : Inserts (p ++ a) (p ++ b) := by
  obtain ⟨u, v, w, rfl, rfl, hcut⟩ := h
  refine ⟨p ++ u, v, w, by simp only [String.append_assoc], by simp only [String.append_assoc], ?_⟩
  intro hv
  refine (hcut hv).imp id ?_
  rintro ⟨c, hc, hne⟩
  exact ⟨c, by simp [List.getLast?_append, hc], hne⟩

theorem append_right (s : String) (h : Inserts a b) : Inserts (a ++ s) (b ++ s) := by
  obtain ⟨u, v, w, rfl, rfl, hcut⟩ := h
  refine ⟨u, v, w ++ s, by simp only [String.append_assoc], by simp only [String.append_assoc], ?_⟩
  intro hv
  refine (hcut hv).imp ?_ id
  intro hw
  simp [List.head?_append, hw]

/-- Normalizing keeps the rest of the two texts the same, character for character. -/
theorem normalize (h : Inserts a b) :
    ∃ u v w, LineEnding.normalize a.toList = u ++ w ∧
      LineEnding.normalize b.toList = u ++ v ++ w := by
  obtain ⟨u, v, w, rfl, rfl, hcut⟩ := h
  simp only [String.toList_append]
  by_cases hw : w.toList.head? = some '\n'
  · obtain ⟨w', hw'⟩ := List.head?_eq_some_iff.1 hw
    obtain ⟨e, x, hu, huv⟩ := LineEnding.normalize_insert_before_newline u.toList v.toList
    refine ⟨e, x, '\n' :: LineEnding.normalize w', ?_, ?_⟩
    · rw [hw', LineEnding.normalize_append_line, hu]
      simp
    · rw [hw', LineEnding.normalize_append_line, huv]
      simp
  · have hvw : LineEnding.normalize (v.toList ++ w.toList) =
        LineEnding.normalize v.toList ++ LineEnding.normalize w.toList :=
      LineEnding.normalize_append fun _ => hw
    by_cases hv : v.toList = []
    · exact ⟨_, [], [], (List.append_nil _).symm, by simp [hv]⟩
    refine ⟨LineEnding.normalize u.toList, LineEnding.normalize v.toList,
      LineEnding.normalize w.toList, LineEnding.normalize_append fun _ => hw, ?_⟩
    rw [List.append_assoc, LineEnding.normalize_append, hvw, List.append_assoc]
    intro hu hvw'
    have hv' : v.toList.head? = some '\n' := by
      cases hl : v.toList with
      | nil => exact absurd hl hv
      | cons c r => simpa [hl] using hvw'
    rcases hcut hv' with h | ⟨c, hc, hne⟩
    · exact hw h
    · exact hne (by simpa [hu] using hc.symm)

/-- One more text is still one more text behind any line ending. -/
theorem replaceWith (ending : List Char) (h : Inserts a b) :
    ∃ u v w : String,
      String.ofList (LineEnding.replaceWith ending (LineEnding.normalize a.toList)) = u ++ w ∧
      String.ofList (LineEnding.replaceWith ending (LineEnding.normalize b.toList)) = u ++
        v ++ w := by
  obtain ⟨u, v, w, ha, hb⟩ := h.normalize
  refine ⟨String.ofList (LineEnding.replaceWith ending u),
    String.ofList (LineEnding.replaceWith ending v),
    String.ofList (LineEnding.replaceWith ending w), ?_, ?_⟩
  · rw [ha, LineEnding.replaceWith_append, String.ofList_append]
  · rw [hb, LineEnding.replaceWith_append, LineEnding.replaceWith_append, String.ofList_append,
      String.ofList_append]

end Inserts

end ClassEdit
