import ClassEdit.Proofs.Token.Telling

/-!
How names, variables and numbers are spelled. Main statements: the characters of a name tell nothing
by themselves, and a number begins with a digit or a point.
-/

namespace ClassEdit.Scan

open Quoted (isNameStart)

def IsCalm (x : String) : Prop := ∀ c ∈ x.toList, isCalm c = true

instance (x : String) :
    Decidable (IsCalm x) := inferInstanceAs (Decidable (∀ c ∈ x.toList, isCalm c = true))

section IsCalm

variable {x y : String}

@[simp] theorem isCalm_append : IsCalm (x ++ y) ↔ IsCalm x ∧ IsCalm y := by
  simp [IsCalm, or_imp, forall_and]

theorem isCalm_join {xs : List String} (h : ∀ x ∈ xs, IsCalm x) : IsCalm (String.join xs) := by
  induction xs with
  | nil => simp [IsCalm]
  | cons x xs ih =>
    obtain ⟨hx, hxs⟩ := List.forall_mem_cons.1 h
    rw [String.join_cons]
    exact isCalm_append.2 ⟨hx, ih hxs⟩

/-- Texts without literals have none with commas between them. -/
theorem isCalm_commaList {xs : List String} (h : ∀ x ∈ xs, IsCalm x) : IsCalm (commaList xs) := by
  induction xs with
  | nil => simp [IsCalm, commaList]
  | cons x xs ih =>
    obtain ⟨hx, hxs⟩ := List.forall_mem_cons.1 h
    cases xs with
    | nil => simpa [commaList] using hx
    | cons y ys =>
      have hall := ih hxs
      intro c hc
      rw [toList_commaList_cons (List.cons_ne_nil _ _)] at hc
      simp only [List.mem_append, List.mem_singleton] at hc
      rcases hc with hc | rfl | rfl | hc
      · exact hx c hc
      · rfl
      · rfl
      · exact hall c hc

end IsCalm

section Spelling

variable {kind : TokenKind} {x d : List Char} {p : Position} {c : Char} {r : List Char} {n : Nat}

theorem IsToken.laterRule (h : IsToken kind x d)
    (hkind : kind ∉ [.closeTag, .attributeOpen, .comment, .heredoc]) :
    ∃ c t, x = c :: t ∧ LaterRule c (t ++ d) kind t.length := by
  obtain ⟨c, t, rfl, -, hl⟩ := h
  exact ⟨c, t, rfl, (laterRule_of_codeLexeme (hl .start)).resolve_left hkind⟩

/-- The characters of a name are calm. -/
theorem isCalm_of_mem_name (cs : List Char) : ∀ c ∈ cs.take (nameLength cs), isCalm c = true := by
  fun_induction nameLength cs with
  | case1 c r _ ih =>
    rw [List.take_succ_cons]
    exact List.forall_mem_cons.2 ⟨by decide, ih⟩
  | case2 r => exact List.forall_mem_cons.2 ⟨by decide, List.forall_mem_nil _⟩
  | case3 => exact List.forall_mem_nil _
  | case4 c r _ hc ih =>
    rw [List.take_succ_cons]
    refine List.forall_mem_cons.2 ⟨?_, ih⟩
    rw [isCalm, hc, Bool.true_or, Bool.true_or]
  | case5 => exact List.forall_mem_nil _
  | case6 => exact List.forall_mem_nil _

/-- A name or a variable. -/
theorem IsToken.isCalm (h : IsToken kind x d) (hkind : kind = .word ∨ kind = .var) :
    ∀ c ∈ x, isCalm c = true := by
  obtain ⟨c, t, rfl, hrule⟩ := h.laterRule (by rcases hkind with rfl | rfl <;> decide)
  generalize hlength : t.length = n at hrule
  cases hrule with
  | var hc =>
    refine List.forall_mem_cons.2 ⟨by rw [hc]; decide, fun e he => ?_⟩
    have htake := List.prefix_iff_eq_take.1 (List.takeWhile_prefix isNamePart (l := t ++ d))
    rw [show ((t ++ d).takeWhile isNamePart).length = t.length from hlength.symm, List.take_left]
      at htake
    rw [← htake] at he
    have hpart : isNamePart e = true := List.all_eq_true.1 List.all_takeWhile e he
    rw [Scan.isCalm, hpart, Bool.true_or, Bool.true_or]
  | word hn =>
    have hall := isCalm_of_mem_name (c :: (t ++ d))
    rwa [hn, ← hlength, ← List.length_cons, ← List.cons_append, List.take_left] at hall
  | number =>
    rcases numberExtent_kind (c :: (t ++ d)) with h | h <;> rw [h] at hkind <;>
      rcases hkind with hkind | hkind <;> cases hkind
  | quoted => rcases hkind with hkind | hkind <;> cases hkind
  | operator ho =>
    have hkinds : ∀ o ∈ operators, ¬(o.2 = .word ∨ o.2 = .var) := by decide
    exact absurd hkind (hkinds _ ho)

/-- A number begins with a digit or a point. -/
theorem IsToken.exists_digit (h : IsToken kind x d) (hkind : kind = .int ∨ kind = .float) :
    ∃ c t, x = c :: t ∧ (c.isDigit = true ∨ c = '.') := by
  obtain ⟨c, t, rfl, hrule⟩ := h.laterRule (by rcases hkind with rfl | rfl <;> decide)
  refine ⟨c, t, rfl, ?_⟩
  generalize t.length = n at hrule
  cases hrule with
  | number hstart => exact hstart
  | var | word | quoted => rcases hkind with hkind | hkind <;> cases hkind
  | operator ho =>
    have hkinds : ∀ o ∈ operators, ¬(o.2 = .int ∨ o.2 = .float) := by decide
    exact absurd hkind (hkinds _ ho)

/-- In code there are no opening tags. -/
theorem IsToken.kind_ne_openTag (h : IsToken kind x d) : kind ≠ .openTag := by
  intro hkind
  obtain ⟨c, t, rfl, hrule⟩ := h.laterRule (by rw [hkind]; decide)
  generalize t.length = n at hrule
  cases hrule with
  | number =>
      rcases numberExtent_kind (c :: (t ++ d)) with h | h <;> rw [h] at hkind <;> cases hkind
  | var | word | quoted => cases hkind
  | operator ho =>
    have hkinds : ∀ o ∈ operators, o.2 ≠ .openTag := by decide
    exact hkinds _ ho hkind

end Spelling

end ClassEdit.Scan
