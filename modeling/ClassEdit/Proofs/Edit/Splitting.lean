import ClassEdit.Proofs.Edit.Insertion

/-!
Lists cut in two at a place. A search tells what it found and that nothing before it, or behind it,
fits; what is put in or taken out at that place leaves what stands before it alone, and changes at
most the gap of what stands behind it.
-/

namespace ClassEdit

/-- The element that was found is the first one, and nothing is found before it. -/
theorem findIn_eq_some_split {α : Type} {f : α → Option Nat} {xs : List α} {i j : Nat}
    (h : findIn f xs = some (i, j)) :
    ∃ front x back, xs = front ++ x :: back ∧ front.length = i ∧ f x = some j ∧
      ∀ y ∈ front, f y = none := by
  induction xs generalizing i with
  | nil => cases h
  | cons x xs ih =>
    unfold findIn at h
    split at h
    next k hk =>
      cases h
      exact ⟨[], x, xs, rfl, rfl, hk, nofun⟩
    next hnone =>
      obtain ⟨⟨k, l⟩, hrest, heq⟩ := Option.map_eq_some_iff.1 h
      cases heq
      obtain ⟨front, y, back, rfl, rfl, hy, hfront⟩ := ih hrest
      exact ⟨x :: front, y, back, rfl, rfl, hy, List.forall_mem_cons.2 ⟨hnone, hfront⟩⟩

theorem findIn_behind {α : Type} {f : α → Option Nat} {front : List α}
    (hfront : ∀ x ∈ front, f x = none) {x : α} (back : List α) {j : Nat} (hx : f x = some j) :
    findIn f (front ++ x :: back) = some (front.length, j) := by
  induction front with
  | nil => simp [findIn, hx]
  | cons y front ih =>
    obtain ⟨hy, hrest⟩ := List.forall_mem_cons.1 hfront
    simp [findIn, hy, ih hrest]

theorem findIdx?_eq_some_split {α : Type} {p : α → Bool} {xs : List α} {i : Nat}
    (h : xs.findIdx? p = some i) :
    ∃ front x back, xs = front ++ x :: back ∧ front.length = i ∧ p x = true ∧
      ∀ y ∈ front, p y = false := by
  obtain ⟨hi, hp, hfirst⟩ := List.findIdx?_eq_some_iff_getElem.1 h
  refine ⟨xs.take i, xs[i],
    xs.drop (i + 1), by simp, List.length_take_of_le (Nat.le_of_lt hi), hp, ?_⟩
  intro y hy
  obtain ⟨k, hk, rfl⟩ := List.getElem_of_mem hy
  rw [List.length_take] at hk
  simpa using hfirst k (by omega)

theorem findIdx?_behind {α : Type} {p : α → Bool} {front : List α}
    (hfront : ∀ x ∈ front, p x = false) {x : α} (back : List α) (hx : p x = true) :
    (front ++ x :: back).findIdx? p = some front.length := by
  have hnone : front.findIdx? p = none := List.findIdx?_eq_none_iff.2 hfront
  simp [List.findIdx?_append, hnone, List.findIdx?_cons, hx]

/-- The first that fits of all that is listed is the first of the first element that lists any. -/
theorem eraseP_flatMap_split {α β : Type} {g : α → List β} {p : β → Bool} {front : List α}
    {x : α} (back : List α) {j : Nat} (hfront : ∀ y ∈ front, (g y).findIdx? p = none)
    (hx : (g x).findIdx? p = some j) :
    ((front ++ x :: back).flatMap g).eraseP p = front.flatMap g ++
      ((g x).eraseIdx j ++ back.flatMap g) := by
  obtain ⟨hlt, hp, -⟩ := List.findIdx?_eq_some_iff_getElem.1 hx
  have hbefore : ∀ z ∈ front.flatMap g, ¬p z = true := by
    intro z hz
    obtain ⟨y, hy, hz⟩ := List.mem_flatMap.1 hz
    simp [List.findIdx?_eq_none_iff.1 (hfront y hy) z hz]
  rw [List.flatMap_append, List.flatMap_cons, List.eraseP_append_right _ hbefore,
    List.eraseP_append_left hp _ (List.getElem_mem hlt), List.eraseP_eq_eraseIdx, hx]

theorem lastIdx?_eq_none {α : Type} {p : α → Bool} {xs : List α} (h : lastIdx? p xs = none) :
    ∀ x ∈ xs, p x = false := by
  induction xs with
  | nil => exact nofun
  | cons x xs ih =>
    unfold lastIdx? at h
    split at h
    next => cases h
    next hnone =>
      split at h
      next => cases h
      next hx => exact List.forall_mem_cons.2 ⟨by simpa using hx, ih hnone⟩

/-- The element that was found is the last one, and none behind it holds. -/
theorem lastIdx?_eq_some_split {α : Type} {p : α → Bool} {xs : List α} {i : Nat}
    (h : lastIdx? p xs = some i) :
    ∃ front x back, xs = front ++ x :: back ∧ front.length = i ∧ p x = true ∧
      ∀ y ∈ back, p y = false := by
  induction xs generalizing i with
  | nil => cases h
  | cons x xs ih =>
    unfold lastIdx? at h
    split at h
    next k hk =>
      cases h
      obtain ⟨front, y, back, rfl, rfl, hy, hback⟩ := ih hk
      exact ⟨x :: front, y, back, rfl, rfl, hy, hback⟩
    next hnone =>
      split at h
      next hx =>
        cases h
        exact ⟨[], x, xs, rfl, rfl, hx, lastIdx?_eq_none hnone⟩
      next => cases h

theorem modify_append_cons {α : Type} (front : List α) (x : α) (back : List α) (f : α → α) :
    (front ++ x :: back).modify front.length f = front ++ f x :: back := by
  rw [List.modify_eq_take_cons_drop (by simp)]
  simp

theorem exists_split_at {α : Type} {xs : List α} {i : Nat} (h : i ≤ xs.length) :
    ∃ front back, xs = front ++ back ∧ front.length = i :=
  ⟨xs.take i, xs.drop i, by simp, List.length_take_of_le h⟩

/-- An element that is put in at the top may change the gap of the one that was there. -/
theorem insertSpaced_split {α : Type} [Spaced α] (front : List α) (x : α) (back : List α) :
    ∃ back', insertSpaced (front ++ back) front.length x = front ++ x :: back' ∧
      Respaced back back' := by
  cases front with
  | nil =>
    refine ⟨_, rfl, .inr ⟨fun t => if t.blankBefore = some false then none else t.blankBefore, ?_⟩⟩
    rw [← releaseTop_eq]
    rfl
  | cons y front =>
    refine ⟨back, ?_, .inl rfl⟩
    rw [insertSpaced, if_neg (by simp), insertIdx_length_append]

/-- An element that is taken out gives its gap, if any, to the one behind it. -/
theorem removeSpaced_split {α : Type} [Spaced α] (front : List α) (x : α) (back : List α) :
    ∃ back', removeSpaced (front ++ x :: back) front.length = front ++ back' ∧
      Respaced back back' := by
  refine ⟨_, ?_, .inr ⟨fun t => if front.length == 0 || t.blankBefore == some false
    then (Spaced.trivia? x).bind (·.blankBefore) else t.blankBefore, rfl⟩⟩
  rw [removeSpaced, List.eraseIdx_eq_take_drop_succ, List.modify_eq_take_drop, inheritGap_eq]
  simp

end ClassEdit
