import ClassEdit.Proofs.Edit.Insertion
import ClassEdit.Proofs.Edit.Scope

/-!
The contents of a file: its statements and those of its namespaces, without the trivia around them,
and apart from them the headings of the namespaces. A part of a list of statements that is replaced
by another is replaced in the contents as well, whatever becomes of the spacing next to it.
-/

namespace ClassEdit

/-- The lists are the same but for a part in one place. -/
def Splices {α : Type} (old new xs ys : List α) : Prop :=
  ∃ front back, xs = front ++ old ++ back ∧ ys = front ++ new ++ back

namespace Splices

variable {α β : Type} {old new xs ys : List α}

theorem append_left (h : Splices old new xs ys) (zs : List α) :
    Splices old new (zs ++ xs) (zs ++ ys) := by
  obtain ⟨front, back, rfl, rfl⟩ := h
  exact ⟨zs ++ front, back, by simp, by simp⟩

theorem append_right (h : Splices old new xs ys) (zs : List α) :
    Splices old new (xs ++ zs) (ys ++ zs) := by
  obtain ⟨front, back, rfl, rfl⟩ := h
  exact ⟨front, back ++ zs, by simp, by simp⟩

theorem flatMap (h : Splices old new xs ys) (g : α → List β) :
    Splices (old.flatMap g) (new.flatMap g) (xs.flatMap g) (ys.flatMap g) := by
  obtain ⟨front, back, rfl, rfl⟩ := h
  exact ⟨front.flatMap g, back.flatMap g, by simp, by simp⟩

theorem filterMap (h : Splices old new xs ys) (g : α → Option β) :
    Splices (old.filterMap g) (new.filterMap g) (xs.filterMap g) (ys.filterMap g) := by
  obtain ⟨front, back, rfl, rfl⟩ := h
  exact ⟨front.filterMap g, back.filterMap g, by simp, by simp⟩

theorem map (h : Splices old new xs ys) (g : α → β) :
    Splices (old.map g) (new.map g) (xs.map g) (ys.map g) := by
  obtain ⟨front, back, rfl, rfl⟩ := h
  exact ⟨front.map g, back.map g, by simp, by simp⟩

theorem eq_of_nil (h : Splices [] [] xs ys) : ys = xs := by
  obtain ⟨front, back, rfl, rfl⟩ := h
  rfl

theorem mem_cases (h : Splices old new xs ys) {y : α} (hy : y ∈ ys) : y ∈ xs ∨ y ∈ new := by
  obtain ⟨front, back, rfl, rfl⟩ := h
  simp only [List.mem_append] at hy ⊢
  rcases hy with (hy | hy) | hy
  · exact .inl (.inl (.inl hy))
  · exact .inr hy
  · exact .inl (.inr hy)

theorem forall_mem {P : α → Prop} (h : Splices old new xs ys) (hxs : ∀ x ∈ xs, P x)
    (hnew : ∀ y ∈ new, P y) : ∀ y ∈ ys, P y :=
  fun y hy => (h.mem_cases hy).elim (hxs y) (hnew y)

/-- What has a property afterwards had it before, if nothing that comes in has it. -/
theorem filter_sublist {p : α → Bool} (h : Splices old new xs ys) (hnew : ∀ y ∈ new, ¬ p y) :
    (ys.filter p).Sublist (xs.filter p) := by
  obtain ⟨front, back, rfl, rfl⟩ := h
  have hnone : new.filter p = [] := List.filter_eq_nil_iff.2 hnew
  simp only [List.filter_append, hnone, List.append_nil]
  exact (List.sublist_append_left _ _).append_right _

theorem mem_old (h : Splices old new xs ys) {x : α} (hx : x ∈ old) : x ∈ xs := by
  obtain ⟨front, back, rfl, rfl⟩ := h
  simp [hx]

end Splices

theorem splices_set {α : Type} {xs : List α} {i : Nat} {x : α} (h : xs[i]? = some x) (y : α) :
    Splices [x] [y] xs (xs.set i y) := by
  obtain ⟨hi, rfl⟩ := List.getElem?_eq_some_iff.1 h
  exact ⟨xs.take i, xs.drop (i + 1), by simp, by simp [List.set_eq_take_append_cons_drop, hi]⟩

theorem splices_modify {α : Type} {xs : List α} {i : Nat} {x : α}
    (h : xs[i]? = some x) (f : α → α) :
    Splices [x] [f x] xs (xs.modify i f) := by
  obtain ⟨hi, rfl⟩ := List.getElem?_eq_some_iff.1 h
  exact ⟨xs.take i, xs.drop (i + 1), by simp, by simp [List.modify_eq_take_cons_drop hi]⟩

theorem eraseIdx_ne_nil {α : Type} {xs : List α} (h : 1 < xs.length) (j : Nat) :
    xs.eraseIdx j ≠ [] := by
  have hlen := xs.le_length_eraseIdx j
  exact List.ne_nil_of_length_pos (by omega)

section Spaced

variable {α β : Type} [Spaced α] {g : α → β}

theorem Respaced.map_eq (hg : ∀ f x, g (Spaced.mapTrivia f x) = g x) {xs ys : List α}
    (h : Respaced xs ys) : ys.map g = xs.map g := by
  rcases h with rfl | ⟨gap, rfl⟩
  · rfl
  · cases xs <;> simp [hg]

theorem Respaced.flatMap_eq {g : α → List β} (hg : ∀ f x, g (Spaced.mapTrivia f x) = g x)
    {xs ys : List α} (h : Respaced xs ys) : ys.flatMap g = xs.flatMap g := by
  rw [List.flatMap_def, h.map_eq hg, ← List.flatMap_def]

/-- Spacing aside, what is put into a list comes between two of its parts. -/
theorem splices_insertSpaced (hg : ∀ f x, g (Spaced.mapTrivia f x) = g x) {xs : List α} {i : Nat}
    (h : i ≤ xs.length) (x : α) : Splices [] [g x] (xs.map g) ((insertSpaced xs i x).map g) := by
  obtain ⟨front, back, back', hxs, hnew, hback⟩ := insertSpaced_eq h x
  refine ⟨front.map g, back.map g, by simp [hxs], ?_⟩
  simp [hnew, hback.map_eq hg]

/-- Spacing aside, what is taken out of a list leaves the parts around it. -/
theorem splices_removeSpaced (hg : ∀ f x, g (Spaced.mapTrivia f x) = g x) {xs : List α} {i : Nat}
    {x : α} (h : xs[i]? = some x) : Splices [g x] [] (xs.map g) ((removeSpaced xs i).map g) := by
  obtain ⟨hi, rfl⟩ := List.getElem?_eq_some_iff.1 h
  obtain ⟨front, back, back', hxs, hnew, hback⟩ := removeSpaced_eq hi
  refine ⟨front.map g, back.map g, ?_, by simp [hnew, hback.map_eq hg]⟩
  simpa using congrArg (List.map g) hxs

end Spaced

def ClassDecl.bare (c : ClassDecl) : ClassDecl := { c with trivia := .empty }

namespace Stmt

def bare (s : Stmt) : Stmt := s.withTrivia .empty

/-- The statement itself, or the statements of a namespace. -/
def contents : Stmt → List Stmt
  | namespace_ n => n.stmts.map bare
  | s => [s.bare]

def heading? (s : Stmt) : Option (Option String × Bool) :=
  s.namespace?.map fun n => (n.name, n.braced)

theorem bare_mapTrivia (f : Trivia → Trivia) (s : Stmt) :
    bare (Spaced.mapTrivia f s) = s.bare := by
  cases s <;> rfl

theorem contents_bare (s : Stmt) : s.bare.contents = s.contents := by
  cases s <;> rfl

theorem heading?_bare (s : Stmt) : s.bare.heading? = s.heading? := by
  cases s <;> rfl

theorem class?_bare (s : Stmt) : s.bare.class? = s.class?.map ClassDecl.bare := by
  cases s <;> rfl

theorem contents_eq {s : Stmt} (h : s.namespace? = none) : s.contents = [s.bare] := by
  cases s with
  | namespace_ n => cases h
  | _ => rfl

theorem head?_classes (s : Stmt) :
    (s.contents.filterMap class?).head? = s.firstClass?.map ClassDecl.bare := by
  cases s with
  | namespace_ n =>
      rw [contents, firstClass?, List.head?_filterMap, List.findSome?_map, List.map_findSome?]
      congr 1
      funext s
      exact class?_bare s
  | _ => rfl

mutual

/-- The imports in a statement and in the namespaces in it, at any depth. -/
def imports : Stmt → List Import
  | .import_ i => [{ i with trivia := .empty }]
  | .namespace_ n => namespaceImports n
  | _ => []

def namespaceImports : NamespaceDecl → List Import
  | ⟨_, _, _, stmts, _⟩ => listImports stmts

def listImports : List Stmt → List Import
  | [] => []
  | s :: ss => imports s ++ listImports ss

end

theorem listImports_eq (ss : List Stmt) : listImports ss = ss.flatMap imports := by
  induction ss with
  | nil => rfl
  | cons s ss ih => rw [listImports, ih, List.flatMap_cons]

theorem imports_bare (s : Stmt) : s.bare.imports = s.imports := by
  cases s with
  | namespace_ n => cases n; rfl
  | _ => rfl

theorem imports_contents (s : Stmt) : s.contents.flatMap imports = s.imports := by
  cases s with
  | namespace_ n =>
      rw [contents, List.flatMap_map]
      simp only [imports_bare]
      cases n
      exact (listImports_eq _).symm
  | _ => simp [contents, imports_bare]

section Lists

variable {ss : List Stmt}

theorem flatMap_contents_bare (ss : List Stmt) :
    (ss.map bare).flatMap contents = ss.flatMap contents := by
  simp only [List.flatMap_map, contents_bare]

theorem filterMap_heading?_bare (ss : List Stmt) :
    (ss.map bare).filterMap heading? = ss.filterMap heading? := by
  simp only [List.filterMap_map, Function.comp_def, heading?_bare]

theorem flatMap_contents_eq (h : ∀ s ∈ ss, s.namespace? = none) :
    ss.flatMap contents = ss.map bare := by
  induction ss with
  | nil => rfl
  | cons s ss ih =>
      obtain ⟨hs, hss⟩ := List.forall_mem_cons.1 h
      rw [List.flatMap_cons, contents_eq hs, ih hss, List.map_cons, List.singleton_append]

theorem filterMap_heading?_eq_nil (h : ∀ s ∈ ss, s.namespace? = none) :
    ss.filterMap heading? = [] := by
  simp +contextual [heading?, h]

end Lists

end Stmt

namespace SourceFile

/-- The statements of a file and of its namespaces, without what stands around them. -/
def contents (f : SourceFile) : List Stmt := f.stmts.flatMap Stmt.contents

/-- The headings of the namespaces of a file, in order. -/
def headings (f : SourceFile) : List (Option String × Bool) := f.stmts.filterMap Stmt.heading?

def imports (f : SourceFile) : List Import := f.stmts.flatMap Stmt.imports

theorem imports_contents (f : SourceFile) : f.contents.flatMap Stmt.imports = f.imports := by
  rw [contents, imports, List.flatMap_assoc]
  simp only [Stmt.imports_contents]

theorem head?_classes (f : SourceFile) :
    (f.contents.filterMap Stmt.class?).head? = f.firstClass.map ClassDecl.bare := by
  rw [contents, List.filterMap_flatMap, List.head?_flatMap, firstClass, List.map_findSome?]
  congr 1
  funext s
  exact s.head?_classes

/-- What is replaced in the one list in which files differ is replaced in their contents. If it
holds no namespaces, the headings stay. -/
theorem Scoped.splices {R : List Stmt → List Stmt → Prop} {f f' : SourceFile} (h : Scoped R f f') :
    ∃ ss ss', R ss ss' ∧ ∀ old new : List Stmt, (∀ s ∈ old, s.namespace? = none) →
      (∀ s ∈ new, s.namespace? = none) →
      Splices (old.map Stmt.bare) (new.map Stmt.bare) (ss.map Stmt.bare) (ss'.map Stmt.bare) →
      Splices (old.map Stmt.bare) (new.map Stmt.bare) f.contents f'.contents ∧
        f'.headings = f.headings := by
  cases h with
  | @own f ss ss' h =>
      refine ⟨ss, ss', h, fun old new hold hnew hsplices => ?_⟩
      have hcontents := hsplices.flatMap Stmt.contents
      have hheadings := hsplices.filterMap Stmt.heading?
      simp only [Stmt.flatMap_contents_bare, Stmt.flatMap_contents_eq hold,
        Stmt.flatMap_contents_eq hnew] at hcontents
      simp only [Stmt.filterMap_heading?_bare, Stmt.filterMap_heading?_eq_nil hold,
        Stmt.filterMap_heading?_eq_nil hnew] at hheadings
      exact ⟨hcontents, hheadings.eq_of_nil⟩
  | @inside f front n back ss ss' h =>
      refine ⟨ss, ss', h, fun old new _ _ hsplices => ?_⟩
      have hcontents := (hsplices.append_right (back.flatMap Stmt.contents)).append_left
        (front.flatMap Stmt.contents)
      exact ⟨by simpa [contents, Stmt.contents] using hcontents,
        by simp [headings, Stmt.heading?, Stmt.namespace?]⟩

end SourceFile

end ClassEdit
