import ClassEdit.File.Parser
import ClassEdit.Proofs.Class.WellFormed

/-!
Well-formed files. Namespaces are not nested, one without braces has a name, and classes are
well-formed wherever they stand. Main statement: every file that is read is well-formed.
-/

namespace ClassEdit

namespace Stmt

/-- A statement as it may stand in a namespace: no namespace itself, and well-formed if it is a
class. -/
def IsWellFormedInside : Stmt → Prop
  | namespace_ _ => False
  | class_ c => c.IsWellFormed
  | _ => True

/-- A statement as it may stand in a file. -/
def IsWellFormed : Stmt → Prop
  | namespace_ n => (n.braced = false → n.name.isSome) ∧ ∀ s ∈ n.stmts, s.IsWellFormedInside
  | s => s.IsWellFormedInside

theorem IsWellFormedInside.isWellFormed {s : Stmt} (h : s.IsWellFormedInside) : s.IsWellFormed := by
  cases s with
  | namespace_ n => cases h
  | _ => exact h

/-- A statement that is read is well-formed and no namespace. -/
theorem readOrdinary_wellFormed (c : Cursor) : Yields IsWellFormedInside (readOrdinary c) := by
  unfold readOrdinary
  refine .behind fun ⟨attributes, c₁, h₁⟩ => ?_
  dsimp only
  split
  next => exact .behind fun _ => .ok trivial
  next =>
    split
    next => exact .bind (ClassDecl.read_wellFormed _ c₁) fun _ hdecl => .ok hdecl
    next =>
      refine .behind fun ⟨stmt, c₂, h₂⟩ => .ok ?_
      dsimp only [Step.after]
      split <;> trivial

/-- No namespace is read within another one. -/
theorem readInner_wellFormed (braced : Bool) (c : Cursor) :
    Yields (fun l => ∀ s ∈ l.stmts, s.IsWellFormedInside) (readInner braced c) := by
  induction c using readInner.induct braced with
  | case1 c hempty hbraced =>
      rw [readInner, if_pos hempty, if_pos hbraced]
      exact .error
  | case2 c hempty hbraced =>
      rw [readInner, if_pos hempty, if_neg hbraced]
      exact .ok (List.forall_mem_nil _)
  | case3 c hempty hclose =>
      rw [readInner, if_neg hempty, if_pos hclose]
      exact .ok (List.forall_mem_nil _)
  | case4 c hempty hclose hnext hbraced =>
      rw [readInner, if_neg hempty, if_neg hclose, if_pos hnext, if_pos hbraced]
      exact .error
  | case5 c hempty hclose hnext hbraced =>
      rw [readInner, if_neg hempty, if_neg hclose, if_pos hnext, if_neg hbraced]
      exact .ok (List.forall_mem_nil _)
  | case6 c hempty hclose hnext htag ih =>
      rw [readInner, if_neg hempty, if_neg hclose, if_neg hnext, if_pos htag]
      refine .behind fun ⟨text, c₁, h₁⟩ => ?_
      dsimp only
      split
      next =>
        split
        next => exact .error
        next => exact .ok (List.forall_mem_nil _)
      next =>
        refine .behind fun ⟨_, c₂, h₂⟩ => .bind (ih c₁ h₁ c₂ h₂) fun more hmore => ?_
        exact .ok (List.forall_mem_cons.2 ⟨trivial, hmore⟩)
  | case7 c hempty hclose hnext htag ih =>
      rw [readInner, if_neg hempty, if_neg hclose, if_neg hnext, if_neg htag]
      refine .bind (readOrdinary_wellFormed c) fun ⟨stmt, c₁, h₁⟩ hstmt => ?_
      refine .bind (ih c₁ h₁) fun more hmore => ?_
      exact .ok (List.forall_mem_cons.2 ⟨hstmt, hmore⟩)

/-- A namespace that is read has a name if it has no braces. -/
theorem readNamespace_wellFormed (c : Cursor) :
    Yields (fun n => (namespace_ n.1).IsWellFormed) (readNamespace c) := by
  unfold readNamespace
  refine .behind fun ⟨_, c₁, h₁⟩ => ?_
  dsimp only
  split
  next c₃ h₃ _ =>
    refine .bind (readInner_wellFormed true c₃) fun l hl => ?_
    exact .behind fun _ => .ok ⟨nofun, hl⟩
  next => exact .error
  next hname =>
    refine .behind fun ⟨_, c₃, h₃⟩ => .bind (readInner_wellFormed false _) fun l hl => ?_
    exact .ok ⟨fun _ => Option.isSome_of_eq_some hname, hl⟩

/-- The statements of a file are well-formed. -/
theorem readOuter_wellFormed (c : Cursor) :
    Yields (fun l => ∀ s ∈ l.stmts, s.IsWellFormed) (readOuter c) := by
  induction c using readOuter.induct with
  | case1 c hempty =>
      rw [readOuter, if_pos hempty]
      exact .ok (List.forall_mem_nil _)
  | case2 c hempty hnext ih =>
      rw [readOuter, if_neg hempty, if_pos hnext]
      refine .bind (readNamespace_wellFormed c) fun ⟨_, c₁, h₁⟩ hdecl => ?_
      refine .bind (ih c₁ h₁) fun more hmore => ?_
      exact .ok (List.forall_mem_cons.2 ⟨hdecl, hmore⟩)
  | case3 c hempty hnext htag ih =>
      rw [readOuter, if_neg hempty, if_neg hnext, if_pos htag]
      refine .behind fun ⟨text, c₁, h₁⟩ => ?_
      dsimp only
      split
      next => exact .ok (List.forall_mem_nil _)
      next =>
        refine .behind fun ⟨_, c₂, h₂⟩ => .bind (ih c₁ h₁ c₂ h₂) fun more hmore => ?_
        exact .ok (List.forall_mem_cons.2 ⟨trivial, hmore⟩)
  | case4 c hempty hnext htag ih =>
      rw [readOuter, if_neg hempty, if_neg hnext, if_neg htag]
      refine .bind (readOrdinary_wellFormed c) fun ⟨stmt, c₁, h₁⟩ hstmt => ?_
      refine .bind (ih c₁ h₁) fun more hmore => ?_
      exact .ok (List.forall_mem_cons.2 ⟨hstmt.isWellFormed, hmore⟩)

end Stmt

namespace SourceFile

def IsWellFormed (f : SourceFile) : Prop :=
  ∀ s ∈ f.stmts, s.IsWellFormed

/-- The reader makes well-formed files alone. -/
theorem ofSource_wellFormed {source : String} {f : SourceFile} (h : ofSource source = .ok f) :
    f.IsWellFormed := by
  unfold ofSource at h
  cases hlex : Lexeme.ofFile source with
  | error e => simp [hlex, bind, Except.bind] at h
  | ok ls =>
      simp only [hlex, bind, Except.bind] at h
      split at h
      next => cases h
      next c₁ _ _ =>
        split at h
        next => cases h
        next l hread =>
          cases h
          exact Stmt.readOuter_wellFormed c₁ l hread

end SourceFile

end ClassEdit
