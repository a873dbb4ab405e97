import ClassEdit.Edit.Member
import ClassEdit.Proofs.Edit.Contents

/-!
What the edits of a class do to its members, spacing aside. Each replaces at most one member in the
list: none by a new one, one by what is left of it or by what it is changed to.
-/

namespace ClassEdit

theorem Member.isRoutine_eq {name : String} {m : Member} (h : m.isRoutine name) :
    ∃ r, m = .routine r ∧ sameWord r.name name := by
  cases m with
  | routine r => exact ⟨r, rfl, h⟩
  | _ => cases h

namespace ClassDecl

variable {c c' : ClassDecl}

/-- The members without what stands around them. -/
def content (c : ClassDecl) : List Member := c.members.map (·.member)

theorem findRoutine_eq_some {name : String} {i : Nat} (h : c.findRoutine name = some i) :
    ∃ m r, c.members[i]? = some m ∧ m.member = .routine r ∧ sameWord r.name name := by
  obtain ⟨hi, hname, -⟩ := List.findIdx?_eq_some_iff_getElem.1 h
  obtain ⟨r, hr, hsame⟩ := Member.isRoutine_eq hname
  exact ⟨_, r, List.getElem?_eq_getElem hi, hr, hsame⟩

/-- An edit at the place of what is found in a statement is one at that statement. -/
theorem atPlace_findIn_eq_ok {f : MemberStmt → Option Nat} {g : Nat × Nat → ClassDecl}
    (h : atPlace (findIn f c.members) g = .ok c') :
    ∃ i j m, c.members[i]? = some m ∧ c' = g (i, j) := by
  obtain ⟨⟨i, j⟩, hplace, rfl⟩ := atPlace_eq_ok h
  obtain ⟨m, hm, -⟩ := findIn_eq_some hplace
  exact ⟨i, j, m, hm, rfl⟩

theorem atPlace_findRoutine_eq_ok {name : String} {g : Nat → ClassDecl}
    (h : atPlace (c.findRoutine name) g = .ok c') : ∃ i m, c.members[i]? = some m ∧ c' = g i := by
  obtain ⟨i, hplace, rfl⟩ := atPlace_eq_ok h
  obtain ⟨m, r, hm, -⟩ := findRoutine_eq_some hplace
  exact ⟨i, m, hm, rfl⟩

theorem content_insertMember (c : ClassDecl) (m : Member) :
    Splices [] [m] c.content (c.insertMember m).content :=
  splices_insertSpaced (fun _ _ => rfl) (memberPosition_le c.members m.category) (.made m)

theorem content_mapMember {i : Nat} {m : MemberStmt} (h : c.members[i]? = some m)
    (f : Member → Member) :
    Splices [m.member] [f m.member] c.content (c.mapMember i f).content :=
  (splices_modify h fun m => { m with member := f m.member }).map (·.member)

theorem content_removeSpaced {i : Nat} {m : MemberStmt} (h : c.members[i]? = some m) :
    Splices [m.member] [] c.content ((removeSpaced c.members i).map (·.member)) :=
  splices_removeSpaced (fun _ _ => rfl) h

/-- A member of which one thing is removed goes with the last one. -/
theorem content_removeItem {i : Nat} {m : MemberStmt} (h : c.members[i]? = some m) (j : Nat) :
    Splices [m.member] [] c.content (c.removeItem (i, j)).content ∨
      1 < m.member.itemCount ∧
        Splices [m.member] [m.member.eraseItem j] c.content (c.removeItem (i, j)).content := by
  unfold removeItem
  split
  next hmore => exact .inr ⟨by simpa [h] using hmore, content_mapMember h _⟩
  next => exact .inl (content_removeSpaced h)

/-- A routine that is added comes to the others or takes the place of one of the same name. -/
theorem addRoutine_eq_ok {s : RoutineSpec} (h : addRoutine s c = .ok c') :
    c'.interfaces = c.interfaces ∧
      ((c.findRoutine s.name = none ∧ Splices [] [.routine s.toRoutine] c.content c'.content) ∨
        ∃ r, sameWord r.name s.name ∧
          Splices [.routine r] [.routine s.toRoutine] c.content c'.content) := by
  unfold addRoutine at h
  split at h
  next i hi =>
    obtain ⟨m, r, hm, hr, hname⟩ := findRoutine_eq_some hi
    split at h
    next =>
      cases h
      refine ⟨rfl, .inr ⟨r, hname, ?_⟩⟩
      have hsplices := (splices_modify hm fun m =>
        ⟨{ Trivia.empty with blankBefore := m.trivia.blankBefore }, .routine s.toRoutine⟩).map
          (·.member)
      rw [List.map_singleton, hr] at hsplices
      exact hsplices
    next => cases h
  next hnone =>
    cases h
    exact ⟨rfl, .inl ⟨hnone, c.content, [], by simp, by simp [content, MemberStmt.made]⟩⟩

end ClassDecl

end ClassEdit
