import ClassEdit.Proofs.Edit.Contents

/-!
What an operation does to a file, said once for all of them. One that applies replaces a part of the
contents in one place: the first class by the edited class, no import by one, an import by what is
left of it. The operations on namespaces leave the contents as they are and change the headings.
What every operation keeps is kept by a run of them.
-/

namespace ClassEdit

namespace SourceFile

variable {f f' : SourceFile}

/-- An edit of the first class replaces it in the contents. -/
theorem onFirstClass_contents {edit : Edit ClassDecl} (h : onFirstClass edit f = .ok f') :
    ∃ c c', edit c = .ok c' ∧ f.firstClass = some c ∧ f'.firstClass = some c' ∧
      Splices [.class_ c.bare] [.class_ c'.bare] f.contents f'.contents ∧
        f'.headings = f.headings := by
  obtain ⟨c, c', hc, hfirst, hfirst', hscoped⟩ := onFirstClass_eq_ok h
  obtain ⟨_, _, ⟨front, back, rfl, rfl⟩, hsplices⟩ := hscoped.splices
  refine ⟨c, c', hc, hfirst, hfirst', hsplices [.class_ c] [.class_ c'] (by simp [Stmt.namespace?])
    (by simp [Stmt.namespace?]) ?_⟩
  exact ⟨front.map Stmt.bare, back.map Stmt.bare, by simp, by simp⟩

/-- Imports give way to others in one place, and all that come in import something. -/
def ImportsReplaced (ss ss' : List Stmt) : Prop :=
  ∃ old new : List Import, (∀ i ∈ new, i.items ≠ []) ∧
    Splices ((old.map Stmt.import_).map Stmt.bare) ((new.map Stmt.import_).map Stmt.bare) ss ss'

theorem Scoped.importsReplaced {R : List Stmt → List Stmt → Prop} (h : Scoped R f f')
    (hR : ∀ ss ss', R ss ss' → ImportsReplaced (ss.map Stmt.bare) (ss'.map Stmt.bare)) :
    ImportsReplaced f.contents f'.contents ∧ f'.headings = f.headings := by
  obtain ⟨ss, ss', hss, hsplices⟩ := h.splices
  obtain ⟨old, new, hnew, hlist⟩ := hR ss ss' hss
  obtain ⟨hcontents, hheadings⟩ :=
    hsplices _ _ (by simp [Stmt.namespace?]) (by simp [Stmt.namespace?]) hlist
  exact ⟨⟨old, new, hnew, hcontents⟩, hheadings⟩

theorem addImport_contents {path : String} {localName : Option String}
    (h : addImport path localName f = .ok f') :
    ImportsReplaced f.contents f'.contents ∧ f'.headings = f.headings := by
  refine (addImport_eq_ok h).importsReplaced fun ss ss' hss => ?_
  obtain rfl := importInto_eq_ok hss
  exact ⟨[], [.single (bareName path) localName], by simp [Import.single],
    splices_insertSpaced Stmt.bare_mapTrivia (importPosition_le ss) _⟩

/-- What is left of an import, if anything, still imports something. -/
theorem removeImport_contents {path : String} (h : removeImport path f = .ok f') :
    ImportsReplaced f.contents f'.contents ∧ f'.headings = f.headings := by
  refine (removeImport_eq_ok h).importsReplaced fun ss ss' hss => ?_
  obtain ⟨k, i, hi, ⟨-, rfl⟩ | ⟨j, hmore, rfl⟩⟩ := removeImportFrom_eq_ok hss
  · exact ⟨[i], [], nofun, splices_removeSpaced Stmt.bare_mapTrivia hi⟩
  · let left : Import := { i with items := i.items.eraseIdx j }
    exact ⟨[i], [left], List.forall_mem_singleton.2 (eraseIdx_ne_nil hmore j),
      (splices_set hi (.import_ left)).map Stmt.bare⟩

theorem changeNamespace_contents {name : String} (h : changeNamespace name f = .ok f') :
    ∃ n : NamespaceDecl, f'.contents = f.contents ∧
      Splices [(n.name, n.braced)] [(some (bareName name), n.braced)] f.headings f'.headings := by
  obtain ⟨front, n, back, hf, rfl⟩ := changeNamespace_eq_ok h
  refine ⟨n, by simp [contents, hf, Stmt.contents], front.filterMap Stmt.heading?,
    back.filterMap Stmt.heading?, ?_, ?_⟩
  · simp [headings, hf, Stmt.heading?, Stmt.namespace?]
  · simp [headings, Stmt.heading?, Stmt.namespace?]

/-- A file that gets its first namespace has what it had before, in the namespace or before it. -/
theorem addNamespace_contents {name : String} (h : addNamespace name f = .ok f') :
    f'.contents = f.contents ∧ f'.headings = [(some (bareName name), false)] := by
  unfold addNamespace at h
  split at h
  next => cases h
  next hnone =>
    cases h
    have hstmts : ∀ s ∈ f.stmts, s.namespace? = none := by simpa using hnone
    let front := f.stmts.take (leadingDeclares f.stmts)
    let back := f.stmts.drop (leadingDeclares f.stmts)
    have hfront : ∀ s ∈ front, s.namespace? = none := fun s hs => hstmts s (List.mem_of_mem_take hs)
    have hback : Respaced back
        (back.modifyHead (Spaced.mapTrivia fun t => { t with blankBefore := some true })) :=
      .inr ⟨fun _ => some true, rfl⟩
    refine ⟨?_, ?_⟩
    · rw [contents, contents, List.flatMap_append, Stmt.flatMap_contents_eq hfront,
        Stmt.flatMap_contents_eq hstmts, List.flatMap_singleton, Stmt.contents,
        hback.map_eq Stmt.bare_mapTrivia, ← List.map_append, List.take_append_drop]
    · rw [headings, List.filterMap_append, Stmt.filterMap_heading?_eq_nil hfront]
      rfl

end SourceFile

namespace Operation

/-- The edit of the first class that an operation is, if it is about that class. -/
def classEdit? : Operation → Option (Edit ClassDecl)
  | addMixin name => some (ClassDecl.addMixin name)
  | removeMixin name => some (ClassDecl.removeMixin name)
  | addField spec => some (ClassDecl.addField spec)
  | removeField name => some (ClassDecl.removeField name)
  | changeField spec => some (ClassDecl.changeField spec)
  | extendField name additions => some (ClassDecl.extendField name additions)
  | addRoutine spec => some (ClassDecl.addRoutine spec)
  | changeRoutine change => some (ClassDecl.changeRoutine change)
  | removeRoutine name => some (ClassDecl.removeRoutine name)
  | addConstant name value visibility => some (ClassDecl.addConstant name value visibility)
  | changeConstant name value visibility => some (ClassDecl.changeConstant name value visibility)
  | removeConstant name => some (ClassDecl.removeConstant name)
  | renameClass name => some (ClassDecl.rename name)
  | extendClass parent => some (ClassDecl.extend parent)
  | implementInterface interface => some (ClassDecl.implement interface)
  | addImport .. | removeImport _ | changeNamespace _ | addNamespace _ => none

theorem edit_of_classEdit? {op : Operation} {edit : Edit ClassDecl}
    (h : op.classEdit? = some edit) :
    op.edit = SourceFile.onFirstClass edit := by
  cases op <;> cases h <;> rfl

/-- What an operation that applies does to the contents and the headings of a file: it edits the
first class, or it replaces imports and names namespaces. -/
inductive Effect (op : Operation) (f f' : SourceFile) : Prop where
  | onClass {edit : Edit ClassDecl} {c c' : ClassDecl} (hedit : op.classEdit? = some edit)
      (hc : edit c = .ok c') (before : f.firstClass = some c) (behind : f'.firstClass = some c')
      (contents : Splices [.class_ c.bare] [.class_ c'.bare] f.contents f'.contents)
      (headings : f'.headings = f.headings)
  | onScope (contents : SourceFile.ImportsReplaced f.contents f'.contents)
      (headings : ∀ h ∈ f'.headings, h ∈ f.headings ∨ h.1.isSome)

/-- What an operation did is an edit of the first class, of the imports or of the namespaces. -/
theorem effect_of_edit {op : Operation} {f f' : SourceFile} (h : op.edit f = .ok f') :
    Effect op f f' := by
  cases hop : op.classEdit? with
  | some edit =>
      rw [edit_of_classEdit? hop] at h
      obtain ⟨c, c', hc, before, behind, contents, headings⟩ := SourceFile.onFirstClass_contents h
      exact .onClass hop hc before behind contents headings
  | none =>
      have same (ss : List Stmt) : SourceFile.ImportsReplaced ss ss :=
        ⟨[], [], nofun, ss, [], by simp, by simp⟩
      cases op with
      | addImport path localName =>
          obtain ⟨contents, headings⟩ := SourceFile.addImport_contents h
          exact .onScope contents fun heading hh => .inl (headings ▸ hh)
      | removeImport path =>
          obtain ⟨contents, headings⟩ := SourceFile.removeImport_contents h
          exact .onScope contents fun heading hh => .inl (headings ▸ hh)
      | changeNamespace name =>
          obtain ⟨n, contents, front, back, hold, hnew⟩ := SourceFile.changeNamespace_contents h
          refine .onScope (contents ▸ same _) fun heading hh => ?_
          simp only [hold, hnew, List.mem_append, List.mem_singleton] at hh ⊢
          rcases hh with (hh | rfl) | hh
          · exact .inl (.inl (.inl hh))
          · exact .inr rfl
          · exact .inl (.inr hh)
      | addNamespace name =>
          obtain ⟨contents, headings⟩ := SourceFile.addNamespace_contents h
          refine .onScope (contents ▸ same _) fun heading hh => .inr ?_
          rw [headings, List.mem_singleton] at hh
          rw [hh]
          rfl
      | _ => cases hop

/-- An operation that does not apply leaves the file as it is. -/
theorem apply_eq_or_effect (op : Operation) (f : SourceFile) :
    (op.apply f).1 = f ∨ Effect op f (op.apply f).1 := by
  unfold apply Edit.apply
  split
  next f' hf' => exact .inr (effect_of_edit hf')
  next => exact .inl rfl

/-- The file after several operations, each on what the ones before it left. -/
def run (ops : List Operation) (f : SourceFile) : SourceFile :=
  ops.foldl (fun f op => (op.apply f).1) f

/-- What every operation that applies keeps is kept by a run. -/
theorem run_induction {P : SourceFile → Prop}
    (step : ∀ {op f f'}, Effect op f f' → P f → P f') {f : SourceFile} (h : P f)
    (ops : List Operation) :
    P (run ops f) := by
  induction ops generalizing f with
  | nil => exact h
  | cons op ops ih =>
      have hop : P (op.apply f).1 := by
        rcases op.apply_eq_or_effect f with hsame | heffect
        · rwa [hsame]
        · exact step heffect h
      exact ih hop

end Operation

end ClassEdit
