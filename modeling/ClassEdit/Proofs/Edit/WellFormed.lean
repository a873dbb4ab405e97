import ClassEdit.Proofs.Edit.Effect
import ClassEdit.Proofs.Edit.Members
import ClassEdit.Proofs.File.Reading
import ClassEdit.Proofs.File.WellFormed

/-!
Edits of well-formed files. Whatever is added declares something, a statement goes with the last
thing that is removed from it, and the visibility that takes the place of the old keyword is a
modifier as well. Main statement: files are well-formed when they are read and after every run of
operations, and no operation makes an import of nothing.
-/

namespace ClassEdit

theorem Modifiers.withVisibility_ne_empty (m : Modifiers) (v : Visibility) :
    m.withVisibility v ≠ .empty := by
  intro h
  have hv := congrArg Modifiers.visibility h
  cases hv

namespace Member

theorem IsWellFormed.eraseItem {m : Member} (h : m.IsWellFormed) (hmore : 1 < m.itemCount)
    (j : Nat) :
    (m.eraseItem j).IsWellFormed := by
  cases m with
  | mixins use => exact eraseIdx_ne_nil hmore j
  | constants g => exact eraseIdx_ne_nil hmore j
  | fields g => exact ⟨eraseIdx_ne_nil hmore j, h.2⟩
  | routine r => exact h

theorem IsWellFormed.mapConstants {m : Member} (h : m.IsWellFormed) (value : Option Value)
    (visibility : Option Visibility) (j : Nat) :
    (m.mapConstants (.change value visibility j)).IsWellFormed := by
  cases m with
  | constants g =>
      cases value <;> cases visibility <;>
        simpa [Member.mapConstants, ConstantGroup.change, IsWellFormed] using h
  | _ => exact h

/-- A field of which the visibility changes still has a modifier. -/
theorem IsWellFormed.changeFields {m : Member} (h : m.IsWellFormed) (s : FieldSpec) (j : Nat) :
    (m.mapFields (.change s j)).IsWellFormed := by
  cases m with
  | fields g =>
      obtain ⟨name, default, visibility, type⟩ := s
      refine ⟨?_, ?_⟩
      · cases default <;> cases visibility <;> cases type <;>
          simpa [FieldGroup.change] using h.1
      · cases visibility with
        | none => cases default <;> cases type <;> exact h.2
        | some v => cases default <;> cases type <;> exact Modifiers.withVisibility_ne_empty _ v
  | _ => exact h

theorem IsWellFormed.extendFields {m : Member} (h : m.IsWellFormed) (additions : Value) (j : Nat) :
    (m.mapFields (.extend additions j)).IsWellFormed := by
  cases m with
  | fields g => exact ⟨by simpa [FieldGroup.extend] using h.1, h.2⟩
  | _ => exact h

theorem IsWellFormed.mapRoutine {m : Member} (h : m.IsWellFormed) (f : Routine → Routine) :
    (m.mapRoutine f).IsWellFormed := by
  cases m <;> exact h

end Member

namespace ClassDecl

variable {c c' : ClassDecl}

/-- A file is well-formed if what stands in it is and if its namespaces without braces have
names. -/
theorem isWellFormed_iff : c.IsWellFormed ↔ ∀ m ∈ c.content, m.IsWellFormed := by
  simp [IsWellFormed, content]

/-- A class stays well-formed if what its members give way to is. -/
theorem IsWellFormed.splices {old new : List Member} (h : c.IsWellFormed)
    (hsplices : Splices old new c.content c'.content) (hnew : ∀ m ∈ new, m.IsWellFormed) :
    c'.IsWellFormed :=
  isWellFormed_iff.2 (hsplices.forall_mem (isWellFormed_iff.1 h) hnew)

theorem IsWellFormed.addUnless {β : Type} {found : Option β} {m : Member} (h : c.IsWellFormed)
    (hedit : addUnless found m c = .ok c') (hm : m.IsWellFormed) : c'.IsWellFormed := by
  obtain ⟨-, rfl⟩ := addUnless_eq_ok hedit
  exact h.splices (content_insertMember c m) (List.forall_mem_singleton.2 hm)

theorem IsWellFormed.removeItem {f : MemberStmt → Option Nat} (h : c.IsWellFormed)
    (hedit : atPlace (findIn f c.members) c.removeItem = .ok c') : c'.IsWellFormed := by
  obtain ⟨i, j, m, hm, rfl⟩ := atPlace_findIn_eq_ok hedit
  have hwell : m.member.IsWellFormed := h m (List.mem_of_getElem? hm)
  rcases content_removeItem hm j with hgone | ⟨hmore, hless⟩
  · exact h.splices hgone (List.forall_mem_nil _)
  · exact h.splices hless (List.forall_mem_singleton.2 (hwell.eraseItem hmore j))

theorem IsWellFormed.mapMember {i : Nat} {m : MemberStmt} {g : Member → Member} (h : c.IsWellFormed)
    (hm : c.members[i]? = some m) (hg : m.member.IsWellFormed → (g m.member).IsWellFormed) :
    (c.mapMember i g).IsWellFormed :=
  h.splices (content_mapMember hm g)
    (List.forall_mem_singleton.2 (hg (h m (List.mem_of_getElem? hm))))

/-- A change of what is found in a statement. -/
theorem IsWellFormed.changeItem {f : MemberStmt → Option Nat} {g : Nat → Member → Member}
    (h : c.IsWellFormed) (hg : ∀ {m} (j : Nat), m.IsWellFormed → (g j m).IsWellFormed)
    (hedit : atPlace (findIn f c.members) (fun (i, j) => c.mapMember i (g j)) = .ok c') :
    c'.IsWellFormed := by
  obtain ⟨i, j, m, hm, rfl⟩ := atPlace_findIn_eq_ok hedit
  exact h.mapMember hm (hg j)

/-- An operation on a class leaves no member that declares nothing. -/
theorem IsWellFormed.edit {op : Operation} {edit : Edit ClassDecl} (h : c.IsWellFormed)
    (hop : op.classEdit? = some edit) (hedit : edit c = .ok c') : c'.IsWellFormed := by
  cases op <;> cases hop
  case addMixin name => exact h.addUnless hedit (List.cons_ne_nil _ _)
  case addField spec =>
    exact h.addUnless hedit ⟨List.cons_ne_nil _ _, Modifiers.withVisibility_ne_empty .empty _⟩
  case addConstant name value visibility => exact h.addUnless hedit (List.cons_ne_nil _ _)
  case removeMixin name => exact h.removeItem hedit
  case removeField name => exact h.removeItem hedit
  case removeConstant name => exact h.removeItem hedit
  case changeField spec => exact h.changeItem (fun j hm => hm.changeFields spec j) hedit
  case extendField name additions =>
    exact h.changeItem (fun j hm => hm.extendFields additions j) hedit
  case changeConstant name value visibility =>
    exact h.changeItem (fun j hm => hm.mapConstants value visibility j) hedit
  case addRoutine spec =>
    obtain ⟨-, ⟨-, hsplices⟩ | ⟨r, -, hsplices⟩⟩ := addRoutine_eq_ok hedit
    · exact h.splices hsplices (List.forall_mem_singleton.2 trivial)
    · exact h.splices hsplices (List.forall_mem_singleton.2 trivial)
  case changeRoutine change =>
    obtain ⟨i, m, hm, rfl⟩ := atPlace_findRoutine_eq_ok hedit
    exact h.mapMember hm fun hwell => hwell.mapRoutine _
  case removeRoutine name =>
    obtain ⟨i, m, hm, rfl⟩ := atPlace_findRoutine_eq_ok hedit
    exact h.splices (content_removeSpaced hm) (List.forall_mem_nil _)
  case renameClass name =>
    cases hedit
    exact h
  case extendClass parent =>
    simp only [extend] at hedit
    split at hedit <;> cases hedit
    exact h
  case implementInterface interface =>
    simp only [implement] at hedit
    split at hedit <;> cases hedit
    exact h

end ClassDecl

namespace Stmt

theorem isWellFormedInside_bare (s : Stmt) : s.bare.IsWellFormedInside ↔ s.IsWellFormedInside := by
  cases s <;> exact Iff.rfl

/-- A statement of a file is well-formed if its contents are and a namespace without braces is
named. -/
theorem isWellFormed_iff (s : Stmt) :
    s.IsWellFormed ↔ (∀ t ∈ s.contents, t.IsWellFormedInside) ∧
      ∀ h ∈ s.heading?, h.2 = false → h.1.isSome := by
  cases s with
  | namespace_ n =>
      simp [IsWellFormed, contents, heading?, namespace?, isWellFormedInside_bare, and_comm]
  | _ => simp [IsWellFormed, contents, heading?, namespace?, isWellFormedInside_bare]

end Stmt

namespace SourceFile

variable {f f' : SourceFile}

/-- A file is well-formed if its statements are and its namespaces without braces have names. -/
theorem isWellFormed_iff :
    f.IsWellFormed ↔ (∀ s ∈ f.contents, s.IsWellFormedInside) ∧
      ∀ h ∈ f.headings, h.2 = false → h.1.isSome := by
  simp only [IsWellFormed, contents, headings, List.mem_flatMap, List.mem_filterMap,
    Stmt.isWellFormed_iff]
  constructor
  · intro hf
    refine ⟨?_, ?_⟩
    · rintro t ⟨s, hs, ht⟩
      exact (hf s hs).1 t ht
    · rintro h ⟨s, hs, hh⟩
      exact (hf s hs).2 h hh
  · rintro ⟨hcontents, hheadings⟩ s hs
    exact ⟨fun t ht => hcontents t ⟨s, hs, ht⟩, fun h hh => hheadings h ⟨s, hs, hh⟩⟩

/-- Whatever an operation did, it left a well-formed file. -/
theorem IsWellFormed.effect {op : Operation} (h : f.IsWellFormed) (heffect : op.Effect f f') :
    f'.IsWellFormed := by
  obtain ⟨hcontents, hheadings⟩ := isWellFormed_iff.1 h
  rw [isWellFormed_iff]
  cases heffect with
  | @onClass edit c c' hedit hc before behind contents headings =>
      have hclass : c.IsWellFormed := hcontents _ (contents.mem_old (List.mem_singleton_self _))
      have hclass' : c'.IsWellFormed := hclass.edit hedit hc
      exact ⟨contents.forall_mem hcontents (List.forall_mem_singleton.2 hclass'),
        headings ▸ hheadings⟩
  | onScope contents headings =>
      obtain ⟨old, new, -, hsplices⟩ := contents
      refine ⟨hsplices.forall_mem hcontents ?_, fun heading hh => ?_⟩
      · simp only [List.map_map, List.forall_mem_map]
        exact fun _ _ => trivial
      · rcases headings heading hh with hold | hnamed
        · exact hheadings heading hold
        · exact fun _ => hnamed

def emptyImports (f : SourceFile) : List Import := f.imports.filter fun i => i.items.isEmpty

/-- Every import of nothing was there before, and as often. -/
theorem emptyImports_effect {op : Operation} (heffect : op.Effect f f') :
    f'.emptyImports.Sublist f.emptyImports := by
  rw [emptyImports, emptyImports, ← imports_contents, ← imports_contents]
  cases heffect with
  | onClass hedit hc before behind contents headings =>
      have himports := contents.flatMap Stmt.imports
      exact himports.eq_of_nil ▸ List.Sublist.refl _
  | onScope contents headings =>
      obtain ⟨old, new, hnew, hsplices⟩ := contents
      refine (hsplices.flatMap Stmt.imports).filter_sublist fun i hi => ?_
      simp only [List.map_map, List.flatMap_map, List.mem_flatMap] at hi
      obtain ⟨i', hi', hmem⟩ := hi
      obtain rfl := List.mem_singleton.1 hmem
      simpa using hnew i' hi'

/-- Files are well-formed as they are read and stay so in every run of operations, and no operation
makes an import of nothing. -/
theorem ofSource_run_wellFormed :
    (∀ source f, ofSource source = .ok f → f.IsWellFormed) ∧
    (∀ (f : SourceFile) (ops : List Operation), f.IsWellFormed →
      (Operation.run ops f).IsWellFormed) ∧
    ∀ (f : SourceFile) (op : Operation), (op.apply f).1.emptyImports.Sublist f.emptyImports := by
  refine ⟨fun source f => ofSource_wellFormed, fun f ops h => ?_, fun f op => ?_⟩
  · exact Operation.run_induction (fun heffect h => h.effect heffect) h ops
  · rcases op.apply_eq_or_effect f with hsame | heffect
    · exact hsame.symm ▸ List.Sublist.refl _
    · exact emptyImports_effect heffect

/-- A namespace as it is read, and a legacy field that becomes private and moves into a
namespace. -/
theorem ofSource_run_wellFormed_namespace :
    let legacy : Member := .fields ⟨{ Modifiers.empty with isVar := true }, none, [⟨"x", none⟩]⟩
    let f : SourceFile :=
      ⟨none, [.class_ ⟨.empty, [], "A", none, [], [.made legacy], []⟩], [], none⟩
    (∃ h, ofSource "<?php\n\nnamespace N;\n" = .ok h ∧ h.IsWellFormed) ∧
      f.IsWellFormed ∧
      (Operation.run [.changeField ⟨"x", none, some .owner, none⟩, .addNamespace "N"]
        f).IsWellFormed := by
  intro legacy f
  have hf : f.IsWellFormed := by
    simp [f, legacy, IsWellFormed, Stmt.IsWellFormed, Stmt.IsWellFormedInside,
      ClassDecl.IsWellFormed, MemberStmt.made, Member.IsWellFormed, Modifiers.empty]
  exact ⟨⟨_, ofSource_namespace, ofSource_run_wellFormed.1 _ _ ofSource_namespace⟩, hf,
    ofSource_run_wellFormed.2.1 f _ hf⟩

end SourceFile

end ClassEdit
