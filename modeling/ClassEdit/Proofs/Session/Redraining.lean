import ClassEdit.Proofs.Edit.Building
import ClassEdit.Proofs.Edit.Repeating
import ClassEdit.Session.Basic

/-!
Draining a queue of additions again. What the first drain added is there, so each edit that was
built is built again and refused; an edit that could not be built cannot be built the second time
either. Main statement: the second drain leaves the file as it is and reports nothing but skips.
-/

namespace ClassEdit

def EditKind.isOfClass : EditKind → Bool
  | addImport | removeImport | changeNamespace | addNamespace => false
  | _ => true

theorem Operation.classEdit?_of_mem_kinds {op : Operation} {k : EditKind} (h : k ∈ op.kinds) :
    op.classEdit?.isSome = k.isOfClass := by
  revert k
  cases op <;> simp [kinds, classEdit?, EditKind.isOfClass]

/-- The descriptor is a built-in edit that adds something, if it can be built at all: an import
whose path has at most one separator before it, a routine that takes the place of no other one,
and so on. -/
structure Descriptor.IsAddition (d : Descriptor) : Prop where
  builtin : d.source = .builtin
  repeatable : ∀ op, Operation.ofParams d.kind d.params = .ok op → op.isRepeatable

/-- The report of an addition that is made again: without a class there is none to add to, otherwise
what was to be added is there. -/
def Report.again (f : SourceFile) (r : Report) : Report :=
  let isOfClass := (EditKind.ofName? r.kind).any (·.isOfClass)
  ⟨r.kind, .skipped (if isOfClass && f.firstClass.isNone then .notFound else .duplicate)⟩

namespace Descriptor.IsAddition

variable {d : Descriptor} {r : Registry}

/-- An addition cannot be built, or it is an operation that can be repeated. -/
theorem instantiate_cases (h : d.IsAddition) (r : Registry) :
    (∃ e, d.instantiate r = .error e) ∨
      ∃ op : Operation, d.instantiate r = .ok op.apply ∧ op.isRepeatable ∧
        ∀ f outcome, op.IsDone f →
          op.apply f = (f, (Report.again f ⟨d.kind, outcome⟩).outcome) := by
  rw [instantiate, h.builtin]
  cases hbuilt : Operation.ofParams d.kind d.params with
  | error e => exact .inl ⟨e, rfl⟩
  | ok op =>
      refine .inr ⟨op, rfl, h.repeatable op hbuilt, fun f outcome hdone => ?_⟩
      obtain ⟨k, hk, hname⟩ := Operation.kind_mem_of_ofParams hbuilt
      have hkind : (EditKind.ofName? d.kind).any (·.isOfClass) = op.classEdit?.isSome := by
        rw [hname, Operation.classEdit?_of_mem_kinds hk, Option.any_some]
      rw [hdone.apply_eq, Report.again, hkind, Operation.skipReason]

/-- Additions leave all that was in the file. -/
theorem drain_within {ds : List Descriptor} (h : ∀ d ∈ ds, d.IsAddition) (f : SourceFile) :
    f.Within (drain r ds f).file := by
  induction ds generalizing f with
  | nil => exact .refl f
  | cons d ds ih =>
      obtain ⟨hd, hds⟩ := List.forall_mem_cons.1 h
      rcases hd.instantiate_cases r with ⟨e, he⟩ | ⟨op, hop, hrepeatable, -⟩
      · simp only [drain, he]
        exact .refl f
      · simp only [drain, hop]
        exact (Operation.apply_isDone hrepeatable f).1.trans (ih hds _)

/-- Additions that were drained do nothing to a file that has what they left. -/
theorem drain_of_within {ds : List Descriptor} (h : ∀ d ∈ ds, d.IsAddition) {f g : SourceFile}
    (hwithin : (drain r ds f).file.Within g) :
    drain r ds g = ⟨g, (drain r ds f).reports.map (Report.again g), (drain r ds f).error⟩ := by
  induction ds generalizing f with
  | nil => rfl
  | cons d ds ih =>
      obtain ⟨hd, hds⟩ := List.forall_mem_cons.1 h
      rcases hd.instantiate_cases r with ⟨e, he⟩ | ⟨op, hop, hrepeatable, hagain⟩
      · simp only [drain, he]
        rfl
      · simp only [drain, hop] at hwithin ⊢
        have hkept : (op.apply f).1.Within g := (drain_within hds _).trans hwithin
        have hdone : op.IsDone g :=
          (Operation.apply_isDone hrepeatable f).2.within hrepeatable hkept
        simp only [hagain g (op.apply f).2 hdone, ih hds hwithin]
        rfl

end Descriptor.IsAddition

namespace Session

theorem foldl_enqueue (ds : List Descriptor) (s : Session) :
    ds.foldl enqueue s = { s with pending := s.pending ++ ds } := by
  induction ds generalizing s with
  | nil => simp
  | cons d ds ih => simp [ih, enqueue]

/-- A queue of additions that is drained again leaves the file as it is. Each addition is skipped,
as often as it stands in the queue and whatever stands before it; an error that ended the first
drain ends the second one at the same place. -/
theorem applyPending_again {s : Session} (h : ∀ d ∈ s.pending, d.IsAddition) :
    let first := s.applyPending
    let skips := (drain s.config.registry s.pending s.file).reports.map (Report.again first.1.file)
    (s.pending.foldl enqueue first.1).applyPending =
      ({ first.1 with history := first.1.history ++ skips }, first.2.map fun _ => skips) := by
  intro first skips
  have hfile : (drain s.config.registry s.pending s.file).file.Within first.1.file := .refl _
  have hagain := Descriptor.IsAddition.drain_of_within h hfile
  rw [foldl_enqueue]
  simp only [applyPending, first, List.nil_append, skips] at hagain ⊢
  rw [hagain]
  cases (drain s.config.registry s.pending s.file).error <;> rfl

/-- A mixin for which there is no class, an import, and the namespace that the import is moved
into. -/
theorem applyPending_again_namespace :
    let mixin : Descriptor := ⟨"add_mixin", .supplied [("mixin", some (.string "M"))], .builtin⟩
    let import_ : Descriptor :=
      ⟨"add_import", .supplied [("path", some (.string "\\P\\Q"))], .builtin⟩
    let named : Descriptor :=
      ⟨"add_namespace", .supplied [("namespace", some (.string "N"))], .builtin⟩
    let s : Session :=
      ⟨⟨none, [.raw ⟨.empty, "f();"⟩], [], none⟩, "", none, [mixin, import_, named], [], .standard⟩
    (∀ d ∈ s.pending, d.IsAddition) ∧
      s.applyPending.2 = .ok [⟨"add_mixin", .skipped .notFound⟩, ⟨"add_import", .applied⟩,
        ⟨"add_namespace", .applied⟩] ∧
      let again := (s.pending.foldl enqueue s.applyPending.1).applyPending
      again.1.file = s.applyPending.1.file ∧
        again.2 = .ok [⟨"add_mixin", .skipped .notFound⟩, ⟨"add_import", .skipped .duplicate⟩,
          ⟨"add_namespace", .skipped .duplicate⟩] := by
  intro mixin import_ named s
  have hmixin : Operation.ofParams mixin.kind mixin.params = .ok (.addMixin "M") := rfl
  have himport : Operation.ofParams import_.kind import_.params = .ok (.addImport "\\P\\Q" none) :=
    rfl
  have hnamed : Operation.ofParams named.kind named.params = .ok (.addNamespace "N") := rfl
  have hadditions : ∀ d ∈ s.pending, d.IsAddition := by
    simp only [s, List.forall_mem_cons, List.not_mem_nil, false_imp_iff, implies_true, and_true]
    refine ⟨⟨rfl, fun op h => ?_⟩, ⟨rfl, fun op h => ?_⟩, ⟨rfl, fun op h => ?_⟩⟩
    · obtain rfl := Except.ok.inj (hmixin.symm.trans h)
      rfl
    · obtain rfl := Except.ok.inj (himport.symm.trans h)
      rfl
    · obtain rfl := Except.ok.inj (hnamed.symm.trans h)
      rfl
  have hagain := applyPending_again hadditions
  dsimp only at hagain ⊢
  rw [hagain]
  exact ⟨hadditions, rfl, rfl, rfl⟩

end Session

end ClassEdit
