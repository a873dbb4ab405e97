import ClassEdit.Edit.Registry
import ClassEdit.Inspect.Edit

/-!
Draining a queue of edits. The edits are built and applied in turn, each to the file that the ones
before it left; the first that cannot be built ends the drain, and what was applied before it stays.
Main statement: a queue in two parts is drained part by part.
-/

namespace ClassEdit

structure Report where
  kind : String
  outcome : Outcome
deriving DecidableEq

namespace Report

def text (r : Report) : String :=
  r.kind ++ ": " ++ r.outcome.text

def isApplied (r : Report) : Bool :=
  r.outcome == .applied

end Report

instance : Inspect Report where
  inspect r :=
  Inspect.record "OperationReport" [("kind", inspect r.kind), ("outcome", inspect r.outcome)]

/-- What a drain came to. -/
structure Drained where
  file : SourceFile
  /-- One report for every edit that was built, in order. -/
  reports : List Report
  /-- The error that ended the drain. -/
  error : Option EditError

/-- Builds and applies edits in turn. -/
def drain (r : Registry) : List Descriptor → SourceFile → Drained
  | [], f => ⟨f, [], none⟩
  | d :: ds, f =>
    match d.instantiate r with
    | .error e => ⟨f, [], some e⟩
    | .ok action =>
      let (g, outcome) := action f
      let rest := drain r ds g
      { rest with reports := ⟨d.kind, outcome⟩ :: rest.reports }

/-- What is drained in two parts is drained as one, as long as the first part has no error. -/
theorem drain_append (r : Registry) (ds es : List Descriptor) (f : SourceFile) :
    drain r (ds ++ es) f =
      let first := drain r ds f
      match first.error with
      | some _ => first
      | none =>
        let second := drain r es first.file
        { second with reports := first.reports ++ second.reports } := by
  induction ds generalizing f with
  | nil => rfl
  | cons d ds ih =>
    simp only [List.cons_append, drain]
    split
    · rfl
    · rw [ih]
      dsimp only
      split <;> simp_all

end ClassEdit
