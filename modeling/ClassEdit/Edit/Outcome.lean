/-!
What an edit does to what it is applied to. An edit that does not apply says why and has no result,
so it can change nothing.
-/

namespace ClassEdit

/-- Why an edit left the file as it was. -/
inductive SkipReason where
  /-- What was to be added is there already. -/
  | duplicate
  /-- What was to be changed or removed is not there. -/
  | notFound
deriving DecidableEq

inductive Outcome where
  | applied
  | skipped (reason : SkipReason)
deriving DecidableEq

namespace Outcome

def text : Outcome → String
  | applied => "applied"
  | skipped .duplicate => "skipped (duplicate)"
  | skipped .notFound => "skipped (not found)"

end Outcome

/-- A change to a value, or the reason why there is none. -/
abbrev Edit (α : Type) := α → Except SkipReason α

namespace Edit

/-- What is left of a value, and what happened to it. -/
def apply {α : Type} (edit : Edit α) (x : α) : α × Outcome :=
  match edit x with
  | .ok y => (y, .applied)
  | .error reason => (x, .skipped reason)

/-- The edit of the first element that the function has one for; without one there is nothing to
edit. -/
def atFirst {α : Type} (f : α → Option (Except SkipReason α)) : Edit (List α)
  | [] => .error .notFound
  | x :: xs =>
    match f x with
    | some result => result.map (· :: xs)
    | none => (atFirst f xs).map (x :: ·)

theorem apply_of_skipped {α : Type} {edit : Edit α} {x : α} {reason : SkipReason}
    (h : (edit.apply x).2 = .skipped reason) : (edit.apply x).1 = x := by
  unfold apply at h ⊢
  split
  next hy => rw [hy] at h; cases h
  next => rfl

end Edit

end ClassEdit
