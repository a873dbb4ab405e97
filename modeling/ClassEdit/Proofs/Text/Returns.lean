import ClassEdit.Proofs.Text.LineEnding
import ClassEdit.Proofs.Text.MovedLeft

/-!
A text and what is left of it when carriage returns go from the ends of its lines. Main statements:
a literal that is moved left or normalized loses nothing else, and it stays as it is if no newline
in it has a carriage return before it.
-/

namespace ClassEdit

/-- The second text is the first without some of the carriage returns at the ends of its lines. -/
inductive LosesReturns : List Char → List Char → Prop where
  | nil : LosesReturns [] []
  | keep (c : Char) {x y : List Char} (h : LosesReturns x y) : LosesReturns (c :: x) (c :: y)
  | drop {x y : List Char} (h : LosesReturns x ('\n' :: y)) : LosesReturns ('\r' :: x) ('\n' :: y)

namespace LosesReturns

variable {x y z : List Char}

theorem refl (x : List Char) : LosesReturns x x := by
  induction x with
  | nil => exact .nil
  | cons c x ih => exact .keep c ih

/-- Carriage returns may be lost in two steps. -/
theorem trans (h : LosesReturns x y) (h' : LosesReturns y z) : LosesReturns x z := by
  induction h generalizing z with
  | nil => exact h'
  | keep c _ ih =>
    cases h' with
    | keep _ h' => exact .keep c (ih h')
    | drop h' => exact .drop (ih h')
  | drop _ ih =>
    cases h' with
    | keep _ h' => exact .drop (ih (.keep _ h'))

theorem sublist (h : LosesReturns x y) : y.Sublist x := by
  induction h with
  | nil => exact List.Sublist.refl _
  | keep c _ ih => exact ih.cons_cons c
  | drop _ ih => exact ih.cons _

theorem eq_of_length (h : LosesReturns x y) (hlength : x.length ≤ y.length) : y = x :=
  h.sublist.eq_of_length_le hlength

/-- Where a line ends in what is left, it ended before, behind carriage returns at most. -/
theorem isInfix_of_newline (h : LosesReturns x ('\n' :: y)) : ['\r', '\n'] <:+: '\r' :: x := by
  generalize hline : '\n' :: y = line at h
  induction h generalizing y with
  | nil => cases hline
  | @keep c x _ _ _ =>
    obtain ⟨rfl, -⟩ := List.cons.inj hline
    exact ⟨[], x, rfl⟩
  | drop _ ih => exact (ih rfl).trans (List.suffix_cons _ _).isInfix

theorem eq_of_no_pair (h : LosesReturns x y) (hpair : ¬['\r', '\n'] <:+: x) : y = x := by
  induction h with
  | nil => rfl
  | keep c _ ih => rw [ih fun hmore => hpair (hmore.trans (List.suffix_cons _ _).isInfix)]
  | drop h => exact absurd h.isInfix_of_newline hpair

/-- A literal that is moved left. What is behind it counts only if it ends in a carriage return. -/
theorem of_movedLeft {follow : List Char} {b : Bool}
    (h : MovedLeft follow false (x.map (·, true)) y b) (hlast : x.getLast? ≠ some '\r') :
    LosesReturns x y := by
  induction x generalizing y with
  | nil =>
    cases h
    exact .nil
  | cons c x ih =>
    have hrest {d : Char} (hd : x.getLast? = some d) : d ≠ '\r' := by
      rintro rfl
      exact hlast (by rw [List.getLast?_cons, hd]; rfl)
    rcases h.of_literal with ⟨out, rfl, hmoved⟩ | ⟨rfl, hend, hmoved⟩
    · exact .keep c (ih hmoved fun hd => hrest hd rfl)
    · have hout := ih hmoved fun hd => hrest hd rfl
      cases x with
      | nil => exact absurd rfl hlast
      | cons d x =>
        cases hout with
        | keep _ hout =>
          obtain rfl := hend d rfl
          exact .drop (.keep _ hout)
        | drop hout => exact .drop (.drop hout)

theorem normalize (x : List Char) : LosesReturns x (LineEnding.normalize x) := by
  fun_induction LineEnding.normalize x with
  | case1 r ih => exact .drop (.keep _ ih)
  | case2 c r _ ih => exact .keep c ih
  | case3 => exact .nil

end LosesReturns

namespace LineEnding

/-- A text keeps all that it has if no carriage return stands before a newline. -/
theorem normalize_eq_self_iff (x : List Char) : normalize x = x ↔ ¬['\r', '\n'] <:+: x := by
  constructor
  · rintro h ⟨before, behind, rfl⟩
    have hlength := congrArg List.length h
    have hcut : before ++ ['\r', '\n'] ++ behind = before ++ '\r' :: '\n' :: behind := by simp
    rw [hcut, normalize_append (by simp), normalize, List.length_append] at hlength
    have hbefore := (LosesReturns.normalize before).sublist.length_le
    have hbehind := (LosesReturns.normalize behind).sublist.length_le
    simp only [List.length_append, List.length_cons] at hlength
    omega
  · exact (LosesReturns.normalize x).eq_of_no_pair

/-- What is left of a literal in a normalized text is the literal if no line of it ended
in a carriage return. -/
theorem normalize_eq_iff {x y : List Char} (h : LosesReturns x y) :
    normalize y = x ↔ ¬['\r', '\n'] <:+: x := by
  constructor
  · intro hx
    have hy : y = x := by
      refine h.eq_of_length ?_
      have hlength := (LosesReturns.normalize y).sublist.length_le
      rwa [hx] at hlength
    rw [hy] at hx
    exact (normalize_eq_self_iff x).1 hx
  · intro hpair
    rw [h.eq_of_no_pair hpair]
    exact (normalize_eq_self_iff x).2 hpair

/-- Of a text before another one, normalizing both leaves what moving it left can leave. -/
theorem normalize_append_movedLeft (mark : Bool) (x d : List Char) :
    ∃ y, normalize (x ++ d) = y ++ normalize d ∧ MovedLeft (normalize d) false
      (x.map (·, mark)) y false := by
  induction x with
  | nil => exact ⟨[], rfl, .nil false⟩
  | cons c x ih =>
    obtain ⟨y, hy, hmoved⟩ := ih
    by_cases hpair : c = '\r' ∧ (x ++ d).head? = some '\n'
    · obtain ⟨rfl, hnewline⟩ := hpair
      obtain ⟨r, hr⟩ := List.head?_eq_some_iff.1 hnewline
      have hdrop : normalize ('\r' :: (x ++ d)) = normalize (x ++ d) := by
        rw [hr, normalize, normalize_cons (by simp)]
      have hend : AtLineEnd (y ++ normalize d) := by
        rw [← hy, hr, normalize_cons (by simp)]
        exact fun c hc => (Option.some.inj hc).symm
      exact ⟨y, hdrop.trans hy, .trim hend hmoved⟩
    · rw [not_and] at hpair
      refine ⟨c :: y, by rw [List.cons_append, normalize_cons hpair, hy, List.cons_append], ?_⟩
      by_cases hc : c = '\n'
      · subst hc
        exact .newline (by simp) hmoved
      · exact .keep hc hmoved

end LineEnding

end ClassEdit
