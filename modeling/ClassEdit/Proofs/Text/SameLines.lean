import ClassEdit.Layout
import ClassEdit.Proofs.Text.LineEnding
import ClassEdit.Proofs.Text.Widening

/-!
Texts that differ in nothing but carriage returns before their newlines, which are gone once the
file that they stand in is normalized. Main statements: texts are put together from such texts, and
a text that begins on its line is the same with carriage returns and without.
-/

namespace ClassEdit

open LineEnding (widen)

/-- The texts are normalized to the same wherever they stand. -/
def SameLines (a b : String) : Prop :=
  ∀ p s, LineEnding.normalize (p ++ (a.toList ++ s)) = LineEnding.normalize (p ++ (b.toList ++ s))

namespace SameLines

variable {a a' b b' : String}

theorem refl (a : String) : SameLines a a := fun _ _ => rfl

theorem append (ha : SameLines a a') (hb : SameLines b b') : SameLines (a ++ b) (a' ++ b') := by
  intro p s
  rw [String.toList_append, String.toList_append, List.append_assoc, List.append_assoc, ha,
    ← List.append_assoc, hb, List.append_assoc]

theorem join {α : Type} {text text' : α → String} (h : ∀ x, SameLines (text x) (text' x))
    (xs : List α) :
    SameLines (String.join (xs.map text)) (String.join (xs.map text')) := by
  induction xs with
  | nil => exact .refl _
  | cons x xs ih =>
      rw [List.map_cons, List.map_cons, String.join_cons, String.join_cons]
      exact (h x).append ih

/-- Lists of texts that are the same but for line endings are so with commas between them. -/
theorem commaList_cons {x x' : String} {xs xs' : List String} (hx : SameLines x x')
    (hempty : xs.isEmpty = xs'.isEmpty)
    (hxs : SameLines (ClassEdit.commaList xs) (ClassEdit.commaList xs')) :
    SameLines (ClassEdit.commaList (x :: xs)) (ClassEdit.commaList (x' :: xs')) := by
  cases xs with
  | nil => cases xs' with
    | nil => simpa [ClassEdit.commaList] using hx
    | cons y' ys' => cases hempty
  | cons y ys => cases xs' with
    | nil => cases hempty
    | cons y' ys' =>
        have hcons (z y : String) (ys : List String) : ClassEdit.commaList (z :: y :: ys) =
            z ++ ", " ++ ClassEdit.commaList (y :: ys) :=
          String.intercalate_cons_of_ne_nil (List.cons_ne_nil _ _)
        rw [hcons, hcons]
        exact (hx.append (.refl _)).append hxs

theorem commaList {α : Type} {text text' : α → String} (h : ∀ x, SameLines (text x) (text' x))
    (xs : List α) :
    SameLines (ClassEdit.commaList (xs.map text)) (ClassEdit.commaList (xs.map text')) := by
  induction xs with
  | nil => exact .refl _
  | cons x xs ih => exact commaList_cons (h x) (by rw [List.isEmpty_map, List.isEmpty_map]) ih

/-- A text with carriage returns, behind a text that does not end in one. -/
theorem append_widenText {c : Char} (ha : a.toList.getLast? = some c) (hc : c ≠ '\r') (s : String) :
    SameLines (a ++ widenText s) (a ++ s) := by
  unfold widenText
  split
  next => exact .refl _
  next h =>
    intro p t
    have hlast (b : List Char) : (p ++ a.toList).getLast? = some '\r' → b.head? ≠ some '\n' := by
      simp [List.getLast?_append, ha, hc]
    simp only [String.toList_append, String.toList_ofList, List.append_assoc]
    rw [← List.append_assoc p, ← List.append_assoc p, LineEnding.normalize_append (hlast _),
      LineEnding.normalize_append (hlast _), LineEnding.normalize_widen h,
        LineEnding.normalize_append_of_not_mem h]

/-- A text with carriage returns that does not begin with a newline. -/
theorem of_widenText {s : String} (h : s.toList.head? ≠ some '\n') : SameLines (widenText s) s := by
  unfold widenText
  split
  next => exact .refl _
  next hclean =>
    cases hs : s.toList with
    | nil =>
        rw [String.toList_eq_nil_iff.1 hs]
        exact .refl _
    | cons c r =>
        rw [hs, List.mem_cons, not_or] at hclean
        have hc : c ≠ '\n' := by simpa [hs] using h
        have hr := append_widenText (a := String.ofList [c]) (by simp)
          (Ne.symm hclean.1) (String.ofList r)
        rw [widenText_of_clean hclean.2, ← String.ofList_append, ← String.ofList_append] at hr
        rw [LineEnding.widen_cons hc, ← String.ofList_toList (s := s), hs]
        exact hr

/-- A text with carriage returns at the beginning of a file. -/
theorem normalize_widenText (h : SameLines a b) (s : String) :
    LineEnding.normalize (widenText s ++ a).toList = LineEnding.normalize (s ++ b).toList := by
  have hb := h s.toList []
  simp only [List.append_nil, ← String.toList_append] at hb
  unfold widenText
  split
  next => exact hb
  next hclean =>
    have ha := h [] []
    simp only [List.append_nil, List.nil_append] at ha
    rw [String.toList_append, String.toList_ofList, LineEnding.normalize_widen hclean, ha,
      String.toList_append, LineEnding.normalize_append_of_not_mem hclean]

end SameLines

end ClassEdit
