import ClassEdit.Proofs.Text.MovedLeft
import ClassEdit.Proofs.Token.Lexing

/-!
What stands behind a lexeme does not matter if it is the end of a line. Main statement: a lexeme
that stays on its line is cut off the same way if a line break comes in its place behind it.
-/

namespace ClassEdit

def TokenKind.spansLines : TokenKind → Bool
  | html | comment | quoted | heredoc => true
  | _ => false

namespace Lexeme

/-- Lexemes of the same kind, with the same text if they stay on their lines. -/
structure Same (l l' : Lexeme) : Prop where
  kind : l'.kind = l.kind
  text : l.kind.spansLines = false → l'.text = l.text

namespace Same

variable {l l' : Lexeme}

theorem string_eq (h : l.Same l') (hline : l.kind.spansLines = false) : l'.string = l.string :=
  congrArg String.ofList (h.text hline)

theorem isWord (h : l.Same l') (w : String) : l'.isWord w = l.isWord w := by
  unfold Lexeme.isWord
  rw [h.kind]
  by_cases hword : l.kind = .word
  · rw [h.text (by rw [hword]; rfl)]
  · rw [beq_eq_false_iff_ne.2 hword]
    rfl

theorem isAnyWord (h : l.Same l') (ws : List String) : l'.isAnyWord ws = l.isAnyWord ws :=
  congrArg ws.any (funext h.isWord)

end Same

end Lexeme

namespace Scan

open Quoted (isNameStart)

theorem AtBreak.takeWhile_eq_nil {p : Char → Bool} (hr : p '\r' = false)
    (hn : p '\n' = false) {e : List Char} (he : AtBreak e) : e.takeWhile p = [] := by
  cases e with
  | nil => rfl
  | cons c e =>
    rcases he c rfl with rfl | rfl
    · rw [List.takeWhile_cons_of_neg (by simp [hr])]
    · rw [List.takeWhile_cons_of_neg (by simp [hn])]

/-- Of what begins with a line break, the test fails. -/
theorem any_head?_of_atBreak {p : Char → Bool} (hr : p '\r' = false)
    (hn : p '\n' = false) {e : List Char} (he : AtBreak e) : e.head?.any p = false := by
  cases e with
  | nil => rfl
  | cons c e => rcases he c rfl with rfl | rfl <;> assumption

/-- The rule counts characters on one line, and a line break behind them ends them like anything
else. -/
structure IsLocal (f : List Char → Nat) : Prop where
  le (cs : List Char) : f cs ≤ cs.length
  plain (cs : List Char) : ∀ c ∈ cs.take (f cs), c ≠ '\r' ∧ c ≠ '\n'
  cut {u d e : List Char} (he : AtBreak e) (h : f (u ++ d) ≤ u.length) : f (u ++ e) = f (u ++ d)

namespace IsLocal

variable {f g : List Char → Nat}

/-- To count characters of a class is a local rule, unless line breaks are of the class. -/
theorem takeWhile {p : Char → Bool} (hr : p '\r' = false) (hn : p '\n' = false) :
    IsLocal fun cs => (cs.takeWhile p).length where
  le cs := (List.takeWhile_prefix p).length_le
  plain cs c hc := by
    rw [← List.prefix_iff_eq_take.1 (List.takeWhile_prefix p)] at hc
    have hp := List.all_eq_true.1 List.all_takeWhile c hc
    constructor
    · rintro rfl
      exact Bool.noConfusion (hr.symm.trans hp)
    · rintro rfl
      exact Bool.noConfusion (hn.symm.trans hp)
  cut {u d e} he h := by
    induction u with
    | nil =>
      rw [List.nil_append] at h
      rw [List.nil_append, List.nil_append, AtBreak.takeWhile_eq_nil hr hn he]
      exact (Nat.le_zero.1 h).symm
    | cons c u ih =>
      rw [List.cons_append, List.takeWhile_cons] at h ⊢
      rw [List.cons_append, List.takeWhile_cons]
      split
      next hc =>
        rw [if_pos hc] at h
        rw [List.length_cons, List.length_cons, ih (Nat.le_of_succ_le_succ h)]
      next => rfl

/-- One rule, and then another behind what it counts. -/
theorem andThen (hf : IsLocal f) (hg : IsLocal g) :
    IsLocal fun cs => f cs + g (cs.drop (f cs)) where
  le cs := by
    have hrest := hg.le (cs.drop (f cs))
    have hle := hf.le cs
    rw [List.length_drop] at hrest
    omega
  plain cs c hc := by
    rw [List.take_add, List.mem_append] at hc
    exact hc.elim (hf.plain cs c) (hg.plain _ c)
  cut {u d e} he h := by
    have hu : f (u ++ d) ≤ u.length := Nat.le_trans (Nat.le_add_right _ _) h
    have hdrop (b : List Char) : (u ++ b).drop (f (u ++ d)) = u.drop (f (u ++ d)) ++ b :=
      List.drop_append_of_le_length hu
    simp only [hf.cut he hu, hdrop] at h ⊢
    rw [hg.cut he]
    rw [List.length_drop]
    omega

theorem zero : IsLocal fun _ => 0 where
  le _ := Nat.zero_le _
  plain _ _ hc := absurd hc List.not_mem_nil
  cut _ _ := rfl

/-- A local rule counts nothing at a line break. -/
theorem eq_zero (hf : IsLocal f) {e : List Char} (he : AtBreak e) : f e = 0 := by
  cases e with
  | nil => exact Nat.le_zero.1 (hf.le [])
  | cons c e =>
    have hplain := hf.plain (c :: e) c
    cases hn : f (c :: e) with
    | zero => rfl
    | succ n =>
      rw [hn, List.take_succ_cons] at hplain
      obtain ⟨hr, hne⟩ := hplain List.mem_cons_self
      exact absurd (he c rfl) (not_or.2 ⟨hr, hne⟩)

/-- The first character decides between two rules. -/
theorem choose {p : Char → Bool} (hr : p '\r' = false) (hn : p '\n' = false) (hf : IsLocal f)
    (hg : IsLocal g) :
    IsLocal fun cs => if cs.head?.any p then f cs else g cs where
  le cs := by
    split
    next => exact hf.le cs
    next => exact hg.le cs
  plain cs := by
    split
    next => exact hf.plain cs
    next => exact hg.plain cs
  cut {u d e} he h := by
    cases u with
    | nil =>
      rw [List.nil_append, any_head?_of_atBreak hr hn he, if_neg Bool.false_ne_true, hg.eq_zero he]
      exact (Nat.le_zero.1 h).symm
    | cons c u =>
      have hhead (b : List Char) : (c :: u ++ b).head?.any p = p c := rfl
      by_cases hc : p c = true
      · rw [if_pos ((hhead d).trans hc)] at h
        rw [if_pos ((hhead e).trans hc), if_pos ((hhead d).trans hc)]
        exact hf.cut he h
      · rw [if_neg fun hd => hc ((hhead d).symm.trans hd)] at h
        rw [if_neg fun hd => hc ((hhead e).symm.trans hd), if_neg fun hd =>
          hc ((hhead d).symm.trans hd)]
        exact hg.cut he h

end IsLocal

/-- The characters that a rule counts and one before them. The rule may be asked to count at least
one. -/
def behind (p : Char → Bool) (must : Bool) (f : List Char → Nat) : List Char → Nat
  | [] => 0
  | c :: r => if p c && (!must || 0 < f r) then 1 + f r else 0

theorem behind_cons (p : Char → Bool) (must : Bool) (f : List Char → Nat)
    (c : Char) (r : List Char) :
    behind p must f (c :: r) = if p c && (!must || 0 < f r) then 1 + f r else 0 := rfl

/-- A local rule behind one character is local. -/
theorem IsLocal.behind {f : List Char → Nat} {p : Char → Bool} (must : Bool) (hr : p '\r' = false)
    (hn : p '\n' = false) (hf : IsLocal f) : IsLocal (Scan.behind p must f) where
  le cs := by
    cases cs with
    | nil => exact Nat.le_refl _
    | cons c r =>
      have hle := hf.le r
      rw [behind_cons]
      split
      next => rw [List.length_cons]; omega
      next => exact Nat.zero_le _
  plain cs := by
    cases cs with
    | nil => exact List.forall_mem_nil _
    | cons c r =>
      rw [behind_cons]
      split
      next hc =>
        rw [Nat.add_comm, List.take_succ_cons]
        have hp := (Bool.and_eq_true_iff.1 hc).1
        refine List.forall_mem_cons.2 ⟨⟨?_, ?_⟩, hf.plain r⟩
        · rintro rfl
          exact Bool.noConfusion (hr.symm.trans hp)
        · rintro rfl
          exact Bool.noConfusion (hn.symm.trans hp)
      next => exact List.forall_mem_nil _
  cut {u d e} he h := by
    cases u with
    | nil =>
      have hd : Scan.behind p must f d = 0 := Nat.le_zero.1 h
      rw [List.nil_append, List.nil_append, hd]
      cases e with
      | nil => rfl
      | cons c e => rcases he c rfl with rfl | rfl <;> simp [Scan.behind, hr, hn]
    | cons c u =>
      have hsame : f (u ++ d) ≤ u.length → f (u ++ e) = f (u ++ d) := hf.cut he
      rw [List.cons_append, behind_cons] at h ⊢
      rw [List.cons_append, behind_cons]
      split at h
      next hc =>
        rw [List.length_cons] at h
        rw [hsame (by omega)]
      next hc =>
        cases hp : p c with
        | false => rfl
        | true =>
          have hzero : f (u ++ d) = 0 := by simp [hp] at hc; omega
          rw [hsame (by omega)]


theorem isLocal_wordLength : IsLocal wordLength :=
  .takeWhile (by decide) (by decide)

theorem isLocal_digitsLength : IsLocal digitsLength :=
  .takeWhile (by decide) (by decide)

def wholeLength (cs : List Char) : Nat :=
  if cs.head?.any Char.isDigit then digitsLength cs else 0

theorem isLocal_wholeLength : IsLocal wholeLength :=
  .choose (by decide) (by decide) isLocal_digitsLength .zero

theorem wholeLength_pos {cs : List Char} :
    0 < wholeLength cs ↔ cs.head?.any Char.isDigit = true := by
  unfold wholeLength
  split
  next h =>
    cases cs with
    | nil => cases h
    | cons c r =>
      have hc : c.isDigit = true := h
      simp [digitsLength, hc]
  next h => simp [h]

def placesLength : List Char → Nat := behind (· == '.') true wholeLength

/-- The exponent of a number, by rules that are local. -/
theorem exponentLength_eq : exponentLength = behind (fun c => c == 'e' || c == 'E') true fun cs =>
    if cs.head?.any fun s => s == '+' || s == '-' then behind (fun s => s == '+' || s == '-')
      true wholeLength cs
    else wholeLength cs := by
  funext cs
  cases cs with
  | nil => rfl
  | cons c r =>
    rw [behind_cons]
    cases r with
    | nil => simp [exponentLength, wholeLength]
    | cons s r =>
      by_cases hs : (s == '+' || s == '-') = true
      · by_cases hd : r.head?.any Char.isDigit = true
        · have hpos := wholeLength_pos.2 hd
          have hwhole : wholeLength r = digitsLength r := if_pos hd
          have hsigned : 0 < 1 + wholeLength r := Nat.lt_add_left 1 hpos
          have hsum : 2 + wholeLength r = 1 + (1 + wholeLength r) := Nat.add_assoc 1 1 _
          rw [List.head?_eq_getElem?] at hd
          simp [exponentLength, behind_cons, hs, hd, ← hwhole, hpos, hsigned, hsum]
        · have hwhole : wholeLength r = 0 := if_neg hd
          rw [List.head?_eq_getElem?] at hd
          simp [exponentLength, behind_cons, hs, hd, hwhole]
      · by_cases hd : s.isDigit = true
        · have hhead : (s :: r).head?.any Char.isDigit = true := hd
          have hpos := wholeLength_pos.2 hhead
          have hwhole : wholeLength (s :: r) = digitsLength (s :: r) := if_pos hhead
          simp [exponentLength, hs, hd, ← hwhole, hpos]
        · have hwhole : wholeLength (s :: r) = 0 := if_neg hd
          simp [exponentLength, hs, hd, hwhole]

def fractionLength (cs : List Char) : Nat :=
  placesLength cs + exponentLength (cs.drop (placesLength cs))

theorem isLocal_fractionLength : IsLocal fractionLength := by
  have hsigned := isLocal_wholeLength.behind (p := fun s => s == '+' || s == '-') true
    (by decide) (by decide)
  have hpower : IsLocal exponentLength := by
    rw [exponentLength_eq]
    exact .behind true (by decide) (by decide)
      (.choose (by decide) (by decide) hsigned isLocal_wholeLength)
  exact .andThen (.behind true (by decide) (by decide) isLocal_wholeLength) hpower

/-- The extent of a decimal number, by rules that are local. -/
theorem decimalExtent_eq (cs : List Char) : decimalExtent cs =
    (if fractionLength (cs.drop (digitsLength cs)) = 0 then .int else .float,
      digitsLength cs + fractionLength (cs.drop (digitsLength cs))) := by
  have hplaces (cs : List Char) : (if cs.head? == some '.' && (cs[1]?).any Char.isDigit then
      1 + digitsLength cs.tail else 0) = placesLength cs := by
    cases cs with
    | nil => rfl
    | cons c r =>
      rw [placesLength, behind_cons]
      by_cases hd : r.head?.any Char.isDigit = true
      · have hpos := wholeLength_pos.2 hd
        have hwhole : wholeLength r = digitsLength r := if_pos hd
        rw [List.head?_eq_getElem?] at hd
        simp [hd, ← hwhole, hpos]
      · have hwhole : wholeLength r = 0 := if_neg hd
        rw [List.head?_eq_getElem?] at hd
        simp [hd, hwhole]
  simp only [decimalExtent, hplaces, fractionLength, Nat.add_assoc]
  rfl

def basedLength : List Char → Nat :=
  behind (· == '0') true (behind "xXbBoO".toList.contains false fun cs =>
    (cs.takeWhile fun d => isHexDigit d || d == '_').length)

/-- A number is in the base that it begins with, and else in base ten. -/
theorem numberExtent_eq_basedLength (cs : List Char) :
    numberExtent cs = if basedLength cs = 0 then decimalExtent cs else (.int, basedLength cs) := by
  unfold numberExtent
  split
  next c r =>
    rw [basedLength, behind_cons, behind_cons]
    by_cases hc : "xXbBoO".toList.contains c = true
    · have hpos (n : Nat) : 0 < 1 + n := Nat.lt_add_right n Nat.one_pos
      have hsum (n : Nat) : 2 + n = 1 + (1 + n) := Nat.add_assoc 1 1 n
      rw [if_pos hc, hc]
      simp [hpos, hsum]
    · rw [if_neg hc, eq_false_of_ne_true hc]
      simp
  next h =>
    have hzero : basedLength cs = 0 := by
      rcases cs with _ | ⟨c, _ | ⟨d, r⟩⟩
      · rfl
      · simp [basedLength, behind]
      · have hc : c ≠ '0' := by
          rintro rfl
          exact h d r rfl
        simp [basedLength, behind_cons, hc]
    rw [if_pos hzero]

theorem isLocal_basedLength : IsLocal basedLength :=
  .behind true (by decide) (by decide)
    (.behind false (by decide) (by decide) (.takeWhile (by decide) (by decide)))

theorem isLocal_decimalExtent : IsLocal fun cs => (decimalExtent cs).2 := by
  simp only [decimalExtent_eq]
  exact .andThen isLocal_digitsLength isLocal_fractionLength

theorem numberExtent_kind (cs : List Char) :
    (numberExtent cs).1 = .int ∨ (numberExtent cs).1 = .float := by
  rw [numberExtent_eq_basedLength, decimalExtent_eq]
  split
  next =>
    dsimp only
    split
    next => exact .inl rfl
    next => exact .inr rfl
  next => exact .inl rfl

section Number

variable {u d e : List Char}

/-- A decimal number ends at a line break as it does before anything else. -/
theorem decimalExtent_cut (he : AtBreak e) (h : (decimalExtent (u ++ d)).2 ≤ u.length) :
    decimalExtent (u ++ e) = decimalExtent (u ++ d) := by
  rw [decimalExtent_eq (u ++ d)] at h
  have hdigits : digitsLength (u ++ d) ≤ u.length := Nat.le_trans (Nat.le_add_right _ _) h
  have hdrop (b : List Char) : (u ++ b).drop (digitsLength (u ++ d)) =
      u.drop (digitsLength (u ++ d)) ++ b :=
    List.drop_append_of_le_length hdigits
  have hfraction : fractionLength (u.drop (digitsLength (u ++ d)) ++ d) ≤
      (u.drop (digitsLength (u ++ d))).length := by
    rw [List.length_drop, ← hdrop]
    omega
  rw [decimalExtent_eq, decimalExtent_eq, isLocal_digitsLength.cut he hdigits, hdrop, hdrop,
    isLocal_fractionLength.cut he hfraction]

theorem numberExtent_cut (he : AtBreak e) (h : (numberExtent (u ++ d)).2 ≤ u.length) :
    numberExtent (u ++ e) = numberExtent (u ++ d) := by
  rw [numberExtent_eq_basedLength (u ++ d)] at h
  rw [numberExtent_eq_basedLength, numberExtent_eq_basedLength]
  by_cases hbased : basedLength (u ++ d) = 0
  · rw [if_pos hbased] at h
    rw [isLocal_basedLength.cut he (hbased ▸ Nat.zero_le _), if_pos hbased, if_pos hbased,
      decimalExtent_cut he h]
  · rw [if_neg hbased] at h
    rw [isLocal_basedLength.cut he h, if_neg hbased, if_neg hbased]

end Number

/-- The length of a number does not depend on what follows a line break. -/
theorem isLocal_numberExtent : IsLocal fun cs => (numberExtent cs).2 where
  le cs := by
    rw [numberExtent_eq_basedLength]
    split
    next => exact isLocal_decimalExtent.le cs
    next => exact isLocal_basedLength.le cs
  plain cs := by
    rw [numberExtent_eq_basedLength]
    split
    next => exact isLocal_decimalExtent.plain cs
    next => exact isLocal_basedLength.plain cs
  cut he h := congrArg Prod.snd (numberExtent_cut he h)

section Name

theorem nameLength_le (cs : List Char) : nameLength cs ≤ cs.length := by
  fun_induction nameLength cs with
  | case1 c r _ ih => exact Nat.succ_le_succ ih
  | case2 => simp
  | case3 => exact Nat.zero_le _
  | case4 c r _ _ ih => exact Nat.succ_le_succ ih
  | case5 => exact Nat.zero_le _
  | case6 => exact Nat.le_refl _

/-- No line ends inside of a name. -/
theorem nameLength_plain (cs : List Char) : ∀ c ∈ cs.take (nameLength cs), c ≠ '\r' ∧ c ≠ '\n' := by
  fun_induction nameLength cs with
  | case1 c r _ ih =>
    rw [List.take_succ_cons]
    exact List.forall_mem_cons.2 ⟨by decide, ih⟩
  | case2 r => exact List.forall_mem_cons.2 ⟨by decide, List.forall_mem_nil _⟩
  | case3 => exact List.forall_mem_nil _
  | case4 c r _ hc ih =>
    rw [List.take_succ_cons]
    refine List.forall_mem_cons.2 ⟨⟨?_, ?_⟩, ih⟩ <;>
    · rintro rfl
      exact absurd hc (by decide)
  | case5 => exact List.forall_mem_nil _
  | case6 => exact List.forall_mem_nil _

theorem nameLength_separator {e : List Char} (he : AtBreak e) : nameLength ('\\' :: e) = 0 := by
  cases e with
  | nil => rfl
  | cons c e => rcases he c rfl with rfl | rfl <;> rfl

theorem nameLength_of_atBreak {e : List Char} (he : AtBreak e) : nameLength e = 0 := by
  cases e with
  | nil => rfl
  | cons c e => rcases he c rfl with rfl | rfl <;> rfl

theorem nameLength_cons {c : Char} (hc : c ≠ '\\') (r : List Char) :
    nameLength (c :: r) = if isNamePart c then nameLength r + 1 else 0 := by
  rw [nameLength]
  exact fun _ _ h => absurd h hc

/-- A name is cut off the same way at a line break, unless it ends in a separator before the brace
of a group of imports. -/
theorem nameLength_cut {u d e : List Char} (he : AtBreak e) (h : nameLength (u ++ d) ≤ u.length)
    (hgroup : nameLength (u ++ d) = u.length → d.head? ≠ some '\x7b') :
    nameLength (u ++ e) = nameLength (u ++ d) := by
  induction u with
  | nil =>
    rw [List.nil_append, List.nil_append, nameLength_of_atBreak he]
    exact (Nat.le_zero.1 h).symm
  | cons c u ih =>
    by_cases hc : c = '\\'
    · subst hc
      cases u with
      | nil =>
        rw [List.singleton_append, List.singleton_append, nameLength_separator he]
        cases d with
        | nil => rfl
        | cons c d =>
          rw [List.singleton_append, nameLength] at h hgroup
          rw [nameLength]
          by_cases hc : isNameStart c = true
          · have hpos : nameLength (c :: d) = nameLength d + 1 := by
              rw [nameLength_cons, if_pos (isNamePart_of_isNameStart hc)]
              rintro rfl
              exact absurd hc (by decide)
            rw [if_pos hc, hpos, List.length_singleton] at h
            omega
          · rw [if_neg hc] at hgroup ⊢
            by_cases hbrace : c = '\x7b'
            · rw [if_pos hbrace] at hgroup
              exact absurd (congrArg some hbrace) (hgroup rfl)
            · rw [if_neg hbrace]
      | cons c u =>
        simp only [List.cons_append, nameLength] at h hgroup ih ⊢
        split
        next hstart =>
          rw [if_pos hstart] at h hgroup
          rw [ih (Nat.le_of_succ_le_succ h) fun hlength => hgroup (congrArg (· + 1) hlength)]
        next => rfl
    · rw [List.cons_append, nameLength_cons hc] at h hgroup ⊢
      rw [List.cons_append, nameLength_cons hc]
      split
      next hpart =>
        rw [if_pos hpart] at h hgroup
        rw [ih (Nat.le_of_succ_le_succ h) fun hlength => hgroup (congrArg (· + 1) hlength)]
      next => rfl

end Name

theorem isPrefixOf_append_atBreak {w e : List Char} (hw : ∀ c ∈ w, c ≠ '\r' ∧ c ≠ '\n')
    (he : AtBreak e) (u : List Char) : w.isPrefixOf (u ++ e) = w.isPrefixOf u := by
  induction w generalizing u with
  | nil => simp
  | cons d w ih =>
    obtain ⟨⟨hr, hn⟩, hw⟩ := List.forall_mem_cons.1 hw
    cases u with
    | nil =>
      cases e with
      | nil => rfl
      | cons c e => rcases he c rfl with rfl | rfl <;> simp [List.isPrefixOf, hr, hn]
    | cons c u => simp [List.isPrefixOf, ih hw]

theorem operators_plain : ∀ o ∈ operators, ∀ c ∈ o.1.toList, c ≠ '\r' ∧ c ≠ '\n' := by
  simp [operators]

/-- Two texts that are the same, or the same up to a line break that only the second need have. The
rule counts `n` characters of what they share. -/
inductive SameBefore (kind : TokenKind) (n : Nat) : List Char → List Char → Prop where
  | refl (r : List Char) : SameBefore kind n r r
  | cut {u d e : List Char} (hn : n ≤ u.length) (he : AtBreak e)
      (hgroup : kind = .word → n = u.length → d.head? ≠ some '\x7b') :
      SameBefore kind n (u ++ d) (u ++ e)

namespace SameBefore

variable {kind : TokenKind} {n : Nat} {r r' : List Char}

/-- A word that does not begin a text does not begin it either if a line break comes in its
place. -/
theorem startsWith_neg (h : SameBefore kind n r r') {w : String} (hw : ∀ c ∈ w.toList, c ≠ '\r' ∧
    c ≠ '\n') (c : Char)
    (hr : ¬startsWith w (c :: r) = true) : ¬startsWith w (c :: r') = true := by
  cases h with
  | refl => exact hr
  | @cut u d e _ he =>
    intro hcut
    have hu : w.toList.isPrefixOf (c :: u) = true :=
      (isPrefixOf_append_atBreak hw he (c :: u)).symm.trans hcut
    exact hr
      (List.isPrefixOf_iff_prefix.2
        ((List.isPrefixOf_iff_prefix.1 hu).trans (List.prefix_append (c :: u) d)))

/-- A word that begins a text still does if a line break comes behind it. -/
theorem startsWith_pos (h : SameBefore kind n r r') {w : String} (hlength : w.length ≤ n + 1)
    (c : Char) (hr : startsWith w (c :: r) = true) : startsWith w (c :: r') = true := by
  cases h with
  | refl => exact hr
  | @cut u d e hn =>
    have hw : w.toList.length ≤ (c :: u).length := by
      rw [String.length_toList, List.length_cons]
      omega
    have hu : w.toList <+: c :: u :=
      List.prefix_of_prefix_length_le (List.isPrefixOf_iff_prefix.1 hr)
        (List.prefix_append (c :: u) d) hw
    exact List.isPrefixOf_iff_prefix.2 (hu.trans (List.prefix_append (c :: u) e))

variable {p : Char → Bool}

theorem head?_neg (h : SameBefore kind n r r') (hr : p '\r' = false) (hn : p '\n' = false)
    (hhead : ¬r.head?.any p = true) : ¬r'.head?.any p = true := by
  cases h with
  | refl => exact hhead
  | @cut u d e _ he =>
    cases u with
    | nil => simp [any_head?_of_atBreak hr hn he]
    | cons c u => exact hhead

theorem head?_pos (h : SameBefore kind n r r') (hpos : 0 < n) (hhead : r.head?.any p = true) :
    r'.head?.any p = true := by
  cases h with
  | refl => exact hhead
  | @cut u d e hn =>
    cases u with
    | nil => exact absurd hn (Nat.not_le.2 hpos)
    | cons c u => exact hhead

variable {start sign : Bool}

theorem signed_neg (h : SameBefore kind n r r') (hr : p '\r' = false) (hn : p '\n' = false)
    (hhead : ¬(sign && r.head?.any p) = true) : ¬(sign && r'.head?.any p) = true := by
  rw [Bool.and_eq_true, not_and] at hhead ⊢
  exact fun hsign => h.head?_neg hr hn (hhead hsign)

theorem signed_pos (h : SameBefore kind n r r') (hpos : 0 < n)
    (hhead : (sign && r.head?.any p) = true) :
    (sign && r'.head?.any p) = true := by
  rw [Bool.and_eq_true] at hhead ⊢
  exact ⟨hhead.1, h.head?_pos hpos hhead.2⟩

theorem started_neg (h : SameBefore kind n r r') (hr : p '\r' = false) (hn : p '\n' = false)
    (hhead : ¬(start || (sign && r.head?.any p)) = true) :
    ¬(start || (sign && r'.head?.any p)) = true := by
  rw [Bool.or_eq_true, not_or] at hhead ⊢
  exact ⟨hhead.1, h.signed_neg hr hn hhead.2⟩

theorem started_pos (h : SameBefore kind n r r') (hpos : start = false → 0 < n)
    (hhead : (start || (sign && r.head?.any p)) = true) :
    (start || (sign && r'.head?.any p)) = true := by
  cases start with
  | true => rfl
  | false => exact h.signed_pos (hpos rfl) hhead

theorem isLocal (h : SameBefore kind n r r') {f : List Char → Nat} (hf : IsLocal f) (hr : f r = n) :
    f r' = n := by
  cases h with
  | refl => exact hr
  | cut hn he => exact (hf.cut he (Nat.le_trans (Nat.le_of_eq hr) hn)).trans hr

theorem nameLength (h : SameBefore .word n r r') {c : Char}
    (hr : Scan.nameLength (c :: r) = n + 1) :
    Scan.nameLength (c :: r') = n + 1 := by
  cases h with
  | refl => exact hr
  | @cut u d e hn he hgroup =>
    have hle : Scan.nameLength (c :: u ++ d) ≤ (c :: u).length := 
      Nat.le_trans (Nat.le_of_eq hr) (Nat.succ_le_succ hn)
    refine (nameLength_cut he hle fun hlength => ?_).trans hr
    exact hgroup rfl (Nat.succ.inj (hr.symm.trans hlength))

theorem numberExtent (h : SameBefore kind n r r') {c : Char}
    (hr : (Scan.numberExtent (c :: r)).2 = n + 1) :
    Scan.numberExtent (c :: r') = Scan.numberExtent (c :: r) := by
  cases h with
  | refl => rfl
  | @cut u d e hn he =>
    have hle : (Scan.numberExtent (c :: u ++ d)).2 ≤ (c :: u).length := 
      Nat.le_trans (Nat.le_of_eq hr) (Nat.succ_le_succ hn)
    exact numberExtent_cut he hle

theorem operator? (h : SameBefore kind n r r') {c : Char} {o : String × TokenKind}
    (hlength : o.1.length = n + 1) (hr : Scan.operator? (c :: r) = some o) :
    Scan.operator? (c :: r') = some o := by
  obtain ⟨hbegins, before, after, hops, hbefore⟩ := List.find?_eq_some_iff_append.1 hr
  refine List.find?_eq_some_iff_append.2
    ⟨h.startsWith_pos (Nat.le_of_eq hlength) c hbegins, before, after, hops, fun a ha => ?_⟩
  have hplain := operators_plain a (by rw [hops]; exact List.mem_append_left _ ha)
  have hneg := h.startsWith_neg hplain c (by simpa using hbefore a ha)
  simpa using hneg

end SameBefore

/-- A rule cuts a lexeme off that stays on its line, wherever it stands and if only a
line break is behind it. -/
structure CutsOff (rule : Position → Char → List Char → Except ParseError (TokenKind × Nat))
    (c : Char) (r : List Char) (kind : TokenKind) (n : Nat) : Prop where
  le : n ≤ r.length
  plain : ∀ d ∈ r.take n, d ≠ '\r' ∧ d ≠ '\n'
  same {r' : List Char} (h : SameBefore kind n r r') (p : Position) : rule p c r' = .ok (kind, n)

section Extents

variable {c : Char} {r : List Char} {n : Nat}

theorem extent_of_startsWith {w : String} (hw : ∀ d ∈ w.toList, d ≠ '\r' ∧ d ≠ '\n')
    (h : startsWith w (c :: r) = true) (hn : w.length = n + 1) :
    n ≤ r.length ∧ ∀ d ∈ r.take n, d ≠ '\r' ∧ d ≠ '\n' := by
  obtain ⟨t, ht⟩ := List.isPrefixOf_iff_prefix.1 h
  rw [← String.length_toList] at hn
  obtain ⟨d, w', hw'⟩ := List.exists_cons_of_length_eq_add_one hn
  rw [hw', List.cons_append] at ht
  rw [hw'] at hw hn
  obtain ⟨-, rfl⟩ := List.cons.inj ht
  obtain rfl : w'.length = n := Nat.succ.inj hn
  rw [List.take_left, List.length_append]
  exact ⟨Nat.le_add_right _ _, (List.forall_mem_cons.1 hw).2⟩

/-- What a rule counts with the first character. -/
theorem extent_of_cons {f : List Char → Nat} (hle : f (c :: r) ≤ (c :: r).length)
    (hplain : ∀ d ∈ (c :: r).take (f (c :: r)), d ≠ '\r' ∧ d ≠ '\n') (hn : f (c :: r) = n + 1) :
    n ≤ r.length ∧ ∀ d ∈ r.take n, d ≠ '\r' ∧ d ≠ '\n' := by
  rw [hn] at hle hplain
  rw [List.take_succ_cons] at hplain
  exact ⟨Nat.le_of_succ_le_succ hle, (List.forall_mem_cons.1 hplain).2⟩

theorem nameLength_start (h : isNameStart c = true) (r : List Char) : 0 < nameLength (c :: r) := by
  have hc : c ≠ '\\' := by
    rintro rfl
    exact absurd h (by decide)
  rw [nameLength_cons hc, if_pos (isNamePart_of_isNameStart h)]
  exact Nat.succ_pos _

theorem nameLength_separated (h : r.head?.any isNameStart = true) : 1 < nameLength ('\\' :: r) := by
  cases r with
  | nil => cases h
  | cons d r =>
    have hd : isNameStart d = true := h
    rw [nameLength, if_pos hd]
    exact Nat.succ_lt_succ (nameLength_start hd r)

theorem numberExtent_digit (h : c.isDigit = true) (r : List Char) :
    0 < (numberExtent (c :: r)).2 := by
  have hdigits : 0 < digitsLength (c :: r) := by simp [digitsLength, h]
  rw [numberExtent_eq_basedLength]
  split
  next =>
    rw [decimalExtent_eq]
    exact Nat.lt_add_right _ hdigits
  next hbased => exact Nat.pos_of_ne_zero hbased

theorem numberExtent_point (h : r.head?.any Char.isDigit = true) :
    1 < (numberExtent ('.' :: r)).2 := by
  have hplaces : placesLength ('.' :: r) = 1 + wholeLength r := by
    simp [placesLength, behind_cons, wholeLength_pos.2 h]
  have hpos := wholeLength_pos.2 h
  have hdigits : digitsLength ('.' :: r) = 0 := by simp [digitsLength]
  rw [numberExtent_eq_basedLength, if_pos (by simp [basedLength, behind_cons]), decimalExtent_eq,
    hdigits, List.drop_zero, fractionLength, hplaces]
  dsimp only
  omega

theorem exists_nameLength (h : (isNameStart c || (c == '\\' && r.head?.any isNameStart)) = true) :
    ∃ n, nameLength (c :: r) = n + 1 ∧ (isNameStart c = false → 0 < n) := by
  rcases Bool.or_eq_true_iff.1 h with hstart | hsep
  · obtain ⟨n, hn⟩ := Nat.exists_eq_add_one.2 (nameLength_start hstart r)
    exact ⟨n, hn, fun hnot => by simp [hnot] at hstart⟩
  · obtain ⟨hc, hhead⟩ := Bool.and_eq_true_iff.1 hsep
    obtain rfl := eq_of_beq hc
    obtain ⟨n, hn⟩ := Nat.exists_eq_add_of_lt (nameLength_separated hhead)
    exact ⟨n + 1, by omega, fun _ => Nat.succ_pos n⟩

theorem exists_numberExtent (h : (c.isDigit || (c == '.' && r.head?.any Char.isDigit)) = true) :
    ∃ n, (numberExtent (c :: r)).2 = n + 1 ∧ (c.isDigit = false → 0 < n) := by
  rcases Bool.or_eq_true_iff.1 h with hdigit | hpoint
  · obtain ⟨n, hn⟩ := Nat.exists_eq_add_one.2 (numberExtent_digit hdigit r)
    exact ⟨n, hn, fun hnot => by simp [hnot] at hdigit⟩
  · obtain ⟨hc, hhead⟩ := Bool.and_eq_true_iff.1 hpoint
    obtain rfl := eq_of_beq hc
    obtain ⟨n, hn⟩ := Nat.exists_eq_add_of_lt (numberExtent_point hhead)
    exact ⟨n + 1, by omega, fun _ => Nat.succ_pos n⟩

theorem exists_operator? {o : String × TokenKind} (h : operator? (c :: r) = some o) :
    o ∈ operators ∧ ∃ n, o.1.length = n + 1 ∧ startsWith o.1 (c :: r) = true := by
  have hmem := List.mem_of_find?_eq_some h
  have hpos : ∀ o ∈ operators, 0 < o.1.length := by decide
  obtain ⟨n, hn⟩ := Nat.exists_eq_add_one.2 (hpos o hmem)
  exact ⟨hmem, n, hn, List.find?_some (p := fun o : String × TokenKind => startsWith o.1 (c :: r))
    h⟩

theorem wordLength_pos (h : r.head?.any isNameStart = true) : 0 < wordLength r := by
  cases r with
  | nil => cases h
  | cons d r =>
    have hd : isNamePart d = true := isNamePart_of_isNameStart h
    simp [wordLength, hd]

end Extents

/-- The rules for names, variables, numbers, strings and operators. -/
def laterLexeme (p : Position) (c : Char) (r : List Char) : Except ParseError (TokenKind × Nat) :=
  if c = '$' && r.head?.any isNameStart then .ok (.var, wordLength r)
  else if isNameStart c || (c == '\\' && r.head?.any isNameStart)
    then .ok (.word, nameLength (c :: r) - 1)
  else if c.isDigit || (c == '.' && r.head?.any Char.isDigit) then
    .ok ((numberExtent (c :: r)).1, (numberExtent (c :: r)).2 - 1)
  else if c = '\x27' || c = '\x22' || c = '\x60' then return (.quoted, ← stringLength p c r)
  else
    match operator? (c :: r) with
    | some (s, kind) => .ok (kind, s.length - 1)
    | none => .error ⟨.unexpected .token (.character c), Span.covering p [c]⟩

theorem codeLexeme_eq (p : Position) (c : Char) (r : List Char) : codeLexeme p c r =
    if startsWith "?>" (c :: r) then .ok (.closeTag, 1)
    else if startsWith "#[" (c :: r) then .ok (.attributeOpen, 1)
    else if c = '#' || startsWith "//" (c :: r) then .ok (.comment, lineCommentLength r)
    else if startsWith "/*" (c :: r) then
      match blockCommentLength? (r.drop 1) with
      | some n => .ok (.comment, n + 1)
      | none => .error ⟨.unterminated .comment, Span.covering p ((c :: r).take 2)⟩
    else if startsWith "<<<" (c :: r) then return (.heredoc, (← heredocLength p (r.drop 2)) + 2)
    else laterLexeme p c r := rfl

variable {p : Position} {c : Char} {r : List Char} {kind : TokenKind} {n : Nat}

/-- What these rules read. -/
inductive LaterRule (c : Char) (r : List Char) : TokenKind → Nat → Prop where
  | var (hc : c = '$') : LaterRule c r .var (wordLength r)
  | word {n : Nat} (hn : nameLength (c :: r) = n + 1) : LaterRule c r .word n
  | number {n : Nat} (hstart : c.isDigit = true ∨ c = '.')
      (hn : (numberExtent (c :: r)).2 = n + 1) :
      LaterRule c r (numberExtent (c :: r)).1 n
  | quoted {n : Nat} (hquote : c = '\x27' ∨ c = '\x22' ∨ c = '\x60')
      (hn : quotedLength c r = .ok n) :
      LaterRule c r .quoted n
  | operator {o : String × TokenKind} (ho : o ∈ operators) : LaterRule c r o.2 (o.1.length - 1)

theorem quotedLength_of_stringLength (h : stringLength p c r = .ok n) :
    quotedLength c r = .ok n := by
  unfold stringLength at h
  split at h
  next hn =>
    cases h
    exact hn
  next => cases h
  next => cases h

/-- A lexeme that is found late is found by one of the later rules. -/
theorem laterRule_of_laterLexeme (h : laterLexeme p c r = .ok (kind, n)) :
    LaterRule c r kind n := by
  unfold laterLexeme at h
  split at h
  next hvar =>
    cases h
    exact .var (of_decide_eq_true (Bool.and_eq_true_iff.1 hvar).1)
  split at h
  next hname =>
    obtain ⟨m, hm, -⟩ := exists_nameLength hname
    rw [hm] at h
    cases h
    exact .word hm
  split at h
  next hnumber =>
    obtain ⟨m, hm, -⟩ := exists_numberExtent hnumber
    rw [hm] at h
    cases h
    refine .number ?_ hm
    exact (Bool.or_eq_true_iff.1 hnumber).imp_right fun hpoint =>
      eq_of_beq (Bool.and_eq_true_iff.1 hpoint).1
  split at h
  next hquote =>
    cases hlength : stringLength p c r with
    | error e => rw [hlength] at h; cases h
    | ok m =>
      rw [hlength] at h
      cases h
      exact .quoted (by simpa [or_assoc] using hquote) (quotedLength_of_stringLength hlength)
  split at h
  next hop =>
    cases h
    exact .operator (List.mem_of_find?_eq_some hop)
  next => cases h

/-- The rules before those for names and numbers are for kinds of their own. -/
theorem laterRule_of_codeLexeme (h : codeLexeme p c r = .ok (kind, n)) :
    kind ∈ [.closeTag, .attributeOpen, .comment, .heredoc] ∨ LaterRule c r kind n := by
  have hother {k : TokenKind} {m : Nat} (hk : k ∈ [.closeTag, .attributeOpen, .comment, .heredoc])
      (h : (.ok (k, m) : Except ParseError (TokenKind × Nat)) = .ok (kind, n)) :
      kind ∈ [.closeTag, .attributeOpen, .comment, .heredoc] ∨ LaterRule c r kind n := by
    obtain ⟨rfl, -⟩ := Prod.mk.inj (Except.ok.inj h)
    exact .inl hk
  rw [codeLexeme_eq] at h
  split at h
  next => exact hother (by decide) h
  split at h
  next => exact hother (by decide) h
  split at h
  next => exact hother (by decide) h
  split at h
  next =>
    split at h
    next => exact hother (by decide) h
    next => cases h
  split at h
  next =>
    cases hlength : heredocLength p (r.drop 2) with
    | error e => rw [hlength] at h; cases h
    | ok m =>
      rw [hlength] at h
      exact hother (by decide) h
  exact .inr (laterRule_of_laterLexeme h)

/-- What stays on its line is cut off the same before a line break, whichever rule found it. -/
theorem cutsOff_laterLexeme (h : laterLexeme p c r = .ok (kind, n))
    (hkind : kind.spansLines = false) :
    CutsOff laterLexeme c r kind n := by
  unfold laterLexeme at h
  by_cases hvar : (decide (c = '$') && r.head?.any isNameStart) = true
  · rw [if_pos hvar] at h
    cases h
    refine ⟨isLocal_wordLength.le r, isLocal_wordLength.plain r, fun hsame p => ?_⟩
    have hpos := wordLength_pos (Bool.and_eq_true_iff.1 hvar).2
    unfold laterLexeme
    rw [if_pos (hsame.signed_pos hpos hvar), hsame.isLocal isLocal_wordLength rfl]
  rw [if_neg hvar] at h
  have hvar' {r' : List Char} (hsame : SameBefore kind n r r') :=
    hsame.signed_neg (by decide) (by decide) hvar
  by_cases hname : (isNameStart c || c == '\\' && r.head?.any isNameStart) = true
  · rw [if_pos hname] at h
    obtain ⟨m, hm, hpos⟩ := exists_nameLength hname
    rw [hm] at h
    cases h
    obtain ⟨hle, hplain⟩ := extent_of_cons (nameLength_le _) (nameLength_plain _) hm
    refine ⟨hle, hplain, fun hsame p => ?_⟩
    unfold laterLexeme
    rw [if_neg (hvar' hsame), if_pos (hsame.started_pos hpos hname), hsame.nameLength hm]
    rfl
  rw [if_neg hname] at h
  have hname' {r' : List Char} (hsame : SameBefore kind n r r') :=
    hsame.started_neg (by decide) (by decide) hname
  by_cases hnumber : (c.isDigit || c == '.' && r.head?.any Char.isDigit) = true
  · rw [if_pos hnumber] at h
    obtain ⟨m, hm, hpos⟩ := exists_numberExtent hnumber
    rw [hm] at h
    cases h
    obtain ⟨hle, hplain⟩ :=
      extent_of_cons (f := fun cs => (numberExtent cs).2) (isLocal_numberExtent.le _)
        (isLocal_numberExtent.plain _) hm
    refine ⟨hle, hplain, fun hsame p => ?_⟩
    unfold laterLexeme
    rw [if_neg (hvar' hsame), if_neg (hname' hsame), if_pos (hsame.started_pos hpos hnumber),
      hsame.numberExtent hm, hm]
  rw [if_neg hnumber] at h
  have hnumber' {r' : List Char} (hsame : SameBefore kind n r r') :=
    hsame.started_neg (by decide) (by decide) hnumber
  by_cases hquote : (decide (c = '\x27') || decide (c = '\x22') || decide (c = '\x60')) = true
  · rw [if_pos hquote] at h
    cases hlength : stringLength p c r with
    | error e => rw [hlength] at h; cases h
    | ok m => rw [hlength] at h; cases h; cases hkind
  rw [if_neg hquote] at h
  cases hop : operator? (c :: r) with
  | none => rw [hop] at h; cases h
  | some o =>
    obtain ⟨hmem, m, hm, hbegins⟩ := exists_operator? hop
    rw [hop] at h
    simp only [hm] at h
    cases h
    obtain ⟨hle, hplain⟩ := extent_of_startsWith (operators_plain o hmem) hbegins hm
    refine ⟨hle, hplain, fun hsame p => ?_⟩
    unfold laterLexeme
    rw [if_neg (hvar' hsame), if_neg (hname' hsame), if_neg (hnumber' hsame), if_neg hquote,
      hsame.operator? hm hop]
    simp only [hm]

/-- What stays on its line is cut off the same way if a line break comes behind it. -/
theorem cutsOff_codeLexeme (h : codeLexeme p c r = .ok (kind, n))
    (hkind : kind.spansLines = false) :
    CutsOff codeLexeme c r kind n := by
  rw [codeLexeme_eq] at h
  by_cases hclose : startsWith "?>" (c :: r) = true
  · rw [if_pos hclose] at h
    cases h
    obtain ⟨hle, hplain⟩ := extent_of_startsWith (w := "?>") (by simp) hclose rfl
    refine ⟨hle, hplain, fun hsame p => ?_⟩
    rw [codeLexeme_eq, if_pos (hsame.startsWith_pos (Nat.le_refl _) c hclose)]
  rw [if_neg hclose] at h
  by_cases hattribute : startsWith "#[" (c :: r) = true
  · rw [if_pos hattribute] at h
    cases h
    obtain ⟨hle, hplain⟩ := extent_of_startsWith (w := "#[") (by simp) hattribute rfl
    refine ⟨hle, hplain, fun hsame p => ?_⟩
    rw [codeLexeme_eq, if_neg (hsame.startsWith_neg (by simp) c hclose),
      if_pos (hsame.startsWith_pos (Nat.le_refl _) c hattribute)]
  rw [if_neg hattribute] at h
  by_cases hline : (decide (c = '#') || startsWith "//" (c :: r)) = true
  · rw [if_pos hline] at h
    cases h
    cases hkind
  rw [if_neg hline] at h
  by_cases hblock : startsWith "/*" (c :: r) = true
  · rw [if_pos hblock] at h
    split at h
    next => cases h; cases hkind
    next => cases h
  rw [if_neg hblock] at h
  by_cases hheredoc : startsWith "<<<" (c :: r) = true
  · rw [if_pos hheredoc] at h
    cases hlength : heredocLength p (r.drop 2) with
    | error e => rw [hlength] at h; cases h
    | ok m => rw [hlength] at h; cases h; cases hkind
  rw [if_neg hheredoc] at h
  obtain ⟨hle, hplain, hlater⟩ := cutsOff_laterLexeme h hkind
  refine ⟨hle, hplain, fun {r'} hsame p => ?_⟩
  have hline' : ¬(decide (c = '#') || startsWith "//" (c :: r')) = true := by
    rw [Bool.or_eq_true, not_or] at hline ⊢
    exact ⟨hline.1, hsame.startsWith_neg (by simp) c hline.2⟩
  rw [codeLexeme_eq, if_neg (hsame.startsWith_neg (by simp) c hclose),
    if_neg (hsame.startsWith_neg (by simp) c hattribute), if_neg hline',
    if_neg (hsame.startsWith_neg (by simp) c hblock),
    if_neg (hsame.startsWith_neg (by simp) c hheredoc)]
  exact hlater hsame p

end Scan

end ClassEdit
