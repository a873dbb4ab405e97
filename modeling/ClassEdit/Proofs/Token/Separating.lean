import ClassEdit.Proofs.Token.Following
import Mathlib.Data.List.Find

/-!
Tokens before a separator. No rule of the code that counts characters on one line counts
a separator, or looks past one. Main statement: a token before the end of a source is
one before a separator too.
-/

namespace ClassEdit

/-- What holds of the characters of a list is decided on the list, not on all characters. -/
instance (priority := high) decidableForallMem (cs : List Char) (p : Char → Prop)
    [DecidablePred p] :
    Decidable (∀ c ∈ cs, p c) :=
  List.decidableBAll p cs

end ClassEdit

namespace ClassEdit.Scan

open Quoted (isNameStart)

def separators : List Char := [' ', '\n', ',', ';', '(', ')', ']']

def AtSeparator (cs : List Char) : Prop :=
  ∀ c ∈ cs.head?, c ∈ separators

theorem atSeparator_cons {c : Char} (h : c ∈ separators) (r : List Char) : AtSeparator (c :: r) :=
  fun _ hd => Option.some.inj hd ▸ h

theorem AtSeparator.of_atLineEnd {cs : List Char} (h : AtLineEnd cs) : AtSeparator cs := by
  intro c hc
  rw [h c hc]
  decide

section Rules

variable {follow : List Char} {f g : List Char → Nat} {p : Char → Bool}

/-- Of what begins with a separator, the test fails. -/
theorem AtSeparator.any_head? (h : AtSeparator follow) (hp : ∀ c ∈ separators, p c = false) :
    follow.head?.any p = false := by
  cases follow with
  | nil => rfl
  | cons c r => exact hp c (h c rfl)

theorem AtSeparator.any_head?_append (h : AtSeparator follow) (hp : ∀ c ∈ separators, p c = false)
    (cs : List Char) :
    (cs ++ follow).head?.any p = cs.head?.any p := by
  cases cs with
  | nil => exact h.any_head? hp
  | cons c r => rfl

/-- The rule counts the same before `follow` and before the end. -/
def IsBlind (follow : List Char) (f : List Char → Nat) : Prop :=
  ∀ cs, f (cs ++ follow) = f cs

namespace IsBlind

theorem zero : IsBlind follow fun _ => 0 := fun _ => rfl

/-- To count characters of a class does not see behind a separator, unless it is of the class. -/
theorem takeWhile (h : AtSeparator follow) (hp : ∀ c ∈ separators, p c = false) :
    IsBlind follow fun cs => (cs.takeWhile p).length := by
  intro cs
  dsimp only
  induction cs with
  | nil =>
    cases follow with
    | nil => rfl
    | cons c r => simp [hp c (h c rfl)]
  | cons c cs ih =>
    rw [List.cons_append, List.takeWhile_cons, List.takeWhile_cons]
    split
    next => rw [List.length_cons, List.length_cons, ih]
    next => rfl

theorem andThen (hle : ∀ cs, f cs ≤ cs.length) (hf : IsBlind follow f) (hg : IsBlind follow g) :
    IsBlind follow fun cs => f cs + g (cs.drop (f cs)) := by
  intro cs
  dsimp only
  rw [hf cs, List.drop_append_of_le_length (hle cs), hg]

theorem choose (h : AtSeparator follow) (hp : ∀ c ∈ separators, p c = false) (hf : IsBlind follow f)
    (hg : IsBlind follow g) : IsBlind follow fun cs => if cs.head?.any p then f cs else g cs := by
  intro cs
  dsimp only
  rw [h.any_head?_append hp, hf cs, hg cs]

theorem behind (h : AtSeparator follow) (hp : ∀ c ∈ separators, p c = false) (must : Bool)
    (hf : IsBlind follow f) :
    IsBlind follow (Scan.behind p must f) := by
  intro cs
  cases cs with
  | nil =>
    cases follow with
    | nil => rfl
    | cons c r => simp [Scan.behind, hp c (h c rfl)]
  | cons c cs => rw [List.cons_append, behind_cons, behind_cons, hf cs]

end IsBlind

end Rules

section Tokens

variable {follow : List Char}

/-- A name is counted the same before a separator and before the end. -/
theorem nameLength_append_separator (h : AtSeparator follow) : IsBlind follow nameLength := by
  intro cs
  have hplain : ∀ c ∈ separators, isNamePart c = false ∧ isNameStart c = false ∧ c ≠ '\x7b' ∧
      c ≠ '\\' := by decide
  have hend : nameLength follow = 0 := by
    cases follow with
    | nil => rfl
    | cons c r =>
      obtain ⟨hpart, -, -, hsep⟩ := hplain c (h c rfl)
      rw [nameLength_cons hsep, hpart]
      rfl
  induction cs with
  | nil => exact hend
  | cons c cs ih =>
    by_cases hc : c = '\\'
    · subst hc
      cases cs with
      | nil =>
        cases follow with
        | nil => rfl
        | cons d r =>
          obtain ⟨-, hstart, hbrace, -⟩ := hplain d (h d rfl)
          rw [List.singleton_append, nameLength, hstart, if_neg hbrace]
          rfl
      | cons d cs =>
        rw [List.cons_append] at ih
        rw [List.cons_append, List.cons_append, nameLength, ih, nameLength]
    · rw [List.cons_append, nameLength_cons hc, nameLength_cons hc, ih]

theorem wholeLength_append (h : AtSeparator follow) : IsBlind follow wholeLength :=
  .choose h (by decide) (.takeWhile h (by decide)) .zero

theorem fractionLength_append (h : AtSeparator follow) : IsBlind follow fractionLength := by
  have hwhole := wholeLength_append h
  have hpower : IsBlind follow exponentLength := by
    rw [exponentLength_eq]
    exact .behind h (by decide) true
      (.choose h (by decide) (.behind h (by decide) true hwhole) hwhole)
  have hplaces : IsBlind follow placesLength := .behind h (by decide) true hwhole
  exact .andThen (isLocal_wholeLength.behind true (by decide) (by decide)).le hplaces hpower

theorem numberExtent_append (h : AtSeparator follow) (cs : List Char) :
    numberExtent (cs ++ follow) = numberExtent cs := by
  have hbased : IsBlind follow basedLength :=
    .behind h (by decide) true (.behind h (by decide) false (.takeWhile h (by decide)))
  have hdigits : IsBlind follow digitsLength := .takeWhile h (by decide)
  rw [numberExtent_eq_basedLength, numberExtent_eq_basedLength, hbased cs, decimalExtent_eq,
    decimalExtent_eq, hdigits cs, List.drop_append_of_le_length (isLocal_digitsLength.le cs),
    fractionLength_append h]

/-- A word without separators begins a text regardless of what is behind one. -/
theorem startsWith_append (h : AtSeparator follow) {w : String}
    (hw : ∀ c ∈ w.toList.tail, c ∉ separators) (c : Char) (r : List Char) :
    startsWith w (c :: (r ++ follow)) = startsWith w (c :: r) := by
  have hprefix (v r : List Char) (hv : ∀ c ∈ v, c ∉ separators) : v.isPrefixOf (r ++ follow) =
      v.isPrefixOf r := by
    induction v generalizing r with
    | nil => simp
    | cons d v ih =>
      obtain ⟨hd, hv⟩ := List.forall_mem_cons.1 hv
      cases r with
      | nil =>
        cases follow with
        | nil => rfl
        | cons e follow =>
          have hne : d ≠ e := by
            rintro rfl
            exact hd (h d rfl)
          simp [List.isPrefixOf, hne]
      | cons e r => rw [List.cons_append, List.isPrefixOf, List.isPrefixOf, ih r hv]
  unfold startsWith
  cases hlist : w.toList with
  | nil => rfl
  | cons d v =>
    rw [hlist] at hw
    rw [List.isPrefixOf, List.isPrefixOf, hprefix v r hw]

theorem operator?_append (h : AtSeparator follow) (c : Char) (r : List Char) :
    operator? (c :: (r ++ follow)) = operator? (c :: r) := by
  have hplain : ∀ o ∈ operators, ∀ c ∈ o.1.toList.tail, c ∉ separators := by decide
  exact List.find?_congr fun o ho => startsWith_append h (hplain o ho) c r

/-- The rules for names, variables, numbers and operators do not look past a separator. -/
theorem laterLexeme_append (h : AtSeparator follow) {c : Char} (hc : c ≠ '\x27' ∧ c ≠ '\x22' ∧
    c ≠ '\x60') (p : Position)
    (r : List Char) : laterLexeme p c (r ++ follow) = laterLexeme p c r := by
  have hstart : ∀ c ∈ separators, isNameStart c = false := by decide
  have hdigit : ∀ c ∈ separators, c.isDigit = false := by decide
  have hword : IsBlind follow wordLength := .takeWhile h (by decide)
  unfold laterLexeme
  rw [h.any_head?_append hstart, h.any_head?_append hdigit, hword r, ← List.cons_append,
    nameLength_append_separator h, numberExtent_append h, List.cons_append, operator?_append h]
  simp [hc.1, hc.2.1, hc.2.2]

end Tokens

section Append

variable {follow d x : List Char} {kind : TokenKind}

theorem startsWith_of_append {w : String} {ds : List Char} (h : startsWith w d = true) :
    startsWith w (d ++ ds) = true :=
  List.isPrefixOf_iff_prefix.2 ((List.isPrefixOf_iff_prefix.1 h).trans (List.prefix_append d ds))

/-- A token that goes over several lines ends at its own mark, or a line comment with what is behind
it. -/
theorem Spans.append {c : Char} {t : List Char} (h : Spans d c t kind)
    (hd : d = [] → kind ≠ .comment) (hfollow : AtSeparator follow) :
    Spans (d ++ follow) c t kind := by
  have hself := MovedLeft.refl (d ++ follow) t kind.isLiteral
  cases h with
  | line hc ht =>
    have hne : d ≠ [] := fun hnil => hd hnil rfl
    have hends : AtLineEnd (d ++ follow) ∨ startsWith "?>" (d ++ follow) = true := by
      rcases ends_of_lineCommentLength ht with hend | htag
      · cases d with
        | nil => exact absurd rfl hne
        | cons e d => exact .inl hend
      · exact .inr (startsWith_of_append htag)
    have hhead : (t ++ (d ++ follow)).head? = (t ++ d).head? := by
      obtain ⟨e, d, rfl⟩ := List.exists_cons_of_ne_nil hne
      cases t <;> rfl
    refine .line ?_ (lineCommentLength_movedLeft hends hself ht)
    rwa [hhead]
  | @block t ht => exact .block (blockCommentLength?_movedLeft (MovedLeft.refl _ t false) ht)
  | @heredoc t ht =>
    refine .heredoc (ht.movedLeft (fun c hc => ?_) (MovedLeft.refl _ t true))
    cases d with
    | nil =>
      have hplain : ∀ c ∈ separators, isNamePart c = false := by decide
      exact hplain c (hfollow c hc)
    | cons e d => exact ht.ends c hc
  | quoted hc ht =>
    refine .quoted hc (quotedLength_movedLeft ?_ ?_ hself ht)
    · rcases hc with rfl | rfl | rfl <;> decide
    · rcases hc with rfl | rfl | rfl <;> decide

/-- A token that is none of a line comment at the end stays one if a separator comes behind it. -/
theorem IsToken.append (h : IsToken kind x d) (hd : d = [] → kind ≠ .comment)
    (hfollow : AtSeparator follow) :
    IsToken kind x (d ++ follow) := by
  obtain ⟨c, t, rfl, hc, hl⟩ := h
  refine ⟨c, t, rfl, hc, fun p => ?_⟩
  cases hkind : kind.spansLines with
  | true =>
    obtain ⟨t', d', hr, hn, hspans⟩ := spans_of_codeLexeme (hl p) hkind
    obtain ⟨rfl, rfl⟩ := List.append_inj hr hn
    exact (hspans.append hd hfollow).codeLexeme p
  | false =>
    have hquote : c ≠ '\x27' ∧ c ≠ '\x22' ∧ c ≠ '\x60' := by
      refine ⟨?_, ?_, ?_⟩ <;>
      · rintro rfl
        obtain ⟨n, -, hn⟩ := bind_eq_ok.1 (hl p)
        cases hn
        cases hkind
    have hr := hl p
    rw [codeLexeme_eq] at hr
    rw [codeLexeme_eq, ← List.append_assoc, startsWith_append hfollow (by decide),
      startsWith_append hfollow (by decide), startsWith_append hfollow (by decide),
      startsWith_append hfollow (by decide), startsWith_append hfollow (by decide),
      laterLexeme_append hfollow hquote]
    by_cases hclose : startsWith "?>" (c :: (t ++ d)) = true
    · rwa [if_pos hclose] at hr ⊢
    rw [if_neg hclose] at hr ⊢
    by_cases hattribute : startsWith "#[" (c :: (t ++ d)) = true
    · rwa [if_pos hattribute] at hr ⊢
    rw [if_neg hattribute] at hr ⊢
    -- the lexemes of the next rules go over several lines
    by_cases hline : (decide (c = '#') || startsWith "//" (c :: (t ++ d))) = true
    · rw [if_pos hline] at hr
      obtain ⟨rfl, -⟩ := Prod.mk.inj (Except.ok.inj hr)
      cases hkind
    rw [if_neg hline] at hr ⊢
    by_cases hblock : startsWith "/*" (c :: (t ++ d)) = true
    · rw [if_pos hblock] at hr
      split at hr
      next =>
        obtain ⟨rfl, -⟩ := Prod.mk.inj (Except.ok.inj hr)
        cases hkind
      next => cases hr
    rw [if_neg hblock] at hr ⊢
    by_cases hheredoc : startsWith "<<<" (c :: (t ++ d)) = true
    · rw [if_pos hheredoc] at hr
      obtain ⟨n, -, hn⟩ := bind_eq_ok.1 hr
      obtain ⟨rfl, -⟩ := Prod.mk.inj (Except.ok.inj hn)
      cases hkind
    rwa [if_neg hheredoc] at hr ⊢

end Append

end ClassEdit.Scan
