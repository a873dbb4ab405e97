import ClassEdit.Proofs.Text.Widening
import ClassEdit.Proofs.Token.Cutting

/-!
The rules of the scanner on a text with a carriage return before each newline. A rule that stays on
a line counts the same characters; one that goes over lines counts the carriage returns too. The
exception is a comment up to the end of its line, which takes the carriage return there for a part
of it. Main statement: code begins with a lexeme of the same kind, or with none, in both texts.
-/

namespace ClassEdit

/-- Both succeed, with results that are related, or both fail. -/
def Agree {ε ε' α β : Type} (R : α → β → Prop) : Except ε α → Except ε' β → Prop
  | .ok a, .ok b => R a b
  | .error _, .error _ => True
  | _, _ => False

namespace Agree

variable {ε ε' α α' β β' : Type} {R : α → α' → Prop} {S : β → β' → Prop}

theorem bind {x : Except ε α} {x' : Except ε' α'} {g : α → Except ε β} {g' : α' → Except ε' β'}
    (hx : Agree R x x') (hg : ∀ a a', R a a' → Agree S (g a) (g' a')) :
    Agree S (x >>= g) (x' >>= g') := by
  cases x with
  | error e => cases x' with
    | error e' => exact hx
    | ok a' => exact False.elim hx
  | ok a => cases x' with
    | error e' => exact False.elim hx
    | ok a' => exact hg a a' hx

theorem mono {x : Except ε α} {x' : Except ε' α'} {R' : α → α' → Prop} (hx : Agree R x x')
    (h : ∀ a a', R a a' → R' a a') : Agree R' x x' := by
  cases x with
  | error e => cases x' <;> exact hx
  | ok a => cases x' with
    | error e' => exact hx
    | ok a' => exact h a a' hx

theorem map {x : Except ε α} {x' : Except ε' α'} {f : α → β} {f' : α' → β'} (hx : Agree R x x')
    (h : ∀ {a a'}, R a a' → S (f a) (f' a')) : Agree S (f <$> x) (f' <$> x') := by
  cases x with
  | error e => cases x' <;> exact hx
  | ok a => cases x' with
    | error e' => exact hx
    | ok a' => exact h hx

theorem ite {q : Prop} [Decidable q] {x y : Except ε α} {x' y' : Except ε' α'}
    (hx : q → Agree R x x') (hy : ¬q → Agree R y y') :
    Agree R (if q then x else y) (if q then x' else y') := by
  by_cases hq : q
  · rw [if_pos hq, if_pos hq]
    exact hx hq
  · rw [if_neg hq, if_neg hq]
    exact hy hq

theorem exists_ok_iff {x : Except ε α} {x' : Except ε' α'} (hx : Agree R x x') :
    (∃ a, x = .ok a) ↔ ∃ a', x' = .ok a' := by
  cases x with
  | error e => cases x' with
    | error e' => simp
    | ok a' => exact hx.elim
  | ok a => cases x' with
    | error e' => exact hx.elim
    | ok a' => simp

end Agree

open LineEnding (widen)

namespace Scan

open Quoted (isNameStart)

theorem take_widen_of_not_mem {n : Nat} {cs : List Char} (h : '\n' ∉ cs.take n) :
    (widen cs).take n = cs.take n ∧ (widen cs).drop n = widen (cs.drop n) := by
  have hsplit := LineEnding.widen_take_drop n cs
  rw [LineEnding.widen_eq_self h] at hsplit
  rw [hsplit, List.take_append, List.drop_append, List.length_take]
  by_cases hn : n ≤ cs.length
  · simp [Nat.min_eq_left hn, List.take_take]
  · have hdrop : cs.drop n = [] := List.drop_eq_nil_of_le (by omega)
    simp [hdrop, List.take_take]

theorem startsWith_widen {w : String} (h : ∀ c ∈ w.toList, c ≠ '\r' ∧ c ≠ '\n') (cs : List Char) :
    startsWith w (widen cs) = startsWith w cs :=
  LineEnding.isPrefixOf_widen h cs

/-- What the rule counts stands on one line, and it is the same in both texts. -/
def StaysOnLine (f : List Char → Nat) : Prop :=
  ∀ cs, f (widen cs) = f cs ∧ '\n' ∉ cs.take (f cs)

theorem StaysOnLine.takeWhile {p : Char → Bool} (hr : p '\r' = false) (hn : p '\n' = false) :
    StaysOnLine fun cs => (cs.takeWhile p).length := by
  intro cs
  have hline : '\n' ∉ cs.takeWhile p := fun h => by
    simpa [hn] using List.all_eq_true.1 List.all_takeWhile '\n' h
  refine ⟨?_, ?_⟩
  · simp only [LineEnding.takeWhile_widen (hr.trans hn.symm), LineEnding.widen_eq_self hline]
  · rwa [← (List.prefix_iff_eq_take.1 (List.takeWhile_prefix p))]

theorem staysOnLine_wordLength : StaysOnLine wordLength :=
  .takeWhile (by decide) (by decide)

theorem staysOnLine_digitsLength : StaysOnLine digitsLength :=
  .takeWhile (by decide) (by decide)

/-- A name ends before the end of a line, with or without a carriage return. -/
theorem staysOnLine_nameLength : StaysOnLine nameLength := by
  intro cs
  fun_induction nameLength cs with
  | case1 c r h ih =>
      have hc : c ≠ '\n' := by rintro rfl; exact absurd h (by decide)
      rw [LineEnding.widen_cons hc] at ih
      rw [LineEnding.widen_cons (by decide), LineEnding.widen_cons hc, nameLength, if_pos h]
      exact ⟨by rw [ih.1], by simpa using ih.2⟩
  | case2 r h => simp [LineEnding.widen_cons, nameLength, h]
  | case3 c r h h' =>
      refine ⟨?_, by simp⟩
      by_cases hc : c = '\n'
      · subst hc
        simp [LineEnding.widen_cons, nameLength, show isNameStart '\r' = false by decide]
      · simp [LineEnding.widen_cons, hc, nameLength, h, h']
  | case4 c r h h' ih =>
      have hc : c ≠ '\n' := by rintro rfl; exact absurd h' (by decide)
      rw [LineEnding.widen_cons hc, nameLength.eq_2, if_pos h', ih.1]
      · exact ⟨rfl, by simpa [hc.symm] using ih.2⟩
      · rintro d t rfl ht
        by_cases hd : d = '\r'
        · exact absurd h' (by decide)
        · obtain ⟨t', rfl, -⟩ := LineEnding.eq_cons_of_widen hd ht
          exact h d t' rfl rfl
  | case5 c r h h' =>
      refine ⟨?_, by simp⟩
      by_cases hc : c = '\n'
      · subst hc
        rfl
      · rw [LineEnding.widen_cons hc, nameLength.eq_2, if_neg h']
        rintro d t rfl ht
        cases r with
        | nil => cases ht
        | cons e r => exact h e r rfl rfl
  | case6 => simp [nameLength]

/-- A comment over several lines is longer by its carriage returns. -/
theorem blockCommentLength?_widen (cs : List Char) :
    blockCommentLength? (widen cs) = (blockCommentLength? cs).map fun n =>
      (widen (cs.take n)).length := by
  fun_induction blockCommentLength? cs with
  | case1 r => simp [LineEnding.widen_cons, blockCommentLength?]
  | case2 c r h ih =>
    by_cases hc : c = '\n'
    · subst hc
      simp [blockCommentLength?, ih, Function.comp_def]
    · rw [LineEnding.widen_cons hc, blockCommentLength?.eq_2]
      · simp [ih, LineEnding.widen_cons hc, Function.comp_def]
      · rintro t rfl ht
        obtain ⟨t', rfl, -⟩ := LineEnding.eq_cons_of_widen (by decide) ht
        exact h t' rfl rfl
  | case3 => rfl

theorem quotedLength_cons {quote c : Char} (hc : c ≠ '\\') (r : List Char) :
    quotedLength quote (c :: r) = if c = quote then .ok 1 else (quotedLength quote r).map (· + 1) :=
  quotedLength.eq_4 quote c r (fun h => absurd h hc) fun _ _ h => absurd h hc

/-- A quoted literal is longer by its carriage returns. -/
theorem quotedLength_widen {quote : Char} (hr : quote ≠ '\r') (hn : quote ≠ '\n') (cs : List Char) :
    quotedLength quote (widen cs) = (quotedLength quote cs).map fun n =>
      (widen (cs.take n)).length := by
  fun_induction quotedLength quote cs with
  | case1 => rfl
  | case2 => simp [LineEnding.widen_cons, quotedLength, Except.map]
  | case3 c r ih =>
      by_cases hc : c = '\n'
      · subst hc
        rw [LineEnding.widen_cons (by decide), LineEnding.widen_newline, quotedLength,
          quotedLength_cons (by decide), if_neg hn.symm, ih]
        cases quotedLength quote r <;> simp [Except.map, LineEnding.widen_cons]
      · rw [LineEnding.widen_cons (by decide), LineEnding.widen_cons hc, quotedLength, ih]
        cases quotedLength quote r <;> simp [Except.map, LineEnding.widen_cons, hc]
  | case4 r h h' =>
      have hq : quote ≠ '\\' := by
        rintro rfl
        cases r with
        | nil => exact h rfl rfl
        | cons d r => exact h' d r rfl rfl
      simp [LineEnding.widen_cons hn, quotedLength_cons hq, Except.map]
  | case5 c r h h' hc ih =>
      have hb : c ≠ '\\' := by
        rintro rfl
        cases r with
        | nil => exact h rfl rfl
        | cons d r => exact h' d r rfl rfl
      by_cases hcn : c = '\n'
      · subst hcn
        rw [LineEnding.widen_newline, quotedLength_cons (by decide), if_neg hr.symm,
          quotedLength_cons (by decide), if_neg hn.symm, ih]
        cases quotedLength quote r <;> simp [Except.map]
      · rw [LineEnding.widen_cons hcn, quotedLength_cons hb, if_neg hc, ih]
        cases quotedLength quote r <;> simp [Except.map, LineEnding.widen_cons hcn]

/-- A comment up to the end of its line takes the carriage return of the newline that ends it. -/
theorem lineCommentLength_widen (cs : List Char) : ∃ cut : Bool,
    lineCommentLength (widen cs) = (widen (cs.take (lineCommentLength cs))).length +
      (pending cut).length ∧
      (cut → (cs.drop (lineCommentLength cs)).head? = some '\n') := by
  fun_induction lineCommentLength cs with
  | case1 r => exact ⟨true, by simp [lineCommentLength, pending], by simp⟩
  | case2 r => exact ⟨false, by simp [LineEnding.widen_cons, lineCommentLength, pending], by simp⟩
  | case3 c r h h' ih =>
      have hc : c ≠ '\n' := h
      obtain ⟨cut, hlength, hcut⟩ := ih
      refine ⟨cut, ?_, by simpa using hcut⟩
      rw [LineEnding.widen_cons hc, lineCommentLength.eq_3 _ _ h, hlength]
      · simp [LineEnding.widen_cons hc]
        omega
      · rintro t rfl ht
        obtain ⟨t', rfl, -⟩ := LineEnding.eq_cons_of_widen (by decide) ht
        exact h' t' rfl rfl
  | case4 => exact ⟨false, rfl, by simp⟩

/-- The label of a heredoc closes it in both texts or in neither. -/
theorem closesHeredoc_widen {label : List Char} (h : '\n' ∉ label) (hr : '\r' ∉ label)
    (cs : List Char) :
    closesHeredoc label (widen cs) = closesHeredoc label cs := by
  have hplain : ∀ c ∈ label, c ≠ '\r' ∧ c ≠ '\n' := fun c hc =>
    ⟨fun e => hr (e ▸ hc), fun e => h (e ▸ hc)⟩
  unfold closesHeredoc
  rw [LineEnding.isPrefixOf_widen hplain]
  cases hprefix : label.isPrefixOf cs with
  | false => rfl
  | true =>
      obtain ⟨t, rfl⟩ := List.isPrefixOf_iff_prefix.1 hprefix
      have hnext := LineEnding.head?_widen (g := Option.any isNamePart) rfl t
      have hbehind (t : List Char) : (label ++ t)[label.length]? = t.head? := by
        rw [List.getElem?_append_right (Nat.le_refl _), Nat.sub_self, List.head?_eq_getElem?]
      rw [LineEnding.widen_append, LineEnding.widen_eq_self h, hbehind, hbehind, hnext]

/-- The body of a heredoc is longer by its carriage returns. -/
theorem heredocBodyLength?_widen {label : List Char} (h : '\n' ∉ label) (hr : '\r' ∉ label)
    (cs : List Char) :
    heredocBodyLength? label (widen cs) =
      (heredocBodyLength? label cs).map fun n => (widen (cs.take n)).length := by
  induction cs with
  | nil => rfl
  | cons c r ih =>
      by_cases hc : c = '\n'
      · subst hc
        obtain ⟨hmargin, hline⟩ := StaysOnLine.takeWhile (p := isMargin) (by decide) (by decide) r
        obtain ⟨-, hdrop⟩ := take_widen_of_not_mem hline
        simp only at hmargin hline hdrop
        have hreturn : ¬('\r' = '\n') := by decide
        simp only [LineEnding.widen_newline, heredocBodyLength?, hmargin, hdrop,
          closesHeredoc_widen h hr, ih, hreturn, decide_false, decide_true, Bool.false_and,
          Bool.true_and, Bool.false_eq_true, if_false]
        cases hcloses : closesHeredoc label (r.drop (r.takeWhile isMargin).length) with
        | false => cases heredocBodyLength? label r <;> simp
        | true =>
            obtain ⟨t, ht⟩ := List.isPrefixOf_iff_prefix.1 (Bool.and_eq_true_iff.1 hcloses).1
            have hend : r.take ((r.takeWhile isMargin).length + label.length) =
                r.takeWhile isMargin ++ label := by
              rw [List.take_add, ← ht, List.take_left,
                ← List.prefix_iff_eq_take.1 (List.takeWhile_prefix isMargin)]
            have hplain : '\n' ∉ r.takeWhile isMargin ++ label := by
              rw [← hend, List.take_add, ← ht, List.take_left]
              simp [hline, h]
            have hcount (m : Nat) : 1 + m + label.length = m + label.length + 1 := by omega
            rw [if_pos rfl, if_pos rfl, Option.map_some, Option.map_some, hcount,
              List.take_succ_cons, hend, LineEnding.widen_newline, LineEnding.widen_eq_self hplain]
            simp
      · rw [LineEnding.widen_cons hc, heredocBodyLength?, heredocBodyLength?, ih]
        simp [hc, LineEnding.widen_cons hc, Function.comp_def]

/-- A word in capitals or small letters that stands on one line begins both texts or neither. -/
theorem map_toLower_take_widen {w : List Char} (h : ∀ c ∈ w, c ≠ '\r' ∧ c ≠ '\n') (cs : List Char) :
    ((widen cs).take w.length).map Char.toLower = w ↔ (cs.take w.length).map Char.toLower = w := by
  induction w generalizing cs with
  | nil => simp
  | cons d w ih =>
      obtain ⟨hd, hw⟩ := List.forall_mem_cons.1 h
      cases cs with
      | nil => rfl
      | cons c r =>
          by_cases hc : c = '\n'
          · subst hc
            have hreturn : '\r'.toLower ≠ d := Ne.symm hd.1
            have hnewline : '\n'.toLower ≠ d := Ne.symm hd.2
            rw [LineEnding.widen_newline, List.length_cons, List.take_succ_cons,
              List.take_succ_cons, List.map_cons, List.map_cons, List.cons_eq_cons,
              List.cons_eq_cons]
            exact iff_of_false (fun e => hreturn e.1) fun e => hnewline e.1
          · rw [LineEnding.widen_cons hc, List.length_cons, List.take_succ_cons,
              List.take_succ_cons, List.map_cons, List.map_cons, List.cons_eq_cons,
              List.cons_eq_cons, ih hw]

theorem not_mem_of_openTag {cs : List Char} (h : (cs.take 5).map Char.toLower = "<?php".toList) :
    '\n' ∉ cs.take 5 := by
  intro hmem
  have hlower := List.mem_map_of_mem (f := Char.toLower) hmem
  rw [h] at hlower
  exact absurd hlower (by decide)

theorem atOpenTag_widen (cs : List Char) : atOpenTag (widen cs) = atOpenTag cs := by
  have hplain : ∀ c ∈ "<?php".toList, c ≠ '\r' ∧ c ≠ '\n' := by simp
  have htag := map_toLower_take_widen hplain cs
  have hlength : "<?php".toList.length = 5 := rfl
  rw [hlength] at htag
  unfold atOpenTag
  by_cases h : (cs.take 5).map Char.toLower = "<?php".toList
  · have hdrop := (take_widen_of_not_mem (not_mem_of_openTag h)).2
    have hnext (cs : List Char) : cs[5]? = (cs.drop 5).head? := by simp
    rw [h, htag.2 h, hnext, hnext, hdrop, LineEnding.head?_widen (g := Option.all isBlank) rfl]
  · rw [beq_eq_false_iff_ne.2 h, beq_eq_false_iff_ne.2 (mt htag.1 h)]
    rfl

/-- The text before an opening tag is longer by its carriage returns. -/
theorem htmlLength_widen (cs : List Char) :
    htmlLength (widen cs) = (widen (cs.take (htmlLength cs))).length := by
  induction cs with
  | nil => rfl
  | cons c r ih =>
      by_cases hc : c = '\n'
      · subst hc
        have hreturn (cs : List Char) : atOpenTag ('\r' :: cs) = false := rfl
        have hnewline (cs : List Char) : atOpenTag ('\n' :: cs) = false := rfl
        simp [htmlLength, hreturn, hnewline, ih]
      · have htag := atOpenTag_widen (c :: r)
        rw [LineEnding.widen_cons hc] at htag ⊢
        rw [htmlLength, htmlLength, htag, ih]
        split <;> simp [LineEnding.widen_cons hc]

/-- An exponent ends before the end of a line, with or without a carriage return. -/
theorem staysOnLine_exponentLength : StaysOnLine exponentLength := by
  intro cs
  cases cs with
  | nil => simp [exponentLength]
  | cons c r =>
      by_cases hc : c = '\n'
      · subst hc
        exact ⟨rfl, by simp [exponentLength]⟩
      · have hsign := LineEnding.head?_widen (g := Option.any fun s => s == '+' || s == '-') rfl r
        simp only [exponentLength, LineEnding.widen_cons hc, hsign]
        generalize hs : (if r.head?.any (fun s => s == '+' || s == '-') then 1 else 0) = sign
        have hline : '\n' ∉ r.take sign := by
          subst hs
          cases r with
          | nil => simp
          | cons s r =>
              split
              next h =>
                rintro hmem
                obtain rfl : '\n' = s := by simpa using hmem
                simp at h
              next => simp
        obtain ⟨-, hdrop⟩ := take_widen_of_not_mem hline
        have hnext (cs : List Char) : cs[sign]? = (cs.drop sign).head? := by simp
        obtain ⟨hdigits, hdigitsLine⟩ := staysOnLine_digitsLength (r.drop sign)
        rw [hnext, hnext, hdrop, LineEnding.head?_widen (g := Option.any Char.isDigit) rfl, hdigits]
        refine ⟨rfl, ?_⟩
        split
        · have hcount (n : Nat) : 1 + sign + n = sign + n + 1 := by omega
          rw [hcount, List.take_succ_cons, List.take_add]
          simp [Ne.symm hc, hline, hdigitsLine]
        · simp

/-- The decimal places with the point before them, none if no digit follows the point. -/
theorem staysOnLine_places : StaysOnLine fun cs =>
    if cs.head? == some '.' && (cs[1]?).any Char.isDigit then 1 + digitsLength cs.tail else 0 := by
  intro cs
  by_cases hpoint : cs.head? = some '.'
  · obtain ⟨r, rfl⟩ := List.head?_eq_some_iff.1 hpoint
    obtain ⟨hdigits, hline⟩ := staysOnLine_digitsLength r
    have hnext (cs : List Char) : ('.' :: cs)[1]? = cs.head? := by simp [List.head?_eq_getElem?]
    rw [LineEnding.widen_cons (by decide)]
    simp only [hnext, List.tail_cons, hdigits,
      LineEnding.head?_widen (g := Option.any Char.isDigit) rfl]
    refine ⟨rfl, ?_⟩
    split
    · rw [Nat.add_comm, List.take_succ_cons]
      simp [hline]
    · simp
  · have hpoint' := LineEnding.head?_widen (g := (· == some '.')) rfl cs
    simp only [hpoint', beq_eq_false_iff_ne.2 hpoint]
    exact ⟨rfl, by simp⟩

theorem decimalExtent_widen (cs : List Char) :
    decimalExtent (widen cs) = decimalExtent cs ∧ '\n' ∉ cs.take (decimalExtent cs).2 := by
  obtain ⟨hwhole, hwholeLine⟩ := staysOnLine_digitsLength cs
  have hdrop := (take_widen_of_not_mem hwholeLine).2
  obtain ⟨hplaces, hplacesLine⟩ := staysOnLine_places (cs.drop (digitsLength cs))
  have hdrop' := (take_widen_of_not_mem hplacesLine).2
  have hpower (cs : List Char) := (staysOnLine_exponentLength cs).1
  simp only at hplaces hplacesLine hdrop'
  refine ⟨by simp only [decimalExtent, hwhole, hdrop, hplaces, hdrop', hpower], ?_⟩
  simp only [decimalExtent, List.take_add, List.mem_append, not_or]
  exact ⟨⟨hwholeLine, hplacesLine⟩, by simpa using (staysOnLine_exponentLength _).2⟩

theorem numberExtent_eq (cs : List Char) : numberExtent cs =
    if cs.head? == some '0' && (cs[1]?).any "xXbBoO".toList.contains then
      (.int, 2 + ((cs.drop 2).takeWhile fun d => isHexDigit d || d == '_').length)
    else decimalExtent cs := by
  rcases cs with _ | ⟨c, _ | ⟨d, r⟩⟩
  · rfl
  · simp [numberExtent]
  · by_cases hc : c = '0'
    · subst hc
      simp [numberExtent]
    · rw [if_neg (by simp [hc]), numberExtent]
      rintro d r e
      exact absurd (List.cons.inj e).1 hc

/-- A number is the same in both texts, for it stays on its line. -/
theorem numberExtent_widen (cs : List Char) :
    numberExtent (widen cs) = numberExtent cs ∧ '\n' ∉ cs.take (numberExtent cs).2 := by
  obtain ⟨hdecimal, hline⟩ := decimalExtent_widen cs
  rw [numberExtent_eq, numberExtent_eq, hdecimal, LineEnding.head?_widen (g := (· == some '0')) rfl]
  by_cases hzero : cs.head? = some '0'
  · obtain ⟨r, rfl⟩ := List.head?_eq_some_iff.1 hzero
    have hnext (cs : List Char) : ('0' :: cs)[1]? = cs.head? := by simp [List.head?_eq_getElem?]
    rw [LineEnding.widen_cons (by decide), hnext, hnext,
      LineEnding.head?_widen (g := Option.any "xXbBoO".toList.contains) rfl]
    cases hbase : r.head?.any "xXbBoO".toList.contains with
    | false => exact ⟨by simp, by simpa using hline⟩
    | true =>
        cases r with
        | nil => simp at hbase
        | cons c r =>
            have hc : c ≠ '\n' := by
              rintro rfl
              simp at hbase
            obtain ⟨hdigits, hdigitsLine⟩ :=
              StaysOnLine.takeWhile (p := fun d => isHexDigit d || d == '_')
                (by decide) (by decide) r
            simp only at hdigits hdigitsLine
            simp only [LineEnding.widen_cons hc, List.head?_cons, beq_self_eq_true, Bool.and_self,
              if_true, List.drop_succ_cons, List.drop_zero, hdigits, Nat.add_comm 2,
              List.take_succ_cons, true_and]
            simp [Ne.symm hc, hdigitsLine]
  · simp [beq_eq_false_iff_ne.2 hzero, hline]

theorem operator?_widen (cs : List Char) : operator? (widen cs) = operator? cs := by
  have hall : ∀ o ∈ operators, startsWith o.1 (widen cs) = startsWith o.1 cs :=
    fun o ho => startsWith_widen (operators_plain o ho) cs
  unfold operator?
  generalize operators = os at hall
  induction os with
  | nil => rfl
  | cons o os ih =>
      obtain ⟨ho, hos⟩ := List.forall_mem_cons.1 hall
      rw [List.find?_cons, List.find?_cons, ho, ih hos]

/-- The rule takes the same text from both, up to the carriage returns in it and to one that stands
behind a line comment. -/
structure SameExtent (r : List Char) (kind : TokenKind) (n n' : Nat) (cut : Bool) : Prop where
  taken : (widen r).take n' = widen (r.take n) ++ pending cut
  left : pending cut ++ (widen r).drop n' = widen (r.drop n)
  comment : cut → kind = .comment
  oneLine : kind.spansLines = false → '\n' ∉ r.take n

namespace SameExtent

variable {r : List Char} {kind : TokenKind} {n : Nat}

theorem of_not_mem (h : '\n' ∉ r.take n) : SameExtent r kind n n false where
  taken := by rw [(take_widen_of_not_mem h).1, LineEnding.widen_eq_self h]; simp [pending]
  left := (take_widen_of_not_mem h).2
  comment := nofun
  oneLine := fun _ => h

theorem of_length (h : kind.spansLines) : SameExtent r kind n (widen (r.take n)).length false where
  taken := by rw [LineEnding.take_widen]; simp [pending]
  left := LineEnding.drop_widen n r
  comment := nofun
  oneLine := by simp [h]

/-- A comment up to the end of a line loses nothing, but may be cut before a carriage return. -/
theorem lineComment (r : List Char) :
    ∃ cut, SameExtent r .comment (lineCommentLength r) (lineCommentLength (widen r)) cut := by
  obtain ⟨cut, hlength, hcut⟩ := lineCommentLength_widen r
  have hbehind : ∃ b, widen (r.drop (lineCommentLength r)) = pending cut ++ b := by
    cases cut with
    | false => exact ⟨_, rfl⟩
    | true =>
        obtain ⟨t, ht⟩ := List.head?_eq_some_iff.1 (hcut rfl)
        rw [ht]
        exact ⟨'\n' :: widen t, rfl⟩
  obtain ⟨b, hb⟩ := hbehind
  have hr := LineEnding.widen_take_drop (lineCommentLength r) r
  rw [hb, ← List.append_assoc] at hr
  rw [hlength, ← List.length_append]
  refine ⟨cut, ?_, ?_, fun _ => rfl, nofun⟩
  · rw [hr, List.take_left]
  · rw [hr, List.drop_left, hb]

/-- An extent goes on behind what stands on one line. -/
theorem behind {m n' : Nat} {cut : Bool} (hline : '\n' ∉ r.take m)
    (h : SameExtent (r.drop m) kind n n' cut) :
    SameExtent r kind (m + n) (m + n') cut := by
  obtain ⟨htake, hdrop⟩ := take_widen_of_not_mem hline
  refine ⟨?_, ?_, h.comment, fun hkind => ?_⟩
  · rw [List.take_add, htake, hdrop, h.taken, List.take_add, LineEnding.widen_append,
      LineEnding.widen_eq_self hline, List.append_assoc]
  · rw [← List.drop_drop, hdrop, h.left, List.drop_drop]
  · rw [List.take_add, List.mem_append, not_or]
    exact ⟨hline, h.oneLine hkind⟩

end SameExtent

def labelQuote (cs : List Char) : List Char :=
  (cs.take 1).filter fun c => c == '\x27' || c == '\x22'

theorem labelQuote_widen (cs : List Char) : labelQuote (widen cs) = labelQuote cs := by
  cases cs with
  | nil => rfl
  | cons c r =>
      by_cases hc : c = '\n'
      · subst hc
        rfl
      · rw [LineEnding.widen_cons hc]
        rfl

theorem labelQuote_plain (cs : List Char) : ∀ c ∈ labelQuote cs, c ≠ '\r' ∧ c ≠ '\n' := by
  intro c hc
  have hquote := (List.mem_filter.1 hc).2
  constructor <;> rintro rfl <;> simp at hquote

theorem take_labelQuote (cs : List Char) : '\n' ∉ cs.take (labelQuote cs).length := by
  cases cs with
  | nil => simp
  | cons c r =>
      by_cases hc : c = '\n'
      · subst hc
        exact List.not_mem_nil
      · have hle : (labelQuote (c :: r)).length ≤ 1 := List.length_filter_le _ [c]
        rcases Nat.le_one_iff_eq_zero_or_eq_one.1 hle with h | h
        · simp [h]
        · simp [h, Ne.symm hc]

/-- A heredoc is found in both texts or in neither. -/
theorem heredocLength_widen (p p' : Position) (cs : List Char) :
    Agree (fun n n' => SameExtent cs .heredoc n n' false) (heredocLength p cs)
      (heredocLength p' (widen cs)) := by
  obtain ⟨hblanks, hblanksLine⟩ := StaysOnLine.takeWhile (p := isMargin) (by decide) (by decide) cs
  have hdrop := (take_widen_of_not_mem hblanksLine).2
  simp only at hblanks hblanksLine hdrop
  unfold heredocLength
  simp only [hblanks, hdrop]
  generalize (cs.takeWhile isMargin).length = blanks at hblanksLine hdrop ⊢
  have hfold (cs : List Char) : (cs.take 1).filter (fun c => c == '\x27' || c == '\x22') =
      labelQuote cs := rfl
  rw [hfold, hfold, labelQuote_widen]
  have hquotePlain := labelQuote_plain (cs.drop blanks)
  have hheadLine : '\n' ∉ cs.take (blanks + (labelQuote (cs.drop blanks)).length) := by
    rw [List.take_add, List.mem_append, not_or]
    exact ⟨hblanksLine, take_labelQuote _⟩
  generalize labelQuote (cs.drop blanks) = quote at hquotePlain hheadLine ⊢
  generalize blanks + quote.length = head at hheadLine ⊢
  rw [(take_widen_of_not_mem hheadLine).2]
  have hbehind {n n' : Nat} (h : SameExtent (cs.drop head) .heredoc n n' false) :
      SameExtent cs .heredoc (head + n) (head + n') false := .behind hheadLine h
  generalize cs.drop head = rest at hbehind ⊢
  obtain ⟨hword, hwordLine⟩ := staysOnLine_wordLength rest
  obtain ⟨hlabel, hbody⟩ := take_widen_of_not_mem hwordLine
  have hlength : (rest.take (wordLength rest)).length = wordLength rest := by
    rw [List.length_take]
    exact Nat.min_eq_left (List.takeWhile_prefix _).length_le
  have hreturn : '\r' ∉ rest.take (wordLength rest) := by
    rw [wordLength, ← List.prefix_iff_eq_take.1 (List.takeWhile_prefix _)]
    exact fun h => absurd (List.all_eq_true.1 List.all_takeWhile '\r' h) (by decide)
  rw [LineEnding.head?_widen (g := Option.any isNameStart) rfl, hword, hlabel, hlength, hbody,
    LineEnding.isPrefixOf_widen hquotePlain]
  cases rest.head?.any isNameStart with
  | false => trivial
  | true =>
      cases hprefix : quote.isPrefixOf (rest.drop (wordLength rest)) with
      | false => trivial
      | true =>
          obtain ⟨t, ht⟩ := List.isPrefixOf_iff_prefix.1 hprefix
          have hquoteLine : '\n' ∉ quote := fun hmem => (hquotePlain _ hmem).2 rfl
          have hquoteTake : '\n' ∉ (rest.drop (wordLength rest)).take quote.length := by
            rwa [← ht, List.take_left]
          simp only [Bool.not_true, Bool.false_eq_true, if_false,
            (take_widen_of_not_mem hquoteTake).2, heredocBodyLength?_widen hwordLine hreturn,
            Nat.add_assoc]
          cases heredocBodyLength? (rest.take (wordLength rest))
              ((rest.drop (wordLength rest)).drop quote.length) with
          | none => trivial
          | some n => exact hbehind (.behind hwordLine (.behind hquoteTake (.of_length rfl)))

theorem stringLength_widen (p p' : Position) {quote : Char} (hr : quote ≠ '\r') (hn : quote ≠ '\n')
    (cs : List Char) :
    Agree (fun n n' => SameExtent cs .quoted n n' false) (stringLength p quote cs)
      (stringLength p' quote (widen cs)) := by
  unfold stringLength
  rw [quotedLength_widen hr hn]
  cases quotedLength quote cs with
  | ok n => exact .of_length rfl
  | error what => cases what <;> exact trivial

section Lexeme

variable {c : Char} {r : List Char}

theorem not_mem_take_tail {n : Nat} (h : '\n' ∉ (c :: r).take n) : '\n' ∉ r.take (n - 1) := by
  cases n with
  | zero => simp
  | succ n => exact fun hmem => h (List.mem_cons_of_mem _ hmem)

theorem not_mem_of_startsWith {w : String} (hw : ∀ d ∈ w.toList, d ≠ '\r' ∧ d ≠ '\n')
    (h : startsWith w (c :: r)) :
    '\n' ∉ r.take (w.length - 1) := by
  apply not_mem_take_tail
  obtain ⟨t, ht⟩ := List.isPrefixOf_iff_prefix.1 h
  rw [← ht, ← String.length_toList, List.take_left]
  exact fun hmem => (hw _ hmem).2 rfl

/-- What the later rules cut off is widened, and of the same kind. -/
theorem laterLexeme_widen (p p' : Position) (hc : c ≠ '\n') (r : List Char) :
    Agree (fun x x' => x'.1 = x.1 ∧ ∃ cut, SameExtent r x.1 x.2 x'.2 cut) (laterLexeme p c r)
      (laterLexeme p' c (widen r)) := by
  have hcons : c :: widen r = widen (c :: r) := (LineEnding.widen_cons hc r).symm
  have hplain (kind : TokenKind) {n : Nat} (h : '\n' ∉ r.take n) :
      kind = kind ∧ ∃ cut, SameExtent r kind n n cut :=
    ⟨rfl, false, .of_not_mem h⟩
  unfold laterLexeme
  rw [LineEnding.head?_widen (g := Option.any isNameStart) rfl,
    LineEnding.head?_widen (g := Option.any Char.isDigit) rfl]
  refine .ite (fun _ => ?var) fun _ => .ite (fun _ => ?word) fun _ =>
    .ite (fun _ => ?number) fun _ =>
    .ite (fun hquote => ?quoted) fun _ => ?operator
  case var =>
    obtain ⟨hword, hline⟩ := staysOnLine_wordLength r
    rw [hword]
    exact hplain _ hline
  case word =>
    obtain ⟨hlength, hline⟩ := staysOnLine_nameLength (c :: r)
    rw [hcons, hlength]
    exact hplain _ (not_mem_take_tail hline)
  case number =>
    obtain ⟨hextent, hline⟩ := numberExtent_widen (c :: r)
    rw [hcons, hextent]
    exact hplain _ (not_mem_take_tail hline)
  case quoted =>
    have hreturn : c ≠ '\r' := by
      rintro rfl
      simp at hquote
    exact (stringLength_widen p p' hreturn hc r).bind fun n n' h => ⟨rfl, false, h⟩
  case operator =>
    rw [hcons, operator?_widen]
    cases hoperator : operator? (c :: r) with
    | none => trivial
    | some o =>
      obtain ⟨hmem, -, -, hbegins⟩ := exists_operator? hoperator
      exact hplain _ (not_mem_of_startsWith (operators_plain o hmem) hbegins)

/-- What is cut off code is widened, and of the same kind. -/
theorem codeLexeme_widen (p p' : Position) (hc : c ≠ '\n') (r : List Char) :
    Agree (fun x x' => x'.1 = x.1 ∧ ∃ cut, SameExtent r x.1 x.2 x'.2 cut) (codeLexeme p c r)
      (codeLexeme p' c (widen r)) := by
  have hstarts {w : String} (hw : ∀ d ∈ w.toList, d ≠ '\r' ∧ d ≠ '\n') :
      startsWith w (c :: widen r) = startsWith w (c :: r) := by
    rw [← LineEnding.widen_cons hc, startsWith_widen hw]
  rw [codeLexeme_eq, codeLexeme_eq, hstarts (by simp), hstarts (by simp), hstarts (by simp),
    hstarts (by simp), hstarts (by simp)]
  refine .ite (fun hclose => ?closeTag) fun _ => .ite (fun hattribute => ?attributeOpen) fun _ =>
    .ite (fun _ => ?lineComment) fun _ => .ite (fun hblock => ?blockComment) fun _ =>
    .ite (fun hheredoc => ?heredoc) fun _ => laterLexeme_widen p p' hc r
  case closeTag => exact ⟨rfl, false, .of_not_mem (not_mem_of_startsWith (by simp) hclose)⟩
  case attributeOpen => exact ⟨rfl, false, .of_not_mem (not_mem_of_startsWith (by simp) hattribute)⟩
  case lineComment => exact ⟨rfl, SameExtent.lineComment r⟩
  case blockComment =>
    have htake : '\n' ∉ r.take 1 := not_mem_of_startsWith (w := "/*") (by simp) hblock
    rw [(take_widen_of_not_mem htake).2, blockCommentLength?_widen]
    cases blockCommentLength? (r.drop 1) with
    | none => trivial
    | some n =>
      have hextent : SameExtent (r.drop 1) .comment n _ false := .of_length rfl
      refine ⟨rfl, false, ?_⟩
      simpa only [Nat.add_comm 1] using hextent.behind htake
  case heredoc =>
    have htake : '\n' ∉ r.take 2 := not_mem_of_startsWith (w := "<<<") (by simp) hheredoc
    rw [(take_widen_of_not_mem htake).2]
    refine (heredocLength_widen p p' (r.drop 2)).bind fun n n' h => ⟨rfl, false, ?_⟩
    rw [Nat.add_comm n, Nat.add_comm n']
    exact .behind htake h

end Lexeme

end Scan

end ClassEdit
