import ClassEdit.Proofs.Token.Scanning

/-!
Lexemes that go over several lines, moved left. Inside of a string nothing is dropped but carriage
returns before newlines, inside of a comment and outside of the tags also blanks at the beginning of
a line. Main statement: what is left of such a lexeme is cut off as a lexeme of the same kind.
-/

namespace ClassEdit.Scan

open Quoted (isNameStart)

variable {follow d t out : List Char} {b b' mark : Bool}

section Quoted

theorem map_eq_ok {ε α β : Type} {f : α → β} {x : Except ε α} {y : β} (h : x.map f = .ok y) :
    ∃ a, x = .ok a ∧ f a = y := by
  cases x with
  | error e => cases h
  | ok a =>
    cases h
    exact ⟨a, rfl, rfl⟩

/-- A string literal has a character behind its quote at least, the closing one. -/
theorem quotedLength_pos {quote : Char} {cs : List Char} {n : Nat}
    (h : quotedLength quote cs = .ok n) : 0 < n := by
  fun_induction quotedLength quote cs generalizing n with
  | case1 => cases h
  | case2 => cases h
  | case3 c r ih =>
    obtain ⟨m, -, rfl⟩ := map_eq_ok h
    exact Nat.succ_pos _
  | case4 =>
    cases h
    exact Nat.one_pos
  | case5 c r _ _ _ ih =>
    obtain ⟨m, -, rfl⟩ := map_eq_ok h
    exact Nat.succ_pos _

/-- A string literal ends inside of its source. -/
theorem quotedLength_le {quote : Char} {cs : List Char} {n : Nat}
    (h : quotedLength quote cs = .ok n) :
    n ≤ cs.length := by
  fun_induction quotedLength quote cs generalizing n with
  | case1 => cases h
  | case2 => cases h
  | case3 c r ih =>
    obtain ⟨m, hm, rfl⟩ := map_eq_ok h
    exact Nat.succ_le_succ (Nat.succ_le_succ (ih hm))
  | case4 =>
    cases h
    simp
  | case5 c r _ _ _ ih =>
    obtain ⟨m, hm, rfl⟩ := map_eq_ok h
    exact Nat.succ_le_succ (ih hm)

theorem quotedLength_cons_of_ne {quote c : Char} {r : List Char} {n : Nat} (hc : c ≠ '\\')
    (hquote : c ≠ quote) :
    quotedLength quote (c :: r) = .ok (n + 1) ↔ quotedLength quote r = .ok n := by
  rw [quotedLength_cons hc, if_neg hquote]
  constructor
  · intro h
    obtain ⟨m, hm, hn⟩ := map_eq_ok h
    rw [hm, Nat.succ.inj hn]
  · intro h
    rw [h]
    rfl

theorem quotedLength_escape {quote c : Char} {r : List Char} {n : Nat} :
    quotedLength quote ('\\' :: c :: r) = .ok (n + 2) ↔ quotedLength quote r = .ok n := by
  rw [quotedLength]
  constructor
  · intro h
    obtain ⟨m, hm, hn⟩ := map_eq_ok h
    rw [hm, Nat.add_right_cancel hn]
  · intro h
    rw [h]
    rfl

/-- A string ends at the same quote. -/
theorem quotedLength_movedLeft {quote : Char} (hr : quote ≠ '\r') (hn : quote ≠ '\n')
    (h : MovedLeft follow false (t.map (·, true)) out b)
    (ht : quotedLength quote (t ++ d) = .ok t.length) :
    quotedLength quote (out ++ follow) = .ok out.length := by
  induction hlength : t.length using Nat.strongRecOn generalizing t out with
  | ind n ih =>
    subst hlength
    cases t with
    | nil => exact absurd (quotedLength_pos ht) (Nat.lt_irrefl 0)
    | cons c r =>
      by_cases hc : c = '\\'
      · subst hc
        obtain ⟨out₁, rfl, h₁⟩ := h.of_cons (by decide)
        cases r with
        | nil =>
          cases d with
          | nil => cases ht
          | cons c d =>
            obtain ⟨m, -, hm⟩ := map_eq_ok ht
            cases hm
        | cons c r =>
          have hrest := quotedLength_escape.1 ht
          have hshort : r.length < ('\\' :: c :: r).length := Nat.lt_add_of_pos_right Nat.two_pos
          rcases h₁.of_literal with ⟨out₂, rfl, h₂⟩ | ⟨rfl, hend, h₂⟩
          · exact quotedLength_escape.2 (ih _ hshort h₂ hrest rfl)
          · -- the backslash stands before the newline now, and the string goes on behind that
            have hout := ih _ hshort h₂ hrest rfl
            cases out₁ with
            | nil => exact absurd (quotedLength_pos hout) (Nat.lt_irrefl 0)
            | cons c out₂ =>
              obtain rfl := hend c rfl
              exact quotedLength_escape.2 ((quotedLength_cons_of_ne (by decide) hn.symm).1 hout)
      · by_cases hquote : c = quote
        · subst hquote
          rw [List.cons_append, quotedLength_cons hc, if_pos rfl] at ht
          have hnil : r = [] := List.eq_nil_of_length_eq_zero (Nat.succ.inj (Except.ok.inj ht)).symm
          subst hnil
          rcases h.of_literal with ⟨out₁, rfl, h₁⟩ | ⟨rfl, -, -⟩
          · cases h₁
            rw [List.cons_append, quotedLength_cons hc, if_pos rfl]
            rfl
          · exact absurd rfl hr
        · have hrest := (quotedLength_cons_of_ne hc hquote).1 ht
          have hshort : r.length < (c :: r).length := Nat.lt_succ_self _
          rcases h.of_literal with ⟨out₁, rfl, h₁⟩ | ⟨-, -, h₁⟩
          · exact (quotedLength_cons_of_ne hc hquote).2 (ih _ hshort h₁ hrest rfl)
          · exact ih _ hshort h₁ hrest rfl

end Quoted

section Comment

theorem blockCommentLength?_pos {cs : List Char} {n : Nat} (h : blockCommentLength? cs = some n) :
    0 < n := by
  fun_induction blockCommentLength? cs generalizing n with
  | case1 =>
    cases h
    exact Nat.two_pos
  | case2 c r _ ih =>
    obtain ⟨m, -, rfl⟩ := Option.map_eq_some_iff.1 h
    exact Nat.succ_pos _
  | case3 => cases h

theorem blockCommentLength?_cons {c : Char} {r : List Char} (h : c = '*' → r.head? ≠ some '/') :
    blockCommentLength? (c :: r) = (blockCommentLength? r).map (· + 1) := by
  rw [blockCommentLength?]
  rintro r' hc rfl
  exact h hc rfl

theorem blockCommentLength?_eq_some_succ {c : Char} {r : List Char} {n : Nat}
    (h : c = '*' → r.head? ≠ some '/') :
    blockCommentLength? (c :: r) = some (n + 1) ↔ blockCommentLength? r = some n := by
  rw [blockCommentLength?_cons h]
  constructor
  · intro hn
    obtain ⟨m, hm, hsucc⟩ := Option.map_eq_some_iff.1 hn
    rw [hm, Nat.succ.inj hsucc]
  · intro hn
    rw [hn]
    rfl

theorem blockCommentLength?_le {cs : List Char} {n : Nat} (h : blockCommentLength? cs = some n) :
    n ≤ cs.length := by
  fun_induction blockCommentLength? cs generalizing n with
  | case1 =>
    cases h
    simp
  | case2 c r _ ih =>
    obtain ⟨m, hm, rfl⟩ := Option.map_eq_some_iff.1 h
    exact Nat.succ_le_succ (ih hm)
  | case3 => cases h

/-- Two characters that stand together in what is left stood together before. -/
theorem head?_of_movedLeft {c : Char} (hc : c ≠ '\n')
    (h : MovedLeft follow false (t.map (·, mark)) out b) (hhead : out.head? = some c) :
    t.head? = some c := by
  cases out with
  | nil => cases hhead
  | cons c' out =>
    obtain rfl : c' = c := Option.some.inj hhead
    cases t with
    | nil => cases h
    | cons d t =>
      rw [List.map_cons] at h
      cases h with
      | keep => rfl
      | newline => exact absurd rfl hc
      | trim hend => exact absurd (hend _ rfl) hc

theorem closing_of_blockCommentLength? {r : List Char} (hslash : (r ++ d).head? = some '/')
    (h : blockCommentLength? ('*' :: r ++ d) = some (r.length + 1)) : r = ['/'] := by
  have hmarks (r : List Char) : blockCommentLength? ('*' :: '/' :: r) = some 2 := rfl
  cases r with
  | nil =>
    obtain ⟨d, rfl⟩ := List.head?_eq_some_iff.1 hslash
    cases (hmarks d).symm.trans h
  | cons e r =>
    obtain rfl : e = '/' := Option.some.inj hslash
    have hlength := Option.some.inj ((hmarks (r ++ d)).symm.trans h)
    rw [List.eq_nil_of_length_eq_zero (Nat.succ.inj (Nat.succ.inj hlength)).symm]

/-- A comment over several lines ends with its slash. -/
theorem ends_of_blockCommentLength? (h : blockCommentLength? (t ++ d) = some t.length) :
    ∃ t', t = t' ++ ['/'] := by
  induction t with
  | nil => exact absurd (blockCommentLength?_pos h) (Nat.lt_irrefl 0)
  | cons c r ih =>
    by_cases hend : c = '*' ∧ (r ++ d).head? = some '/'
    · obtain ⟨rfl, hslash⟩ := hend
      rw [closing_of_blockCommentLength? hslash h]
      exact ⟨['*'], rfl⟩
    · rw [not_and] at hend
      obtain ⟨t', rfl⟩ := ih ((blockCommentLength?_eq_some_succ hend).1 h)
      exact ⟨c :: t', rfl⟩

/-- A block comment ends at the same marks. -/
theorem blockCommentLength?_movedLeft (h : MovedLeft follow b (t.map (·, mark)) out b')
    (ht : blockCommentLength? (t ++ d) = some t.length) :
    blockCommentLength? (out ++ follow) = some out.length := by
  induction t generalizing b out with
  | nil => exact absurd (blockCommentLength?_pos ht) (Nat.lt_irrefl 0)
  | cons c r ih =>
    by_cases hend : c = '*' ∧ (r ++ d).head? = some '/'
    · obtain ⟨rfl, hslash⟩ := hend
      obtain rfl := closing_of_blockCommentLength? hslash ht
      obtain ⟨out₁, rfl, h₁⟩ := h.of_cons (by decide)
      obtain ⟨out₂, rfl, h₂⟩ := h₁.of_cons (by decide)
      cases h₂
      rfl
    · rw [not_and] at hend
      have hrest := (blockCommentLength?_eq_some_succ hend).1 ht
      rw [List.map_cons] at h
      cases h with
      | @keep _ _ _ _ _ out₁ _ h₁ =>
        refine (blockCommentLength?_eq_some_succ fun hc hslash => ?_).2 (ih h₁ hrest)
        have hne : out₁ ≠ [] := by
          rintro rfl
          exact absurd (blockCommentLength?_pos (ih h₁ hrest)) (Nat.lt_irrefl 0)
        obtain ⟨e, out₂, rfl⟩ := List.exists_cons_of_ne_nil hne
        have hr := head?_of_movedLeft (by decide) h₁ hslash
        obtain ⟨r, rfl⟩ := List.head?_eq_some_iff.1 hr
        exact hend hc rfl
      | newline _ h₁ =>
          exact (blockCommentLength?_eq_some_succ (fun hc => absurd hc (by decide))).2 (ih h₁ hrest)
      | margin _ h₁ => exact ih h₁ hrest
      | trim _ h₁ => exact ih h₁ hrest

theorem lineCommentLength_cons {c : Char} {r : List Char} {n : Nat} :
    lineCommentLength (c :: r) = n + 1 ↔
    c ≠ '\n' ∧ ¬(c = '?' ∧ r.head? = some '>') ∧ lineCommentLength r = n := by
  by_cases hline : c = '\n'
  · simp [hline, lineCommentLength]
  by_cases htag : c = '?' ∧ r.head? = some '>'
  · obtain ⟨rfl, hhead⟩ := htag
    obtain ⟨r, rfl⟩ := List.head?_eq_some_iff.1 hhead
    simp [lineCommentLength]
  · rw [lineCommentLength.eq_3 _ _ hline fun r' hc hr => htag ⟨hc, by rw [hr]; rfl⟩]
    simp [hline, htag]

theorem lineCommentLength_le (cs : List Char) : lineCommentLength cs ≤ cs.length := by
  fun_induction lineCommentLength cs with
  | case1 => exact Nat.zero_le _
  | case2 => exact Nat.zero_le _
  | case3 c r _ _ ih => exact Nat.succ_le_succ ih
  | case4 => exact Nat.le_refl _

theorem not_mem_of_lineCommentLength (h : lineCommentLength (t ++ d) = t.length) : '\n' ∉ t := by
  induction t with
  | nil => exact List.not_mem_nil
  | cons c r ih =>
    obtain ⟨hline, -, hrest⟩ := lineCommentLength_cons.1 h
    simp [ih hrest, Ne.symm hline]

/-- What ends a comment up to the end of its line. -/
theorem ends_of_lineCommentLength (h : lineCommentLength (t ++ d) = t.length) :
    AtLineEnd d ∨ startsWith "?>" d = true := by
  induction t with
  | nil =>
    cases d with
    | nil => exact .inl (by simp [AtLineEnd])
    | cons c d =>
      by_cases hline : c = '\n'
      · exact .inl (by simp [AtLineEnd, hline])
      · by_cases htag : c = '?' ∧ d.head? = some '>'
        · obtain ⟨rfl, hhead⟩ := htag
          obtain ⟨d, rfl⟩ := List.head?_eq_some_iff.1 hhead
          exact .inr rfl
        · cases (lineCommentLength_cons.2 ⟨hline, htag, rfl⟩).symm.trans h
  | cons c r ih => exact ih (lineCommentLength_cons.1 h).2.2

/-- A comment up to the end of its line ends there still. -/
theorem lineCommentLength_movedLeft (hfollow : AtLineEnd follow ∨ startsWith "?>" follow = true)
    (h : MovedLeft follow false (t.map (·, mark)) out b)
    (ht : lineCommentLength (t ++ d) = t.length) :
    lineCommentLength (out ++ follow) = out.length := by
  induction t generalizing out with
  | nil =>
    cases h
    rcases hfollow with hend | htag
    · cases follow with
      | nil => rfl
      | cons c follow =>
        obtain rfl := hend c rfl
        rfl
    · obtain ⟨follow, rfl⟩ := List.isPrefixOf_iff_prefix.1 htag
      rfl
  | cons c r ih =>
    obtain ⟨hline, htag, hrest⟩ := lineCommentLength_cons.1 ht
    rw [List.map_cons] at h
    cases h with
    | @keep _ _ _ _ _ out₁ _ h₁ =>
      refine lineCommentLength_cons.2 ⟨hline, ?_, ih h₁ hrest⟩
      rintro ⟨hc, hhead⟩
      by_cases hnil : out₁ = []
      · subst hnil
        rcases hfollow with hend | htag
        · exact absurd (hend _ hhead) (by decide)
        · obtain ⟨follow, rfl⟩ := List.isPrefixOf_iff_prefix.1 htag
          cases hhead
      · obtain ⟨e, out₂, rfl⟩ := List.exists_cons_of_ne_nil hnil
        have hr := head?_of_movedLeft (by decide) h₁ hhead
        obtain ⟨r, rfl⟩ := List.head?_eq_some_iff.1 hr
        exact htag ⟨hc, rfl⟩
    | newline => exact absurd rfl hline
    | trim _ h₁ => exact ih h₁ hrest

end Comment

section Heredoc

/-- The text of a heredoc ends with a label, so it is not empty. -/
theorem heredocBodyLength?_pos {label cs : List Char} {n : Nat}
    (h : heredocBodyLength? label cs = some n) : 0 < n := by
  cases cs with
  | nil => cases h
  | cons c r =>
    unfold heredocBodyLength? at h
    dsimp only at h
    split at h
    next =>
      cases h
      omega
    next =>
      obtain ⟨m, -, rfl⟩ := Option.map_eq_some_iff.1 h
      exact Nat.succ_pos _

/-- A heredoc ends inside of its source. -/
theorem heredocBodyLength?_le {label cs : List Char} {n : Nat}
    (h : heredocBodyLength? label cs = some n) :
    n ≤ cs.length := by
  induction cs generalizing n with
  | nil => cases h
  | cons c r ih =>
    unfold heredocBodyLength? at h
    dsimp only at h
    split at h
    next hcloses =>
      cases h
      have hbegins := (Bool.and_eq_true_iff.1 (Bool.and_eq_true_iff.1 hcloses).2).1
      have hlabel := (List.isPrefixOf_iff_prefix.1 hbegins).length_le
      have hmargin := (List.takeWhile_prefix (l := r) isMargin).length_le
      rw [List.length_drop] at hlabel
      rw [List.length_cons]
      omega
    next =>
      obtain ⟨m, hm, rfl⟩ := Option.map_eq_some_iff.1 h
      exact Nat.succ_le_succ (ih hm)

def closesLine (label cs : List Char) : Bool :=
  closesHeredoc label (cs.drop (cs.takeWhile isMargin).length)

theorem heredocBodyLength?_cons (label : List Char) (c : Char) (r : List Char) :
    heredocBodyLength? label (c :: r) =
    if c = '\n' && closesLine label r then some (1 + (r.takeWhile isMargin).length + label.length)
    else (heredocBodyLength? label r).map (· + 1) := rfl

/-- The text of a heredoc goes on behind a character that does not close it. -/
theorem heredocBodyLength?_eq_some_succ {label : List Char} {c : Char} {r : List Char} {n : Nat}
    (h : c = '\n' → closesLine label r = false) :
    heredocBodyLength? label (c :: r) = some (n + 1) ↔ heredocBodyLength? label r = some n := by
  have hcond : ¬(decide (c = '\n') && closesLine label r) = true := by
    rw [Bool.and_eq_true, decide_eq_true_eq]
    rintro ⟨hc, hcloses⟩
    rw [h hc] at hcloses
    cases hcloses
  rw [heredocBodyLength?_cons, if_neg hcond]
  constructor
  · intro hn
    obtain ⟨m, hm, hsucc⟩ := Option.map_eq_some_iff.1 hn
    rw [hm, Nat.succ.inj hsucc]
  · intro hn
    rw [hn]
    rfl

theorem plain_of_isNamePart {c : Char} (h : isNamePart c = true) : c ≠ '\r' ∧ c ≠ '\n' := by
  constructor <;>
  · rintro rfl
    exact absurd h (by decide)

theorem plain_of_isMargin {c : Char} (h : isMargin c = true) : c ≠ '\r' ∧ c ≠ '\n' := by
  constructor <;>
  · rintro rfl
    exact absurd h (by decide)

theorem isMargin_of_isNameStart {c : Char} (h : isNameStart c = true) : isMargin c = false := by
  rw [isMargin, Bool.or_eq_false_iff, beq_eq_false_iff_ne, beq_eq_false_iff_ne]
  constructor <;>
  · rintro rfl
    exact absurd h (by decide)

theorem closesHeredoc_self {label follow : List Char}
    (hfollow : ∀ c ∈ follow.head?, isNamePart c = false) :
    closesHeredoc label (label ++ follow) = true := by
  have hlabelled : label.isPrefixOf (label ++ follow) = true :=
    List.isPrefixOf_iff_prefix.2 (List.prefix_append _ _)
  have hnext : (label ++ follow)[label.length]? = follow.head? := by
    rw [List.getElem?_append_right (Nat.le_refl _), Nat.sub_self, List.head?_eq_getElem?]
  rw [closesHeredoc, hlabelled, hnext]
  cases hf : follow.head? with
  | none => rfl
  | some c => simp [hfollow c hf]

/-- Whether a line closes a heredoc does not depend on what is behind the line. -/
theorem closesHeredoc_append {label e : List Char} (hlabel : ∀ c ∈ label, isNamePart c = true)
    (he : AtBreak e) (cs : List Char) : closesHeredoc label (cs ++ e) = closesHeredoc label cs := by
  have hplain : ∀ c ∈ label, c ≠ '\r' ∧ c ≠ '\n' := fun c hc => plain_of_isNamePart (hlabel c hc)
  rw [closesHeredoc, closesHeredoc, isPrefixOf_append_atBreak hplain he]
  cases hlabelled : label.isPrefixOf cs with
  | false => rfl
  | true =>
    obtain ⟨behind, rfl⟩ := List.isPrefixOf_iff_prefix.1 hlabelled
    have hnext (ds : List Char) : (label ++ ds)[label.length]? = ds.head? := by
      rw [List.getElem?_append_right (Nat.le_refl _), Nat.sub_self, List.head?_eq_getElem?]
    rw [List.append_assoc, hnext, hnext]
    cases behind with
    | nil => rw [List.nil_append, any_head?_of_atBreak (by decide) (by decide) he]; rfl
    | cons c behind => rfl

/-- What closes a heredoc does not depend on what is behind the line. -/
theorem closesLine_append {label e : List Char} (hlabel : ∀ c ∈ label, isNamePart c = true)
    (he : AtBreak e) (line : List Char) : closesLine label (line ++ e) = closesLine label line := by
  have hmargins : IsLocal fun cs => (cs.takeWhile isMargin).length :=
    .takeWhile (by decide) (by decide)
  have hmargin : ((line ++ e).takeWhile isMargin).length = (line.takeWhile isMargin).length := by
    have hcut := hmargins.cut (u := line) (d := []) he
    rw [List.append_nil] at hcut
    exact hcut (hmargins.le line)
  rw [closesLine, closesLine, hmargin, List.drop_append_of_le_length (hmargins.le line),
    closesHeredoc_append hlabel he]

/-- A label behind white space closes a heredoc, if no further character of a name follows. -/
theorem closesLine_self {margins label follow : List Char}
    (hmargins : ∀ c ∈ margins, isMargin c = true) (hlabel : label.head?.any isNameStart = true)
    (hfollow : ∀ c ∈ follow.head?, isNamePart c = false) :
    (margins ++ (label ++ follow)).takeWhile isMargin = margins ∧
      closesLine label (margins ++ (label ++ follow)) = true := by
  have hmargin : (margins ++ (label ++ follow)).takeWhile isMargin = margins := by
    refine takeWhile_append_stops hmargins fun c hc => isMargin_of_isNameStart ?_
    cases label with
    | nil => cases hlabel
    | cons d label =>
      obtain rfl : d = c := Option.some.inj hc
      exact hlabel
  refine ⟨hmargin, ?_⟩
  rw [closesLine, hmargin, List.drop_left, closesHeredoc_self hfollow]

/-- The line that closes a heredoc is its margin and the label, and what is behind does not
go on with the label. -/
theorem closing_of_heredocBodyLength? {label r d : List Char}
    (hcloses : closesLine label (r ++ d) = true) (h : heredocBodyLength? label ('\n' :: r ++ d) =
      some (r.length + 1)) :
    ∃ margins, r = margins ++ label ∧ (∀ c ∈ margins, isMargin c = true) ∧
      ∀ c ∈ d.head?, isNamePart c = false := by
  rw [List.cons_append, heredocBodyLength?_cons, if_pos (by simp [hcloses])] at h
  obtain ⟨hlabelled, hends⟩ := Bool.and_eq_true_iff.1 hcloses
  have hmargins : ∀ c ∈ (r ++ d).takeWhile isMargin, isMargin c = true :=
    List.all_eq_true.1 List.all_takeWhile
  have hline : (r ++ d).takeWhile isMargin ++ (r ++ d).drop ((r ++ d).takeWhile isMargin).length =
      r ++ d :=
    List.prefix_iff_eq_append.1 (List.takeWhile_prefix isMargin)
  generalize (r ++ d).takeWhile isMargin = margins at h hlabelled hends hline hmargins
  obtain ⟨behind, hbehind⟩ := List.isPrefixOf_iff_prefix.1 hlabelled
  rw [← hbehind] at hline hends
  have hlength : (margins ++ label).length = r.length := by
    have hsum := Option.some.inj h
    rw [List.length_append]
    omega
  rw [← List.append_assoc] at hline
  obtain ⟨rfl, rfl⟩ := List.append_inj hline hlength
  refine ⟨margins, rfl, hmargins, fun c hc => ?_⟩
  rw [List.getElem?_append_right (Nat.le_refl _), Nat.sub_self, ← List.head?_eq_getElem?, hc]
    at hends
  simpa using hends

/-- The label stands on a line of its own. -/
theorem mem_of_heredocBodyLength? {label r d : List Char}
    (h : heredocBodyLength? label (r ++ d) = some r.length) :
    '\n' ∈ r := by
  induction r with
  | nil => exact absurd (heredocBodyLength?_pos h) (Nat.lt_irrefl 0)
  | cons c r ih =>
    by_cases hc : c = '\n'
    · exact hc ▸ List.mem_cons_self
    · exact List.mem_cons_of_mem _ (ih ((heredocBodyLength?_eq_some_succ fun h => absurd h hc).1 h))

theorem ends_of_heredocBodyLength? {label : List Char}
    (h : heredocBodyLength? label (t ++ d) = some t.length) :
    ∀ c ∈ d.head?, isNamePart c = false := by
  induction t with
  | nil => exact absurd (heredocBodyLength?_pos h) (Nat.lt_irrefl 0)
  | cons c r ih =>
    by_cases hcloses : c = '\n' ∧ closesLine label (r ++ d) = true
    · obtain ⟨rfl, hcloses⟩ := hcloses
      obtain ⟨-, -, -, hends⟩ := closing_of_heredocBodyLength? hcloses h
      exact hends
    · exact ih ((heredocBodyLength?_eq_some_succ (by simpa using hcloses)).1 h)

/-- A heredoc ends at the same label. -/
theorem heredocBodyLength?_movedLeft {label : List Char} (hlabel : isIdentifier label = true)
    (hfollow : ∀ c ∈ follow.head?, isNamePart c = false)
    (h : MovedLeft follow false (t.map (·, true)) out b)
    (ht : heredocBodyLength? label (t ++ d) = some t.length) :
    heredocBodyLength? label (out ++ follow) = some out.length := by
  rw [isIdentifier, Bool.and_eq_true, List.all_eq_true] at hlabel
  obtain ⟨hstart, hparts⟩ := hlabel
  induction t generalizing out with
  | nil => exact absurd (heredocBodyLength?_pos ht) (Nat.lt_irrefl 0)
  | cons c r ih =>
    by_cases hcloses : c = '\n' ∧ closesLine label (r ++ d) = true
    · obtain ⟨rfl, hcloses⟩ := hcloses
      obtain ⟨margins, rfl, hall, -⟩ := closing_of_heredocBodyLength? hcloses ht
      have hplain : ∀ c ∈ margins ++ label, c ≠ '\r' ∧ c ≠ '\n' := fun c hc =>
        (List.mem_append.1 hc).elim (fun hc => plain_of_isMargin (hall c hc)) fun hc =>
          plain_of_isNamePart (hparts c hc)
      rcases h.of_literal with ⟨out₁, rfl, h₁⟩ | ⟨hc, -, -⟩
      · obtain ⟨rfl, -⟩ := h₁.eq_of_plain hplain
        obtain ⟨hmargin, hself⟩ := closesLine_self hall hstart hfollow
        rw [List.cons_append, heredocBodyLength?_cons, List.append_assoc, hself, hmargin,
          if_pos (by simp), List.length_cons, List.length_append, Nat.add_assoc, Nat.add_comm 1]
      · cases hc
    · have hrest := (heredocBodyLength?_eq_some_succ (by simpa using hcloses)).1 ht
      rcases h.of_literal with ⟨out₁, rfl, h₁⟩ | ⟨-, -, h₁⟩
      · refine (heredocBodyLength?_eq_some_succ ?_).2 (ih h₁ hrest)
        rintro rfl
        obtain ⟨line, e, e', hr, rfl, hline, hbreak, -, hend⟩ := h₁.sameLine
        have hmap : (r.map (·, true)).map (·.1) = r := by simp [Function.comp_def]
        rw [hmap] at hr
        subst hr
        have hne : e ≠ [] := by
          rintro rfl
          exact hline (by simpa using mem_of_heredocBodyLength? hrest)
        have hself : closesLine label (line ++ e' ++ follow) = closesLine label line := by
          rw [List.append_assoc, closesLine_append hparts (hend hne).atBreak]
        refine hself.trans ?_
        rw [List.append_assoc, closesLine_append hparts (hbreak.append hne d)] at hcloses
        simpa using hcloses
      · exact ih h₁ hrest

/-- A heredoc behind its opening mark, before another text: its blanks, the label between its
quotes, and the lines up to the label. -/
inductive IsHeredoc (d : List Char) : List Char → Prop where
  | mk {blanks quote label body : List Char} (hblanks : ∀ c ∈ blanks, isMargin c = true)
      (hquote : quote = [] ∨ quote = ['\x27'] ∨ quote = ['\x22'])
      (hlabel : isIdentifier label = true)
      (hends : quote = [] → ∀ c ∈ (body ++ d).head?, isNamePart c = false)
      (hbody : heredocBodyLength? label (body ++ d) = some body.length) :
      IsHeredoc d (blanks ++ (quote ++ (label ++ (quote ++ body))))

theorem labelQuote_cases (cs : List Char) :
    labelQuote cs = [] ∨ labelQuote cs = ['\x27'] ∨ labelQuote cs = ['\x22'] := by
  cases cs with
  | nil => exact .inl rfl
  | cons c r =>
    by_cases hc : c = '\x27' ∨ c = '\x22'
    · rcases hc with rfl | rfl
      · exact .inr (.inl rfl)
      · exact .inr (.inr rfl)
    · exact .inl (by simpa [labelQuote] using hc)

theorem labelQuote_append_drop (cs : List Char) :
    labelQuote cs ++ cs.drop (labelQuote cs).length = cs := by
  cases cs with
  | nil => rfl
  | cons c r => by_cases hc : c = '\x27' ∨ c = '\x22' <;> simp [labelQuote, hc]

/-- The quote around a label is the one that stands before it. -/
theorem labelQuote_append {quote r : List Char}
    (hquote : quote = [] ∨ quote = ['\x27'] ∨ quote = ['\x22'])
    (hr : r.head?.any isNameStart = true) : labelQuote (quote ++ r) = quote := by
  rcases hquote with rfl | rfl | rfl
  · cases r with
    | nil => cases hr
    | cons c r =>
      have hstart : isNameStart c = true := hr
      have hc : c ≠ '\x27' ∧ c ≠ '\x22' := by
        constructor <;>
        · rintro rfl
          exact absurd hstart (by decide)
      simp [labelQuote, hc]
  · rfl
  · rfl

/-- A text whose beginning a rule counts is that beginning and the rest. -/
theorem exists_eq_append {cs : List Char} {n : Nat} (h : n ≤ cs.length) :
    ∃ t d, cs = t ++ d ∧ n = t.length :=
  ⟨cs.take n, cs.drop n,
    (List.take_append_drop n cs).symm, by rw [List.length_take, Nat.min_eq_left h]⟩

/-- What the scanner takes for a heredoc has an opening line, a body and a label. -/
theorem isHeredoc_of_heredocLength {p : Position} {cs : List Char} {n : Nat}
    (h : heredocLength p cs = .ok n) :
    ∃ t d, cs = t ++ d ∧ n = t.length ∧ IsHeredoc d t := by
  unfold heredocLength at h
  dsimp only at h
  have hfold (cs : List Char) : (cs.take 1).filter (fun c => c == '\x27' || c == '\x22') =
      labelQuote cs := rfl
  have hblanks : cs.takeWhile isMargin ++ cs.drop (cs.takeWhile isMargin).length = cs :=
    List.prefix_iff_eq_append.1 (List.takeWhile_prefix isMargin)
  have hmargin : ∀ c ∈ cs.takeWhile isMargin, isMargin c = true :=
    List.all_eq_true.1 List.all_takeWhile
  rw [hfold, ← List.drop_drop] at h
  generalize cs.takeWhile isMargin = blanks at h hblanks hmargin
  generalize cs.drop blanks.length = opening at h hblanks
  have hquote := labelQuote_cases opening
  have hopening := labelQuote_append_drop opening
  generalize labelQuote opening = quote at h hquote hopening
  generalize opening.drop quote.length = rest at h hopening
  have hlabel : rest.take (wordLength rest) = rest.takeWhile isNamePart :=
    (List.prefix_iff_eq_take.1 (List.takeWhile_prefix isNamePart)).symm
  have hrest : rest.takeWhile isNamePart ++ rest.drop (rest.takeWhile isNamePart).length = rest :=
    List.prefix_iff_eq_append.1 (List.takeWhile_prefix isNamePart)
  rw [hlabel] at h
  split at h
  next => cases h
  next hstart =>
    split at h
    next => cases h
    next hquoted =>
      obtain ⟨body, hbody⟩ : quote <+: rest.drop (rest.takeWhile isNamePart).length := by
        simpa using hquoted
      rw [← hbody, List.drop_left] at h
      split at h
      next m hm =>
        cases h
        have hcs : cs = blanks ++ (quote ++ (rest.takeWhile isNamePart ++ (quote ++ body))) := by
          rw [hbody, hrest, hopening, hblanks]
        have hidentifier : isIdentifier (rest.takeWhile isNamePart) = true := by
          rw [isIdentifier, List.all_takeWhile, Bool.and_true]
          cases rest with
          | nil => simp at hstart
          | cons c r =>
            have hc : isNameStart c = true := by simpa using hstart
            rw [List.takeWhile_cons_of_pos (isNamePart_of_isNameStart hc)]
            exact hc
        obtain ⟨body, d, rfl, rfl⟩ := exists_eq_append (heredocBodyLength?_le hm)
        refine ⟨_, d, ?_, ?_, .mk hmargin hquote hidentifier ?_ hm⟩
        · simp only [hcs, List.append_assoc]
        · simp only [List.length_append]
          omega
        rintro rfl c hc
        have hbehind : body ++ d = rest.dropWhile isNamePart :=
          hbody.trans (List.append_cancel_left (hrest.trans List.takeWhile_append_dropWhile.symm))
        rw [hbehind] at hc
        exact eq_false_of_mem_head?_dropWhile hc
      next => cases h

/-- What has an opening line, a body and a label is taken for a heredoc. -/
theorem heredocLength_of_isHeredoc (h : IsHeredoc d t) (p : Position) :
    heredocLength p (t ++ d) = .ok t.length := by
  obtain ⟨hblanks, hquote, hlabel, hends, hbody⟩ := h
  rename_i blanks quote label body
  rw [isIdentifier, Bool.and_eq_true, List.all_eq_true] at hlabel
  obtain ⟨hstart, hparts⟩ := hlabel
  have hlabel : (label ++ (quote ++ (body ++ d))).head?.any isNameStart = true := by
    cases label with
    | nil => cases hstart
    | cons c label => exact hstart
  have hmargin : (blanks ++ (quote ++ (label ++ (quote ++ (body ++ d))))).takeWhile isMargin =
      blanks := by
    refine takeWhile_append_stops hblanks fun c hc => ?_
    rcases hquote with rfl | rfl | rfl
    · rw [List.nil_append] at hc
      rw [hc] at hlabel
      exact isMargin_of_isNameStart hlabel
    · cases hc
      rfl
    · cases hc
      rfl
  have hword : wordLength (label ++ (quote ++ (body ++ d))) = label.length := by
    refine congrArg List.length (takeWhile_append_stops hparts fun c hc => ?_)
    rcases hquote with rfl | rfl | rfl
    · exact hends rfl c hc
    · cases hc
      rfl
    · cases hc
      rfl
  have hquoted : quote.isPrefixOf (quote ++ (body ++ d)) = true :=
    List.isPrefixOf_iff_prefix.2 (List.prefix_append _ _)
  have hfold (cs : List Char) : (cs.take 1).filter (fun c => c == '\x27' || c == '\x22') =
      labelQuote cs := rfl
  unfold heredocLength
  dsimp only
  simp only [List.append_assoc]
  rw [hmargin, List.drop_left, hfold, labelQuote_append hquote hlabel, ← List.drop_drop,
    List.drop_left, List.drop_left, hword, List.take_left, List.drop_left, hlabel, hquoted,
    List.drop_left, hbody]
  simp [Nat.add_assoc]

theorem IsHeredoc.ends (h : IsHeredoc d t) : ∀ c ∈ d.head?, isNamePart c = false := by
  obtain ⟨-, -, -, -, hbody⟩ := h
  exact ends_of_heredocBodyLength? hbody

/-- A heredoc stays one whose lines lose their carriage returns. -/
theorem IsHeredoc.movedLeft (ht : IsHeredoc d t)
    (hfollow : ∀ c ∈ follow.head?, isNamePart c = false)
    (h : MovedLeft follow false (t.map (·, true)) out b) : IsHeredoc follow out := by
  obtain ⟨hblanks, hquote, hlabel, hends, hbody⟩ := ht
  rename_i blanks quote label body
  have hopening (body : List Char) : blanks ++ (quote ++ (label ++ (quote ++ body))) =
      blanks ++ (quote ++ (label ++ quote)) ++ body := by
    simp only [List.append_assoc]
  have hplain : ∀ c ∈ blanks ++ (quote ++ (label ++ quote)), c ≠ '\r' ∧ c ≠ '\n' := by
    have hparts : ∀ c ∈ label, isNamePart c = true :=
      List.all_eq_true.1 (Bool.and_eq_true_iff.1 hlabel).2
    have hquoted : ∀ c ∈ quote, c ≠ '\r' ∧ c ≠ '\n' := by
      rcases hquote with rfl | rfl | rfl <;> simp
    intro c hc
    simp only [List.mem_append] at hc
    rcases hc with hc | hc | hc | hc
    · exact plain_of_isMargin (hblanks c hc)
    · exact hquoted c hc
    · exact plain_of_isNamePart (hparts c hc)
    · exact hquoted c hc
  rw [hopening, List.map_append] at h
  obtain ⟨left, right, mid, rfl, hleft, hright⟩ := h.of_append
  obtain ⟨rfl, rfl⟩ := hleft.eq_of_plain hplain
  have hout := heredocBodyLength?_movedLeft hlabel hfollow hright hbody
  rw [← hopening]
  refine .mk hblanks hquote hlabel (fun hnone c hc => ?_) hout
  by_cases hline : c = '\n'
  · rw [hline]
    rfl
  · cases right with
    | nil => exact absurd (heredocBodyLength?_pos hout) (Nat.lt_irrefl 0)
    | cons e right =>
      obtain ⟨rest, rfl⟩ := List.head?_eq_some_iff.1 (head?_of_movedLeft hline hright hc)
      exact hends hnone c rfl

end Heredoc

section Html

theorem length_of_tag {cs : List Char} (h : (cs.take 5).map Char.toLower = "<?php".toList) :
    5 ≤ cs.length := by
  have hcount := congrArg List.length h
  simp at hcount
  omega

/-- An opening tag does not go over the end of a line. -/
theorem tag_append_atBreak {e : List Char} (he : AtBreak e) (cs : List Char) :
    ((cs ++ e).take 5).map Char.toLower = "<?php".toList ↔ (cs.take 5).map Char.toLower =
      "<?php".toList := by
  by_cases hlength : 5 ≤ cs.length
  · rw [List.take_append_of_le_length hlength]
  · refine iff_of_false (fun h => ?_) fun h => hlength (length_of_tag h)
    cases e with
    | nil =>
      rw [List.append_nil] at h
      exact hlength (length_of_tag h)
    | cons x e =>
      have hmem : x ∈ (cs ++ x :: e).take 5 := by
        rw [List.take_append]
        refine List.mem_append_right _ ?_
        rw [← Nat.sub_add_cancel (Nat.sub_pos_of_lt (Nat.lt_of_not_le hlength)),
          List.take_succ_cons]
        exact List.mem_cons_self
      have hlower := List.mem_map_of_mem (f := Char.toLower) hmem
      rw [h] at hlower
      rcases he x rfl with rfl | rfl <;> exact absurd hlower (by decide)

/-- Whether an opening tag begins does not depend on what is behind a line. -/
theorem atOpenTag_append_atBreak {e : List Char} (he : AtBreak e) (cs : List Char) :
    atOpenTag (cs ++ e) = atOpenTag cs := by
  unfold atOpenTag
  by_cases htag : (cs.take 5).map Char.toLower = "<?php".toList
  · have hnext : ((cs ++ e)[5]?).all isBlank = (cs[5]?).all isBlank := by
      by_cases hmore : 6 ≤ cs.length
      · rw [List.getElem?_append_left hmore]
      · have hfive : cs.length = 5 := Nat.le_antisymm (Nat.le_of_lt_succ (Nat.lt_of_not_le hmore))
          (length_of_tag htag)
        rw [List.getElem?_append_right (Nat.le_of_eq hfive),
          List.getElem?_eq_none (Nat.le_of_eq hfive), hfive]
        cases e with
        | nil => rfl
        | cons x e => rcases he x rfl with rfl | rfl <;> rfl
    rw [hnext, beq_iff_eq.2 htag, beq_iff_eq.2 ((tag_append_atBreak he cs).2 htag)]
  · rw [beq_eq_false_iff_ne.2 htag, beq_eq_false_iff_ne.2 (mt (tag_append_atBreak he cs).1 htag)]
    rfl

theorem atOpenTag_of_append {cs : List Char} (hcs : 6 ≤ cs.length) (d d' : List Char) :
    atOpenTag (cs ++ d) = atOpenTag (cs ++ d') := by
  have htake (e : List Char) : (cs ++ e).take 5 = cs.take 5 :=
    List.take_append_of_le_length (by omega)
  have hnext (e : List Char) : (cs ++ e)[5]? = cs[5]? := List.getElem?_append_left hcs
  simp only [atOpenTag, htake, hnext]

theorem htmlLength_eq_succ {c : Char} {r : List Char} {n : Nat} :
    htmlLength (c :: r) = n + 1 ↔ atOpenTag (c :: r) = false ∧ htmlLength r = n := by
  rw [htmlLength]
  cases atOpenTag (c :: r) <;> simp

/-- What can come behind text outside of the tags: the end of both sources, or the same tag in
both. -/
inductive Outside : List Char → List Char → Prop where
  | eof : Outside [] []
  | tag {tag d d' : List Char} (hlength : tag.length = 5) (htag : atOpenTag (tag ++ d') = true) :
      Outside (tag ++ d) (tag ++ d')

/-- Text outside of the tags goes up to the same tag, or up to the end. -/
theorem htmlLength_movedLeft (h : MovedLeft follow b (t.map (·, false)) out b')
    (ht : htmlLength (t ++ d) = t.length) (hends : Outside d follow) :
    htmlLength (out ++ follow) = out.length := by
  induction t generalizing b out with
  | nil =>
    rw [List.map_nil] at h
    cases h
    cases hends with
    | eof => rfl
    | @tag tag d d' hlength htag =>
      obtain ⟨c, tag, rfl⟩ := List.exists_cons_of_length_eq_add_one hlength
      exact if_pos htag
  | cons c r ih =>
    obtain ⟨htag, hrest⟩ := htmlLength_eq_succ.1 ht
    rw [List.map_cons] at h
    cases h with
    | @keep _ _ _ _ _ out₁ _ h₁ =>
      refine htmlLength_eq_succ.2 ⟨?_, ih h₁ hrest⟩
      obtain ⟨line, e, e', hr, rfl, -, hbreak, hnil, hend⟩ := h₁.sameLine
      have hmap : (r.map (·, false)).map (·.1) = r := by simp [Function.comp_def]
      rw [hmap] at hr
      subst hr
      have hsame : atOpenTag (c :: line ++ (e' ++ follow)) = atOpenTag (c :: line ++ (e ++ d)) := by
        by_cases hne : e = []
        · subst hne
          rw [hnil rfl, List.nil_append, List.nil_append]
          cases hends with
          | eof => rfl
          | tag hlength =>
            rw [← List.append_assoc, ← List.append_assoc]
            refine atOpenTag_of_append ?_ _ _
            rw [List.length_append, List.length_cons]
            omega
        · rw [atOpenTag_append_atBreak (hend hne).atBreak,
            atOpenTag_append_atBreak (hbreak.append hne d)]
      rw [← List.append_assoc, ← List.append_assoc] at hsame
      exact hsame.trans htag
    | newline _ h₁ => exact htmlLength_eq_succ.2 ⟨rfl, ih h₁ hrest⟩
    | margin _ h₁ => exact ih h₁ hrest
    | trim _ h₁ => exact ih h₁ hrest

end Html

/-- The lexemes of code that may go over several lines: the first character and the
others, before another text. -/
inductive Spans (d : List Char) : Char → List Char → TokenKind → Prop where
  | line {c : Char} {t : List Char} (hc : (c = '#' ∧ (t ++ d).head? ≠ some '[') ∨
      (c = '/' ∧ (t ++ d).head? = some '/')) (ht : lineCommentLength (t ++ d) = t.length) :
      Spans d c t .comment
  | block {t : List Char} (ht : blockCommentLength? (t ++ d) = some t.length) :
      Spans d '/' ('*' :: t) .comment
  | heredoc {t : List Char} (ht : IsHeredoc d t) : Spans d '<' ('<' :: '<' :: t) .heredoc
  | quoted {c : Char} {t : List Char} (hc : c = '\x27' ∨ c = '\x22' ∨ c = '\x60')
      (ht : quotedLength c (t ++ d) = .ok t.length) : Spans d c t .quoted

section Spans

variable {p : Position} {c : Char} {r : List Char} {kind : TokenKind} {n : Nat}

/-- What spans lines is a comment, a quoted literal or a heredoc. -/
theorem spans_of_laterLexeme (h : laterLexeme p c r = .ok (kind, n))
    (hkind : kind.spansLines = true) :
    ∃ t d, r = t ++ d ∧ n = t.length ∧ Spans d c t kind := by
  cases laterRule_of_laterLexeme h with
  | var | word => cases hkind
  | number => rcases numberExtent_kind (c :: r) with h | h <;> rw [h] at hkind <;> cases hkind
  | quoted hquote hn =>
    obtain ⟨t, d, rfl, rfl⟩ := exists_eq_append (quotedLength_le hn)
    exact ⟨t, d, rfl, rfl, .quoted hquote hn⟩
  | operator ho =>
    have hoperators : ∀ o ∈ operators, o.2.spansLines = false := by decide
    exact absurd hkind (by simp [hoperators _ ho])

theorem spans_of_codeLexeme (h : codeLexeme p c r = .ok (kind, n))
    (hkind : kind.spansLines = true) :
    ∃ t d, r = t ++ d ∧ n = t.length ∧ Spans d c t kind := by
  rw [codeLexeme_eq] at h
  split at h
  next => cases h; cases hkind
  split at h
  next => cases h; cases hkind
  next hattribute =>
    split at h
    next hline =>
      cases h
      have hbegins : (c = '#' ∧ r.head? ≠ some '[') ∨ (c = '/' ∧ r.head? = some '/') := by
        rcases Bool.or_eq_true_iff.1 hline with hc | hc
        · obtain rfl : c = '#' := by simpa using hc
          refine .inl ⟨rfl, fun hr => hattribute ?_⟩
          obtain ⟨r, rfl⟩ := List.head?_eq_some_iff.1 hr
          rfl
        · obtain ⟨t, ht⟩ := List.isPrefixOf_iff_prefix.1 hc
          cases (show '/' :: '/' :: t = c :: r from ht)
          exact .inr ⟨rfl, rfl⟩
      obtain ⟨t, d, hr, hn⟩ := exists_eq_append (lineCommentLength_le r)
      subst hr
      exact ⟨t, d, rfl, hn, .line hbegins hn⟩
    split at h
    next hblock =>
      obtain ⟨r, hr⟩ := List.isPrefixOf_iff_prefix.1 hblock
      cases (show '/' :: '*' :: r = c :: _ from hr)
      split at h
      next hm =>
        cases h
        obtain ⟨t, d, hr, rfl⟩ := exists_eq_append (blockCommentLength?_le hm)
        obtain rfl : r = t ++ d := hr
        exact ⟨'*' :: t, d, rfl, rfl, .block hm⟩
      next => cases h
    split at h
    next hheredoc =>
      obtain ⟨r, hr⟩ := List.isPrefixOf_iff_prefix.1 hheredoc
      cases (show '<' :: '<' :: '<' :: r = c :: _ from hr)
      rw [List.drop_succ_cons, List.drop_succ_cons, List.drop_zero] at h
      cases hlength : heredocLength p r with
      | error e => rw [hlength] at h; cases h
      | ok m =>
        rw [hlength] at h
        cases h
        obtain ⟨t, d, rfl, rfl, ht⟩ := isHeredoc_of_heredocLength hlength
        exact ⟨'<' :: '<' :: t, d, rfl, rfl, .heredoc ht⟩
    exact spans_of_laterLexeme h hkind

variable {c : Char} {t : List Char}

/-- A comment, a quoted literal or a heredoc is cut off whatever follows. -/
theorem Spans.codeLexeme (h : Spans d c t kind) (p : Position) :
    codeLexeme p c (t ++ d) = .ok (kind, t.length) := by
  cases h with
  | line hc ht =>
    rw [← ht]
    generalize t ++ d = r at hc
    rcases hc with ⟨rfl, hr⟩ | ⟨rfl, hr⟩
    · have hclose : ¬startsWith "?>" ('#' :: r) = true := by simp [startsWith, List.isPrefixOf]
      have hattribute : ¬startsWith "#[" ('#' :: r) = true := by
        intro h
        obtain ⟨t, ht⟩ := List.isPrefixOf_iff_prefix.1 h
        cases (show '#' :: '[' :: t = '#' :: r from ht)
        exact hr rfl
      rw [codeLexeme_eq, if_neg hclose, if_neg hattribute]
      rfl
    · obtain ⟨r, rfl⟩ := List.head?_eq_some_iff.1 hr
      rfl
  | block ht =>
    rw [codeLexeme_eq]
    simp [startsWith, List.isPrefixOf, ht]
  | @heredoc t ht =>
    show (do return (TokenKind.heredoc, (← heredocLength p (t ++ d)) + 2)) = _
    rw [heredocLength_of_isHeredoc ht]
    rfl
  | quoted hc ht =>
    have hplain : c ∉ ['?', '#', '/', '<', '$'] := by
      rcases hc with rfl | rfl | rfl <;> decide
    rw [codeLexeme_of_plain hplain, stringLength, ht]
    rcases hc with rfl | rfl | rfl <;> rfl

end Spans

/-- What is behind a lexeme, and what is behind what is left of it: the same up to the end of a
line, which only the second need have. -/
structure Ahead (kind : TokenKind) (d follow : List Char) : Prop where
  line : ∃ line e e', d = line ++ e ∧ follow = line ++ e' ∧ AtLineEnd e' ∧
    (kind = .word → line = [] → d.head? ≠ some '\x7b')
  tag : kind = .comment → startsWith "?>" d = true → AtLineEnd follow ∨
    startsWith "?>" follow = true

namespace Ahead

variable {kind : TokenKind}

theorem head?_eq (h : Ahead kind d follow) : AtLineEnd follow ∨ follow.head? = d.head? := by
  obtain ⟨line, e, e', rfl, rfl, hend, -⟩ := h.line
  cases line with
  | nil => exact .inl hend
  | cons c line => exact .inr rfl

theorem sameBefore (h : Ahead kind d follow) (t : List Char) :
    SameBefore kind t.length (t ++ d) (t ++ follow) := by
  obtain ⟨line, e, e', rfl, rfl, hend, hgroup⟩ := h.line
  rw [← List.append_assoc, ← List.append_assoc]
  refine .cut (by simp) hend.atBreak fun hkind hlength => ?_
  have hnil : line = [] := List.eq_nil_of_length_eq_zero (by simpa using hlength)
  subst hnil
  exact hgroup hkind rfl

end Ahead

namespace Spans

variable {c : Char} {kind : TokenKind}

theorem state (h : Spans d c t kind)
    (hmoved : MovedLeft follow false (t.map (·, kind.isLiteral)) out b) :
    b = false := by
  cases h with
  | line _ ht => exact hmoved.state_of_not_mem (not_mem_of_lineCommentLength ht)
  | block ht =>
    obtain ⟨t, rfl⟩ := ends_of_blockCommentLength? ht
    rw [← List.cons_append, List.map_append] at hmoved
    exact hmoved.state_of_last (by decide)
  | heredoc => exact hmoved.state_of_literal
  | quoted => exact hmoved.state_of_literal

/-- What is left of a lexeme is a lexeme of the same kind. -/
theorem movedLeft (h : Spans d c t kind)
    (hmoved : MovedLeft follow false (t.map (·, kind.isLiteral)) out b)
    (hahead : Ahead kind d follow) : Spans follow c out kind := by
  cases h with
  | line hc ht =>
    have hfollow : AtLineEnd follow ∨ startsWith "?>" follow = true := by
      rcases ends_of_lineCommentLength ht with hend | htag
      · rcases hahead.head?_eq with hfollow | hsame
        · exact .inl hfollow
        · exact .inl fun c hc => hend c (hsame ▸ hc)
      · exact hahead.tag rfl htag
    refine .line ?_ (lineCommentLength_movedLeft hfollow hmoved ht)
    rcases hc with ⟨rfl, hr⟩ | ⟨rfl, hr⟩
    · refine .inl ⟨rfl, fun hout => hr ?_⟩
      cases out with
      | nil =>
        rcases hfollow with hend | htag
        · cases hend _ hout
        · obtain ⟨follow, rfl⟩ := List.isPrefixOf_iff_prefix.1 htag
          cases hout
      | cons e out =>
        obtain ⟨t, rfl⟩ := List.head?_eq_some_iff.1 (head?_of_movedLeft (by decide) hmoved hout)
        rfl
    · cases t with
      | nil =>
        obtain ⟨d, rfl⟩ := List.head?_eq_some_iff.1 hr
        cases ht
      | cons e t =>
        obtain rfl : e = '/' := Option.some.inj hr
        obtain ⟨out₁, rfl, -⟩ := hmoved.of_cons (by decide)
        exact .inr ⟨rfl, rfl⟩
  | block ht =>
    obtain ⟨out₁, rfl, hrest⟩ := hmoved.of_cons (by decide)
    exact .block (blockCommentLength?_movedLeft hrest ht)
  | heredoc ht =>
    obtain ⟨out₁, rfl, hmark⟩ := hmoved.of_cons (by decide)
    obtain ⟨out₂, rfl, hrest⟩ := hmark.of_cons (by decide)
    refine .heredoc (ht.movedLeft (fun c hc => ?_) hrest)
    rcases hahead.head?_eq with hend | hsame
    · rw [hend c hc]
      rfl
    · exact ht.ends c (hsame ▸ hc)
  | quoted hc ht =>
    refine .quoted hc (quotedLength_movedLeft ?_ ?_ hmoved ht)
    · rcases hc with rfl | rfl | rfl <;> decide
    · rcases hc with rfl | rfl | rfl <;> decide

end Spans

end ClassEdit.Scan
