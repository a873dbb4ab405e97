import ClassEdit.Proofs.Token.Separating

/-!
What a text tells of literals. Texts are put together from the end, since what a text is cut into
depends on what comes behind it. Main statements: names, numbers and marks tell nothing, and neither
does a sign that runs into the sign behind it.
-/

namespace ClassEdit.Scan

open Quoted (isNameStart)

/-- Wherever the text stands, it is cut into lexemes with the given literals. -/
def Holds (mode : Mode) (cs : List Char) (xs : List (List Char)) : Prop :=
  ∀ p, ∃ ls, Scanned mode p cs ls ∧ Lexeme.literals ls = xs

section Holds

variable {mode : Mode} {kind : TokenKind} {cs gap x follow : List Char} {xs : List (List Char)}

/-- The literals of a text are the same wherever it stands. -/
theorem holds_of_scanned {p : Position} {ls : List Lexeme} (h : Scanned mode p cs ls) :
    Holds mode cs (Lexeme.literals ls) := by
  induction h with
  | eof _ hgap => exact fun p => ⟨_, .eof p hgap, rfl⟩
  | @cons mode p gap x cs kind ls hgap hx _ ih =>
    intro q
    obtain ⟨ls', hls', hsame⟩ := ih ((q.after gap).after x)
    refine ⟨_, .cons hgap hx hls', ?_⟩
    rw [Lexeme.literals_cons, Lexeme.literals_cons, hsame]

theorem Holds.nil (mode : Mode) : Holds mode [] [] :=
  fun p => ⟨_, .eof p (isGap_nil mode), rfl⟩

theorem Holds.lexeme (hx : Begins mode kind x follow) (h : Holds (modeAfter kind) follow xs) :
    Holds mode (x ++ follow) ((if kind.isLiteral then [x] else []) ++ xs) := by
  intro p
  obtain ⟨ls, hls, hxs⟩ := h ((p.after []).after x)
  refine ⟨_, .cons (isGap_nil mode) hx hls, ?_⟩
  rw [Lexeme.literals_cons, hxs]

/-- A token of code that is no literal. -/
theorem Holds.token (h : Holds .code follow xs) (hx : IsToken kind x follow)
    (hmode : modeAfter kind = .code) (hliteral : kind.isLiteral = false) :
    Holds .code (x ++ follow) xs := by
  have hlexeme := Holds.lexeme (begins_code_iff.2 hx) (hmode ▸ h)
  rwa [hliteral] at hlexeme

/-- A token that is no literal adds no literal to those behind it. -/
theorem Holds.of_token (h : Holds .code (x ++ follow) xs) (hx : IsToken kind x follow)
    (hmode : modeAfter kind = .code) (hliteral : kind.isLiteral = false) :
    Holds .code follow xs := by
  obtain ⟨ls, hls, hxs⟩ := h .start
  obtain ⟨l, ls, rfl⟩ := List.exists_cons_of_ne_nil hls.ne_nil
  obtain ⟨hkind, hsource⟩ := hls.eq_of_isToken hx
  have hne : ls ≠ [] := by
    rintro rfl
    obtain ⟨c, t, rfl, hc, -⟩ := hx
    generalize hcs : c :: t ++ follow = cs at hls
    cases hls with
    | eof _ hgap =>
      rw [← hcs] at hgap
      cases (hgap c List.mem_cons_self).symm.trans hc
    | cons _ _ hnil => exact absurd rfl hnil.ne_nil
  obtain ⟨d, hcut, -, -, hd⟩ := hls.uncons hne
  rw [← List.append_assoc, show l.gap ++ l.text = x from hsource, List.append_cancel_left_eq]
    at hcut
  rw [Lexeme.literals_cons, hkind, hliteral] at hxs
  rw [hkind, hmode, ← hcut] at hd
  rw [← hxs]
  exact holds_of_scanned hd

/-- White space adds no literal to those behind it. -/
theorem Holds.behindGap (h : Holds mode cs xs) (hgap : IsGap mode gap) :
    Holds mode (gap ++ cs) xs := by
  cases mode with
  | html =>
    obtain rfl : gap = [] := hgap
    exact h
  | code =>
    intro p
    obtain ⟨ls, hls, hxs⟩ := h (p.after gap)
    obtain ⟨l, ls, rfl⟩ := List.exists_cons_of_ne_nil hls.ne_nil
    refine ⟨_, hls.behindGap hgap, ?_⟩
    rw [Lexeme.literals_cons] at hxs ⊢
    exact hxs

/-- A separator is a blank or a mark. -/
theorem Holds.separator (h : Holds .code follow xs) {c : Char} (hc : c ∈ separators) :
    Holds .code (c :: follow) xs := by
  have hblank (hc : isBlank c = true) : Holds .code ([c] ++ follow) xs :=
    h.behindGap fun d hd => List.mem_singleton.1 hd ▸ hc
  simp only [separators, List.mem_cons, List.not_mem_nil, or_false] at hc
  rcases hc with rfl | rfl | rfl | rfl | rfl | rfl | rfl
  · exact hblank rfl
  · exact hblank rfl
  · exact h.token (isToken_comma follow) rfl rfl
  · exact h.token (isToken_semicolon follow) rfl rfl
  · exact h.token (isToken_leftParen follow) rfl rfl
  · exact h.token (isToken_rightParen follow) rfl rfl
  · exact h.token (isToken_rightBracket follow) rfl rfl

end Holds

section Calm

/-- The marks that are tokens by themselves, and run into nothing but one another. -/
def calmMarks : List Char :=
  ['\\', '.', '-', '+', '$', '?', '|', '&', '(', ')', ',', ';', ':', '=', '\x7b', '\x7d']

/-- The characters that begin neither a literal nor a comment nor a tag. -/
def isCalm (c : Char) : Bool :=
  isNamePart c || c == ' ' || calmMarks.contains c

theorem isNameStart_or_isDigit {c : Char} (h : isNamePart c = true) :
    isNameStart c = true ∨ c.isDigit = true := by
  simp only [isNamePart, isNameStart, Char.isAlphanum, Bool.or_eq_true] at h ⊢
  rcases h with (h | h | h) | h
  · exact .inl (.inl (.inl h))
  · exact .inl (.inl (.inr h))
  · exact .inr h
  · exact .inl (.inr h)

theorem exists_operator {c : Char} (hc : c ∈ calmMarks) (r : List Char) :
    ∃ o ∈ operators, operator? (c :: r) = some o := by
  have hmarks : ∀ c ∈ calmMarks, ∃ o ∈ operators, o.1.toList = [c] := by decide
  obtain ⟨o, ho, hmark⟩ := hmarks c hc
  have hsome : (operator? (c :: r)).isSome = true := by
    refine List.find?_isSome.2 ⟨o, ho, ?_⟩
    rw [startsWith, hmark]
    simp [List.isPrefixOf]
  obtain ⟨o', ho'⟩ := Option.isSome_iff_exists.1 hsome
  exact ⟨o', List.mem_of_find?_eq_some ho', ho'⟩

/-- The rules for tags, comments, heredocs and strings are for other characters. -/
theorem exists_codeLexeme_of_calm {c : Char} {t : List Char} (hc : isCalm c = true)
    (hblank : isBlank c = false) (ht : ∀ d ∈ t, isCalm d = true) :
    ∃ kind n, codeLexeme .start c t = .ok (kind, n) ∧
      modeAfter kind = .code ∧ kind.isLiteral = false ∧ kind ≠ .comment := by
  have hplain : ∀ d ∈ ['#', '/', '<', '\x27', '\x22', '\x60', ' '], c ≠ d := by
    have hcalm : ∀ d ∈ ['#', '/', '<', '\x27', '\x22', '\x60', ' '], isCalm d = false ∨
        isBlank d = true := by decide
    rintro d hd rfl
    rcases hcalm c hd with h | h
    · cases hc.symm.trans h
    · cases hblank.symm.trans h
  have hstart {w : String} {d : Char} {v : List Char} (hw : w.toList = d :: v) (hd : c ≠ d) :
      ¬startsWith w (c :: t) = true := by
    simp [startsWith, hw, List.isPrefixOf, Ne.symm hd]
  have hclose : ¬startsWith "?>" (c :: t) = true := by
    intro h
    obtain ⟨r, hr⟩ := List.isPrefixOf_iff_prefix.1 h
    obtain ⟨-, rfl⟩ : '?' = c ∧ '>' :: r = t := List.cons.inj hr
    cases ht '>' List.mem_cons_self
  rw [codeLexeme_eq, if_neg hclose, if_neg (hstart rfl (hplain '#' (by simp))),
    if_neg (by simp [hplain '#', hstart (w := "//") rfl (hplain '/' (by simp))]),
    if_neg (hstart rfl (hplain '/' (by simp))), if_neg (hstart rfl (hplain '<' (by simp)))]
  unfold laterLexeme
  split
  next => exact ⟨_, _, rfl, rfl, rfl, by decide⟩
  split
  next => exact ⟨_, _, rfl, rfl, rfl, by decide⟩
  next hname =>
    split
    next =>
      refine ⟨_, _, rfl, ?_⟩
      rcases numberExtent_kind (c :: t) with hkind | hkind <;>
      · rw [hkind]
        exact ⟨rfl, rfl, by decide⟩
    next hnumber =>
      rw [if_neg (by simp [hplain])]
      have hmark : c ∈ calmMarks := by
        rw [isCalm, Bool.or_eq_true, Bool.or_eq_true] at hc
        rcases hc with (hpart | hspace) | hmark
        · rcases isNameStart_or_isDigit hpart with h | h <;> simp [h] at hname hnumber
        · exact absurd (eq_of_beq hspace) (hplain ' ' (by simp))
        · exact List.contains_iff_mem.1 hmark
      obtain ⟨o, ho, hop⟩ := exists_operator hmark t
      have hops : ∀ o ∈ operators, modeAfter o.2 = .code ∧ o.2.isLiteral = false ∧
          o.2 ≠ .comment := by decide
      rw [hop]
      exact ⟨_, _, rfl, hops o ho⟩

/-- A text of such characters begins with a token that is no literal. -/
theorem exists_isToken_of_calm {c : Char} {t : List Char} (hc : isCalm c = true)
    (hblank : isBlank c = false) (ht : ∀ d ∈ t, isCalm d = true) :
    ∃ kind y d, c :: t = y ++ d ∧ y ≠ [] ∧ IsToken kind y d ∧
      modeAfter kind = .code ∧ kind.isLiteral = false ∧ kind ≠ .comment := by
  obtain ⟨kind, n, hl, hkind⟩ := exists_codeLexeme_of_calm hc hblank ht
  obtain ⟨y, d, rfl, -, hbegins⟩ := begins_of_lexeme (fun _ : Mode.code = .code => hblank) hl
  exact ⟨kind, c :: y, d, rfl, List.cons_ne_nil _ _, begins_code_iff.1 hbegins, hkind⟩

/-- A text without marks of literals adds none to those behind it. -/
theorem Holds.calm {x follow : List Char} {xs : List (List Char)} (h : Holds .code follow xs)
    (hx : ∀ c ∈ x, isCalm c = true) (hfollow : AtSeparator follow) :
    Holds .code (x ++ follow) xs := by
  induction hlength : x.length using Nat.strongRecOn generalizing x with
  | ind n ih =>
    subst hlength
    cases x with
    | nil => exact h
    | cons c t =>
      obtain ⟨hc, ht⟩ := List.forall_mem_cons.1 hx
      cases hblank : isBlank c with
      | true =>
        have hrest := ih _ (Nat.lt_succ_self _) ht rfl
        have hgap : IsGap .code [c] := fun d hd => List.mem_singleton.1 hd ▸ hblank
        exact hrest.behindGap hgap
      | false =>
        obtain ⟨kind, y, d, hcut, hy, htoken, hmode, hliteral, hcomment⟩ :=
          exists_isToken_of_calm hc hblank ht
        have hshort : d.length < (c :: t).length := by
          rw [hcut, List.length_append]
          exact Nat.lt_add_of_pos_left (List.length_pos_iff.2 hy)
        have hrest :=
          ih _ hshort (fun e he => hx e (by rw [hcut]; exact List.mem_append_right _ he)) rfl
        rw [hcut, List.append_assoc]
        exact hrest.token (htoken.append (fun _ => hcomment) hfollow) hmode hliteral

end Calm

section Signs

def signs : List Char := ['&', '=', '>']

/-- Of signs that stand together the first ones are a token. -/
theorem exists_isToken_of_signs {c : Char} {t v : List Char} (h : ∀ d ∈ c :: t, d ∈ signs)
    (hv : ∀ d ∈ v.head?, d ∉ signs) :
    ∃ kind y d, c :: t = y ++ d ∧ y ≠ [] ∧ IsToken kind y (d ++ v) ∧
      modeAfter kind = .code ∧ kind.isLiteral = false := by
  have hc := h c List.mem_cons_self
  have hplain : ∀ c ∈ signs, c ∉ ['?', '#', '/', '<', '$'] ∧ isBlank c = false ∧
      isNameStart c = false ∧
      c ≠ '\\' ∧ c.isDigit = false ∧ c ≠ '.' ∧ c ≠ '\x27' ∧ c ≠ '\x22' ∧ c ≠ '\x60' ∧
        ∃ o ∈ operators, o.1.toList = [c] := by
    decide
  obtain ⟨hmark, hblank, hstart, hsep, hdigit, hpoint, h₁, h₂, h₃, o, ho, hsign⟩ := hplain c hc
  have hops : ∀ o ∈ operators, modeAfter o.2 = .code ∧ o.2.isLiteral = false ∧
      (o.1.toList.head?.all (· ∈ signs) = true → ∀ c ∈ o.1.toList, c ∈ signs) ∧
        o.1.toList ≠ [] := by
    decide
  have hsome : (operator? (c :: (t ++ v))).isSome = true := by
    refine List.find?_isSome.2 ⟨o, ho, ?_⟩
    rw [startsWith, hsign]
    simp [List.isPrefixOf]
  obtain ⟨o, hop⟩ := Option.isSome_iff_exists.1 hsome
  obtain ⟨hmode, hliteral, hall, hne⟩ := hops o (List.mem_of_find?_eq_some hop)
  have hbegins : startsWith o.1 (c :: (t ++ v)) = true :=
    List.find?_some (p := fun o : String × TokenKind => startsWith o.1 (c :: (t ++ v))) hop
  obtain ⟨r, hr⟩ := List.isPrefixOf_iff_prefix.1 hbegins
  obtain ⟨e, y, hy⟩ := List.exists_cons_of_ne_nil hne
  rw [hy] at hr hall
  obtain ⟨rfl, hrest⟩ := List.cons.inj hr
  have hsigns := (List.forall_mem_cons.1 (hall (decide_eq_true hc))).2
  have hcut : y ++ r = t ++ v := hrest
  obtain ⟨d, rfl, rfl⟩ : ∃ d, t = y ++ d ∧ r = d ++ v := by
    rcases List.append_eq_append_iff.1 hcut with ⟨d, ht, hd⟩ | ⟨b, rfl, rfl⟩
    · exact ⟨d, ht, hd⟩
    · cases b with
      | nil => exact ⟨[], by rw [List.append_nil, List.append_nil], rfl⟩
      | cons b bs => exact absurd (hsigns b (List.mem_append_right _ List.mem_cons_self)) (hv b rfl)
  refine ⟨o.2, e :: y, d, rfl, List.cons_ne_nil _ _, ⟨e, y, rfl, hblank, fun p => ?_⟩,
    hmode, hliteral⟩
  have hlength : o.1.length = y.length + 1 := by rw [← String.length_toList, hy, List.length_cons]
  rw [← List.append_assoc, codeLexeme_of_plain hmark, hop]
  simp [hstart, hsep, hdigit, hpoint, h₁, h₂, h₃, hlength]

/-- Signs tell nothing, however they are cut. -/
theorem holds_signs {u v : List Char} {xs : List (List Char)} (hu : ∀ c ∈ u, c ∈ signs)
    (hv : ∀ c ∈ v.head?, c ∉ signs) : Holds .code (u ++ v) xs ↔ Holds .code v xs := by
  induction hlength : u.length using Nat.strongRecOn generalizing u with
  | ind n ih =>
    subst hlength
    cases u with
    | nil => rfl
    | cons c t =>
      obtain ⟨kind, y, d, hcut, hy, htoken, hmode, hliteral⟩ := exists_isToken_of_signs hu hv
      have hshort : d.length < (c :: t).length := by
        rw [hcut, List.length_append]
        exact Nat.lt_add_of_pos_left (List.length_pos_iff.2 hy)
      have hrest :=
        ih _ hshort (fun e he => hu e (by rw [hcut]; exact List.mem_append_right _ he)) rfl
      rw [hcut, List.append_assoc, ← hrest]
      exact ⟨fun h => h.of_token htoken hmode hliteral, fun h => h.token htoken hmode hliteral⟩

/-- A reference tells what its text tells. -/
theorem Holds.ampersand {cs : List Char} {xs : List (List Char)} (h : Holds .code cs xs) :
    Holds .code ('&' :: cs) xs := by
  have hsigns : ∀ c ∈ cs.takeWhile (signs.contains ·), c ∈ signs := fun c hc =>
    List.contains_iff_mem.1 (List.all_eq_true.1 List.all_takeWhile c hc)
  have hrest : ∀ c ∈ (cs.dropWhile (signs.contains ·)).head?, c ∉ signs := by
    intro c hc hmem
    rw [← List.contains_iff_mem] at hmem
    cases (eq_false_of_mem_head?_dropWhile hc).symm.trans hmem
  rw [← List.takeWhile_append_dropWhile (p := (signs.contains ·)) (l := cs)] at h ⊢
  rw [← List.cons_append]
  exact (holds_signs (List.forall_mem_cons.2 ⟨by decide, hsigns⟩) hrest).2
    ((holds_signs hsigns hrest).1 h)

end Signs

end ClassEdit.Scan
