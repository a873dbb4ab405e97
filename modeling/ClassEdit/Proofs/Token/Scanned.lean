import ClassEdit.Proofs.Reading
import ClassEdit.Proofs.Token.Spanning

/-!
The lexemes of a source as a relation, with one rule for the end and one for a lexeme before
others. A lexeme begins a text wherever the text stands in a source. Main statement: the relation
says the same as the scanner.
-/

namespace ClassEdit

namespace Lexeme

theorem map_fst_marked (l : Lexeme) : l.marked.map (·.1) = l.text := by
  simp [marked, Function.comp_def]

theorem map_fst_markedSource (ls : List Lexeme) :
    (ls.flatMap markedSource).map (·.1) = ls.flatMap source := by
  have hsource (l : Lexeme) : l.markedSource.map (·.1) = l.source := by
    simp [markedSource, source, map_fst_marked, Function.comp_def]
  simp only [List.map_flatMap, hsource]

end Lexeme

namespace Scan

def IsGap : Mode → List Char → Prop
  | .html, gap => gap = []
  | .code, gap => ∀ c ∈ gap, isBlank c = true

/-- The text is one lexeme of the kind if the other text follows, wherever both stand. -/
def Begins (mode : Mode) (kind : TokenKind) (x follow : List Char) : Prop :=
  ∃ c t, x = c :: t ∧ (mode = .code → isBlank c = false) ∧ ∀ p, lexeme mode p c (t ++ follow) =
    .ok (kind, t.length)

/-- The lexemes of a text that begins at a place. -/
inductive Scanned : Mode → Position → List Char → List Lexeme → Prop where
  | eof {mode : Mode} {gap : List Char} (p : Position) (hgap : IsGap mode gap) :
      Scanned mode p gap [⟨gap, .eof, [], p.after gap⟩]
  | cons {mode : Mode} {p : Position} {gap x cs : List Char} {kind : TokenKind} {ls : List Lexeme}
      (hgap : IsGap mode gap) (hx : Begins mode kind x cs)
      (h : Scanned (modeAfter kind) ((p.after gap).after x) cs ls) :
      Scanned mode p (gap ++ (x ++ cs)) (⟨gap, kind, x, p.after gap⟩ :: ls)

section Gaps

variable {mode : Mode} {gap cs : List Char}

theorem isGap_gapOf (mode : Mode) (cs : List Char) : IsGap mode (gapOf mode cs) := by
  cases mode with
  | html => rfl
  | code => exact fun c hc => List.all_eq_true.1 List.all_takeWhile c hc

theorem isGap_nil (mode : Mode) : IsGap mode [] := by
  cases mode with
  | html => rfl
  | code => exact List.forall_mem_nil _

theorem IsGap.isBlank (h : IsGap mode gap) {c : Char} (hc : c ∈ gap) : isBlank c = true := by
  cases mode with
  | html =>
    obtain rfl : gap = [] := h
    cases hc
  | code => exact h c hc

theorem IsGap.sublist {gap' : List Char} (h : IsGap mode gap) (hgap : gap'.Sublist gap) :
    IsGap mode gap' := by
  cases mode with
  | html =>
    obtain rfl : gap = [] := h
    exact List.sublist_nil.1 hgap
  | code => exact fun c hc => h c (hgap.subset hc)

theorem gapOf_append_of_isGap (hgap : IsGap mode gap)
    (hcs : mode = .code → ∀ c ∈ cs.head?, isBlank c = false) :
    gapOf mode (gap ++ cs) = gap := by
  cases mode with
  | html => exact hgap.symm
  | code => exact takeWhile_append_stops hgap (hcs rfl)

theorem isBlank_of_drop_gapOf {c : Char} {r : List Char}
    (h : cs.drop (gapOf .code cs).length = c :: r) :
    isBlank c = false := by
  refine @eq_false_of_mem_head?_dropWhile _ _ cs _ ?_
  rw [← drop_length_takeWhile, show cs.drop (cs.takeWhile isBlank).length = c :: r from h]
  rfl

end Gaps

section Unfolding

variable {mode : Mode} {p : Position} {cs : List Char}

theorem lexemes_eof (h : cs.drop (gapOf mode cs).length = []) :
    lexemes mode p cs = .ok [⟨gapOf mode cs, .eof, [], p.after (gapOf mode cs)⟩] := by
  rw [lexemes]
  split
  next => rfl
  next c r hcs => rw [h] at hcs; cases hcs

/-- The lexemes of a text: its first one behind the gap, and those of what is left. -/
theorem lexemes_cons {r : List Char} {c : Char} (h : cs.drop (gapOf mode cs).length = c :: r) :
    lexemes mode p cs = do
      let here := p.after (gapOf mode cs)
      let (kind, n) ← lexeme mode here c r
      let text := c :: r.take n
      let more ← lexemes (modeAfter kind) (here.after text) (r.drop n)
      return ⟨gapOf mode cs, kind, text, here⟩ :: more := by
  rw [lexemes]
  split
  next hcs => rw [h] at hcs; cases hcs
  next d s hcs =>
    rw [h] at hcs
    cases hcs
    rfl

end Unfolding

section Outside

variable {x follow : List Char} {kind : TokenKind}

theorem htmlLength_le (cs : List Char) : htmlLength cs ≤ cs.length := by
  fun_induction htmlLength cs with
  | case1 => exact Nat.le_refl 0
  | case2 => exact Nat.zero_le _
  | case3 c r _ ih => exact Nat.succ_le_succ ih

/-- Text outside of the tags ends before a tag, or with the source. -/
theorem ends_of_htmlLength (h : htmlLength (x ++ follow) = x.length) :
    follow = [] ∨ atOpenTag follow = true := by
  induction x with
  | nil =>
    cases follow with
    | nil => exact .inl rfl
    | cons c follow =>
      cases htag : atOpenTag (c :: follow) with
      | true => exact .inr rfl
      | false => cases (htmlLength_eq_succ.2 ⟨htag, rfl⟩).symm.trans h
  | cons c x ih => exact ih (htmlLength_eq_succ.1 h).2

/-- Outside of the tags there is an opening tag or text up to one. -/
theorem begins_html_iff : Begins .html kind x follow ↔
    (kind = .openTag ∧ x.length = 5 ∧ atOpenTag (x ++ follow) = true) ∨
      (kind = .html ∧ x ≠ [] ∧ htmlLength (x ++ follow) = x.length) := by
  constructor
  · rintro ⟨c, t, rfl, -, hl⟩
    have hpair := Except.ok.inj (hl .start)
    rw [List.cons_append]
    split at hpair
    next htag =>
      obtain ⟨rfl, hlength⟩ := Prod.mk.inj hpair
      exact .inl ⟨rfl, congrArg Nat.succ hlength.symm, htag⟩
    next htag =>
      obtain ⟨rfl, hlength⟩ := Prod.mk.inj hpair
      exact .inr
        ⟨rfl, List.cons_ne_nil _ _, htmlLength_eq_succ.2 ⟨Bool.eq_false_iff.2 htag, hlength⟩⟩
  · rintro (⟨rfl, hlength, htag⟩ | ⟨rfl, hne, hlength⟩)
    · obtain ⟨c, t, rfl⟩ := List.exists_cons_of_length_eq_add_one hlength
      refine ⟨c, t, rfl, nofun, fun p => ?_⟩
      rw [lexeme, ← List.cons_append, if_pos htag, Nat.succ.inj hlength]
    · obtain ⟨c, t, rfl⟩ := List.exists_cons_of_ne_nil hne
      obtain ⟨htag, ht⟩ := htmlLength_eq_succ.1 hlength
      refine ⟨c, t, rfl, nofun, fun p => ?_⟩
      exact congrArg Except.ok ((if_neg (Bool.eq_false_iff.1 htag)).trans (congrArg (Prod.mk _) ht))

end Outside

theorem IsToken.kind_ne_html {kind : TokenKind} {x follow : List Char} (h : IsToken kind x follow) :
    kind ≠ .html := by
  rintro rfl
  obtain ⟨c, t, -, -, hl⟩ := h
  obtain ⟨_, _, -, -, hspans⟩ := spans_of_codeLexeme (hl .start) rfl
  cases hspans

theorem begins_code_iff {kind : TokenKind} {x follow : List Char} :
    Begins .code kind x follow ↔ IsToken kind x follow := by
  simp [Begins, IsToken, lexeme]

/-- A lexeme that is cut off is a beginning of the text, and is cut off from it at any place. -/
theorem begins_of_lexeme {mode : Mode} {p : Position} {c : Char} {r : List Char}
    {kind : TokenKind} {n : Nat} (hc : mode = .code → isBlank c = false)
    (h : lexeme mode p c r = .ok (kind, n)) :
    ∃ t d, r = t ++ d ∧ n = t.length ∧ Begins mode kind (c :: t) d := by
  cases mode with
  | html =>
    have hpair := Except.ok.inj h
    split at hpair
    next htag =>
      cases hpair
      have hlength : 4 ≤ r.length := by
        have hfive := congrArg List.length (eq_of_beq (Bool.and_eq_true_iff.1 htag).1)
        simp at hfive
        omega
      obtain ⟨t, d, rfl, ht⟩ := exists_eq_append hlength
      exact ⟨t, d, rfl, ht, begins_html_iff.2 (.inl ⟨rfl, congrArg Nat.succ ht.symm, htag⟩)⟩
    next htag =>
      cases hpair
      obtain ⟨t, d, hr, ht⟩ := exists_eq_append (htmlLength_le r)
      subst hr
      have hlength := htmlLength_eq_succ.2 ⟨Bool.eq_false_iff.2 htag, ht⟩
      exact ⟨t, d, rfl, ht, begins_html_iff.2 (.inr ⟨rfl, List.cons_ne_nil _ _, hlength⟩)⟩
  | code =>
    have hcode : codeLexeme p c r = .ok (kind, n) := h
    cases hkind : kind.spansLines with
    | true =>
      obtain ⟨t, d, rfl, rfl, hspans⟩ := spans_of_codeLexeme hcode hkind
      exact ⟨t, d, rfl, rfl, c, t, rfl, hc, hspans.codeLexeme⟩
    | false =>
      have hcuts := cutsOff_codeLexeme hcode hkind
      obtain ⟨t, d, rfl, rfl⟩ := exists_eq_append hcuts.le
      exact ⟨t, d, rfl, rfl, c, t, rfl, hc, hcuts.same (.refl _)⟩

/-- What the scanner cuts off is what begins the text, at each place. -/
theorem scanned_of_lexemes {mode : Mode} {p : Position} {cs : List Char} {ls : List Lexeme}
    (h : lexemes mode p cs = .ok ls) : Scanned mode p cs ls := by
  induction hn : cs.length using Nat.strongRecOn generalizing mode p cs ls with
  | ind n ih =>
    subst hn
    have hsource := gapOf_append mode cs
    cases hrest : cs.drop (gapOf mode cs).length with
    | nil =>
      rw [lexemes_eof hrest] at h
      cases h
      rw [hrest, List.append_nil] at hsource
      have hscanned : Scanned mode p (gapOf mode cs) _ := .eof p (isGap_gapOf mode cs)
      rw [hsource] at hscanned ⊢
      exact hscanned
    | cons c r =>
      rw [lexemes_cons hrest] at h
      obtain ⟨⟨kind, n⟩, hl, h⟩ := bind_eq_ok.1 h
      obtain ⟨more, hmore, h⟩ := bind_eq_ok.1 h
      cases h
      have hc : mode = .code → isBlank c = false := by
        rintro rfl
        exact isBlank_of_drop_gapOf hrest
      obtain ⟨t, d, rfl, rfl, hbegins⟩ := begins_of_lexeme hc hl
      rw [List.take_left] at hmore ⊢
      rw [List.drop_left] at hmore
      have hshort : d.length < cs.length := by
        have hlength := length_lt_of_drop hrest
        rw [List.length_append] at hlength
        omega
      have hscanned := Scanned.cons (isGap_gapOf mode cs) hbegins (ih _ hshort hmore rfl)
      rwa [List.cons_append, ← hrest, hsource] at hscanned

/-- What begins the text at each place is what the scanner cuts off. -/
theorem Scanned.lexemes_eq {mode : Mode} {p : Position} {cs : List Char} {ls : List Lexeme}
    (h : Scanned mode p cs ls) :
    lexemes mode p cs = .ok ls := by
  induction h with
  | @eof mode gap p hgap =>
    have hgapOf : gapOf mode gap = gap := by
      have hnil : gapOf mode (gap ++ []) = gap := gapOf_append_of_isGap hgap fun _ => by simp
      rwa [List.append_nil] at hnil
    rw [lexemes_eof (by rw [hgapOf, List.drop_length]), hgapOf]
  | @cons mode p gap x cs kind ls hgap hx _ ih =>
    obtain ⟨c, t, rfl, hc, hl⟩ := hx
    have hgapOf : gapOf mode (gap ++ (c :: t ++ cs)) = gap := by
      refine gapOf_append_of_isGap hgap fun hmode d hd => ?_
      rw [← Option.some.inj hd]
      exact hc hmode
    have hrest : (gap ++ (c :: t ++ cs)).drop (gapOf mode (gap ++ (c :: t ++ cs))).length =
        c :: (t ++ cs) := by
      rw [hgapOf, List.drop_left]
      rfl
    rw [lexemes_cons hrest, hgapOf]
    simp only [hl, bind, Except.bind, List.take_left, List.drop_left, ih]
    rfl

/-- Between lexemes nothing is skipped but white space. -/
theorem isBlank_of_mem_gap {mode : Mode} {p : Position} {cs : List Char} {ls : List Lexeme}
    (h : lexemes mode p cs = .ok ls) : ∀ l ∈ ls, ∀ c ∈ l.gap, isBlank c = true := by
  have hscanned := scanned_of_lexemes h
  clear h
  induction hscanned with
  | eof p hgap => exact List.forall_mem_singleton.2 fun c => hgap.isBlank
  | cons hgap _ _ ih => exact List.forall_mem_cons.2 ⟨fun c => hgap.isBlank, ih⟩

namespace Scanned

variable {mode : Mode} {p : Position} {cs gap x follow : List Char} {kind : TokenKind} {l : Lexeme}
  {ls : List Lexeme}

theorem source (h : Scanned mode p cs ls) : ls.flatMap Lexeme.source = cs :=
  source_lexemes h.lexemes_eq

theorem ne_nil (h : Scanned mode p cs ls) : ls ≠ [] := by
  cases h <;> exact List.cons_ne_nil _ _

/-- A lexeme that is not the last. -/
theorem uncons (h : Scanned mode p cs (l :: ls)) (hne : ls ≠ []) :
    ∃ d, cs = l.gap ++ (l.text ++ d) ∧ IsGap mode l.gap ∧ Begins mode l.kind l.text d ∧
      Scanned (modeAfter l.kind) ((p.after l.gap).after l.text) d ls := by
  cases h with
  | eof => exact absurd rfl hne
  | cons hgap hx h => exact ⟨_, rfl, hgap, hx, h⟩

theorem eq_of_nil (h : Scanned mode p [] ls) : ∃ e, ls = [e] ∧ e.kind = .eof := by
  generalize hcs : ([] : List Char) = cs at h
  cases h with
  | eof => exact ⟨_, rfl, rfl⟩
  | cons _ hx =>
    obtain ⟨c, t, rfl, -⟩ := hx
    simp at hcs

/-- Outside of the tags there are only tags and text. -/
theorem kind_of_html (h : Scanned .html p cs (l :: ls)) (hne : ls ≠ []) :
    l.kind = .openTag ∨ l.kind = .html := by
  obtain ⟨d, -, -, hx, -⟩ := h.uncons hne
  rcases begins_html_iff.1 hx with ⟨hkind, -⟩ | ⟨hkind, -⟩
  · exact .inl hkind
  · exact .inr hkind

/-- In code there is no text outside of the tags, behind comments either. -/
theorem kind_ne_html {comments : List Lexeme} (h : Scanned .code p cs (comments ++ l :: ls))
    (hcomments : ∀ m ∈ comments, m.kind = .comment) (hne : ls ≠ []) : l.kind ≠ .html := by
  induction comments generalizing p cs with
  | nil =>
    obtain ⟨d, -, -, hx, -⟩ := h.uncons hne
    exact (begins_code_iff.1 hx).kind_ne_html
  | cons m comments ih =>
    obtain ⟨d, -, -, -, hd⟩ := h.uncons (by simp)
    obtain ⟨hm, hrest⟩ := List.forall_mem_cons.1 hcomments
    rw [hm] at hd
    exact ih hd hrest

theorem openTag (h : Scanned .html p cs (l :: ls)) (hl : l.kind = .openTag) :
    atOpenTag cs = true ∧ ∃ d, cs = l.text ++ d := by
  cases h with
  | eof => cases hl
  | @cons _ _ gap x d kind _ hgap hx _ =>
    obtain rfl : gap = [] := hgap
    rcases begins_html_iff.1 hx with ⟨-, -, htag⟩ | ⟨hkind, -⟩
    · exact ⟨htag, d, rfl⟩
    · cases hl.symm.trans hkind

/-- White space before what is none is the gap of the first lexeme. -/
theorem gap_eq (h : Scanned .code p (gap ++ cs) (l :: ls)) (hgap : IsGap .code gap)
    (hcs : ∀ c ∈ cs.head?, isBlank c = false) : l.gap = gap ∧ l.start = p.after gap := by
  have hgapOf := gapOf_append_of_isGap hgap fun _ => hcs
  have hlexemes := h.lexemes_eq
  cases hrest : (gap ++ cs).drop (gapOf .code (gap ++ cs)).length with
  | nil =>
    rw [lexemes_eof hrest] at hlexemes
    cases hlexemes
    rw [hgapOf]
    exact ⟨rfl, rfl⟩
  | cons c r =>
    rw [lexemes_cons hrest] at hlexemes
    obtain ⟨⟨kind, n⟩, -, hlexemes⟩ := bind_eq_ok.1 hlexemes
    obtain ⟨more, -, hlexemes⟩ := bind_eq_ok.1 hlexemes
    cases hlexemes
    rw [hgapOf]
    exact ⟨rfl, rfl⟩

/-- What is known to be a token is the first lexeme. -/
theorem eq_of_isToken (h : Scanned .code p (x ++ follow) (l :: ls)) (hx : IsToken kind x follow) :
    l.kind = kind ∧ l.source = x := by
  obtain ⟨c, t, rfl, hc, hl⟩ := hx
  have hdrop : (c :: t ++ follow).drop (gapOf .code (c :: t ++ follow)).length =
      c :: (t ++ follow) := by
    simp [gapOf, hc]
  have hgapOf : gapOf .code (c :: t ++ follow) = [] := by simp [gapOf, hc]
  have hlexemes := h.lexemes_eq
  have hlexeme : lexeme .code (p.after []) c (t ++ follow) = .ok (kind, t.length) := hl _
  rw [lexemes_cons hdrop, hgapOf] at hlexemes
  simp only [hlexeme, ok_bind, List.take_left, List.drop_left] at hlexemes
  obtain ⟨more, -, hlexemes⟩ := bind_eq_ok.1 hlexemes
  cases hlexemes
  exact ⟨rfl, by simp [Lexeme.source]⟩

end Scanned

end Scan

end ClassEdit
