import ClassEdit.Cursor
import ClassEdit.Proofs.Token.Scanned

/-!
The lexemes of two sources of which one has a carriage return before each newline. They are the same
but for the carriage returns in their texts and gaps. One stands at the end of a comment instead of
in the gap behind it, if the comment ends with its line. Main statements: both sources are cut into
lexemes or neither is, and what is quoted from the lexemes is the same text.
-/

namespace ClassEdit

open LineEnding (widen)

/-- Whether the two places are equally far in the indentation of their lines. -/
structure Position.Level (p p' : Position) : Prop where
  margin : p'.margin = p.margin
  inMargin : p'.inMargin = p.inMargin

/-- Places that are level are so behind a text and behind the widened one. -/
theorem Position.Level.after {p p' : Position} (h : p.Level p') (cs : List Char) :
    (p.after cs).Level (p'.after (widen cs)) := by
  induction cs generalizing p p' with
  | nil => exact h
  | cons c r ih =>
      by_cases hc : c = '\n'
      · subst hc
        have hstep : (p.step '\n').Level ((p'.step '\r').step '\n') := ⟨rfl, rfl⟩
        exact ih hstep
      · rw [LineEnding.widen_cons hc]
        have hstep : (p.step c).Level (p'.step c) := by
          simp only [Position.step, if_neg hc, h.margin, h.inMargin]
          exact ⟨rfl, rfl⟩
        exact ih hstep

/-- The second lexeme is the first one with carriage returns. The flags say whether the carriage
return of the newline before each of them was taken by the lexeme before. -/
structure Lexeme.Widened (cut cut' : Bool) (l l' : Lexeme) : Prop where
  kind : l'.kind = l.kind
  margin : l'.start.margin = l.start.margin
  gap : pending cut ++ l'.gap = widen l.gap
  text : l'.text = widen l.text ++ pending cut'
  comment : cut' → l.kind = .comment
  begins : l.kind ≠ .html → l.text.head? ≠ some '\n'
  oneLine : l.kind.spansLines = false → '\n' ∉ l.text
  clean : '\r' ∉ l.source

namespace Lexeme

/-- Lexemes that are widened one by one, each with the flag of the one before it. -/
inductive Chain : Bool → List Lexeme → List Lexeme → Bool → Prop where
  | nil (cut : Bool) : Chain cut [] [] cut
  | cons {cut cut' cut'' : Bool} {l l' : Lexeme} {ls ls' : List Lexeme} (h : l.Widened cut cut' l')
      (hs : Chain cut' ls ls' cut'') : Chain cut (l :: ls) (l' :: ls') cut''

namespace Chain

variable {cut cut' cut'' : Bool} {ls ls' ms ms' : List Lexeme}

theorem append (h : Chain cut ls ls' cut') (h' : Chain cut' ms ms' cut'') :
    Chain cut (ls ++ ms) (ls' ++ ms') cut'' := by
  induction h with
  | nil => exact h'
  | cons h _ ih => exact .cons h (ih h')

end Chain

end Lexeme

namespace Scan

/-- The white space before a lexeme, and what stands behind it, in both sources. -/
theorem gapOf_widen {mode : Mode} {cut : Bool} {cs cs' : List Char} (hcut : cut → mode = .code)
    (h : pending cut ++ cs' = widen cs) :
    pending cut ++ gapOf mode cs' = widen (gapOf mode cs) ∧
      cs'.drop (gapOf mode cs').length = widen (cs.drop (gapOf mode cs).length) := by
  cases mode with
  | html =>
      cases cut with
      | true => cases hcut rfl
      | false => exact ⟨rfl, h⟩
  | code =>
      have hgap : pending cut ++ cs'.takeWhile isBlank = widen (cs.takeWhile isBlank) := by
        rw [← LineEnding.takeWhile_widen rfl, ← h]
        cases cut <;> simp [pending, show isBlank '\r' = true from rfl]
      refine ⟨hgap, ?_⟩
      have htake : cs.take (cs.takeWhile isBlank).length = cs.takeWhile isBlank :=
        (List.prefix_iff_eq_take.1 (List.takeWhile_prefix isBlank)).symm
      simp only [gapOf]
      rw [← LineEnding.drop_widen, htake, ← hgap, ← h, List.length_append, ←
        List.drop_drop, List.drop_left]

/-- One lexeme is widened, and of the same kind. Only a comment may be cut before a carriage
return. -/
theorem lexeme_widen {mode : Mode} (p p' : Position) {c c' : Char} {r r' : List Char}
    (h : widen (c :: r) = c' :: r') (hmode : mode = .code → c ≠ '\n') :
    Agree (fun x x' => x'.1 = x.1 ∧ ∃ cut : Bool, (cut → x.1 = .comment) ∧
        c' :: r'.take x'.2 = widen (c :: r.take x.2) ++ pending cut ∧
        pending cut ++ r'.drop x'.2 = widen (r.drop x.2) ∧ (x.1 ≠ .html → c ≠ '\n') ∧
        (x.1.spansLines = false → '\n' ∉ c :: r.take x.2))
      (lexeme mode p c r) (lexeme mode p' c' r') := by
  cases mode with
  | html =>
      have htag := atOpenTag_widen (c :: r)
      simp only [lexeme, ← h, htag]
      by_cases hopen : atOpenTag (c :: r)
      · have hline := not_mem_of_openTag (beq_iff_eq.1 (Bool.and_eq_true_iff.1 hopen).1)
        obtain ⟨htake, hdrop⟩ := take_widen_of_not_mem hline
        have hself : widen (c :: r.take 4) = c :: r.take 4 := LineEnding.widen_eq_self hline
        rw [h] at htake hdrop
        rw [if_pos hopen, if_pos hopen]
        have hfirst : c ≠ '\n' := fun hc => hline (hc ▸ List.mem_cons_self)
        exact ⟨rfl, false, Bool.noConfusion, by rw [hself]; simpa [pending] using htake, hdrop,
          fun _ => hfirst, fun _ => hline⟩
      · have hlength := htmlLength_widen (c :: r)
        rw [h] at htag hlength
        rw [htmlLength, htmlLength, if_neg hopen, htag, if_neg hopen] at hlength
        have htake := LineEnding.take_widen (htmlLength r + 1) (c :: r)
        have hdrop := LineEnding.drop_widen (htmlLength r + 1) (c :: r)
        rw [← hlength, h] at htake hdrop
        rw [if_neg hopen, if_neg hopen]
        exact ⟨rfl, false,
          Bool.noConfusion, by simpa [pending] using htake, hdrop, fun h => absurd rfl h,
          Bool.noConfusion⟩
  | code =>
      have hc := hmode rfl
      rw [LineEnding.widen_cons hc] at h
      obtain ⟨rfl, rfl⟩ := List.cons.inj h
      refine (codeLexeme_widen p p' hc r).mono ?_
      rintro ⟨kind, n⟩ ⟨_, n'⟩ ⟨hkind, cut, hextent⟩
      refine ⟨hkind, cut, hextent.comment, ?_, hextent.left, fun _ => hc, fun hline => ?_⟩
      · rw [hextent.taken, LineEnding.widen_cons hc]
        rfl
      · simp [Ne.symm hc, hextent.oneLine hline]

/-- Both sources are cut into lexemes, or neither is. -/
theorem lexemes_widen {mode : Mode} {cut : Bool} {p q : Position} {cs cs' : List Char}
    (hcut : cut → mode = .code) (hcs : pending cut ++ cs' = widen cs) (hclean : '\r' ∉ cs)
    (hp : p.Level q) :
    Agree (fun ls ls' => Lexeme.Chain cut ls ls' false) (lexemes mode p cs)
      (lexemes mode (q.after (pending cut)) cs') := by
  induction hn : cs.length using Nat.strongRecOn generalizing mode cut p q cs cs' with
  | ind n ih =>
      subst hn
      obtain ⟨hgap, hrest⟩ := gapOf_widen hcut hcs
      have hhere : (p.after (gapOf mode cs)).Level
          ((q.after (pending cut)).after (gapOf mode cs')) := by
        rw [← Position.after_append, hgap]
        exact hp.after _
      have hsource := gapOf_append mode cs
      cases hr : cs.drop (gapOf mode cs).length with
      | nil =>
          rw [hr, List.append_nil] at hsource
          rw [lexemes_eof hr, lexemes_eof (by rw [hrest, hr]; rfl)]
          have heof : Lexeme.Widened cut false ⟨gapOf mode cs, .eof, [], p.after (gapOf mode cs)⟩
              ⟨gapOf mode cs', .eof, [], (q.after (pending cut)).after (gapOf mode cs')⟩ :=
            ⟨rfl, hhere.margin, hgap, rfl, Bool.noConfusion, by simp, by simp,
              by simpa [Lexeme.source, hsource]⟩
          exact .cons heof (.nil false)
      | cons c r =>
          obtain ⟨c', r', hr'⟩ : ∃ c' r', widen (c :: r) = c' :: r' := by
            by_cases hc : c = '\n'
            · subst hc
              exact ⟨_, _, rfl⟩
            · exact ⟨_, _, LineEnding.widen_cons hc r⟩
          have hmode : mode = .code → c ≠ '\n' := by
            rintro rfl rfl
            cases isBlank_of_drop_gapOf hr
          rw [lexemes_cons hr, lexemes_cons (by rw [hrest, hr, hr'])]
          refine (lexeme_widen _ _ hr' hmode).bind ?_
          rintro ⟨kind, n⟩ ⟨kind', n'⟩ ⟨hkind, cut', hcomment, htext, hleft, hfirst, hline⟩
          simp only at hkind hcomment htext hleft hfirst hline
          subst hkind
          have hparts : gapOf mode cs ++ c :: r.take n ++ r.drop n = cs := by
            rw [List.append_assoc, List.cons_append, List.take_append_drop, ← hr, hsource]
          have hshort : (r.drop n).length < cs.length := by
            have hlength := congrArg List.length hparts
            simp only [List.length_append, List.length_cons] at hlength
            omega
          have hcleanText : '\r' ∉ gapOf mode cs ++ c :: r.take n :=
            fun h => hclean (hparts ▸ List.mem_append_left _ h)
          have hcleanRest : '\r' ∉ r.drop n := fun h => hclean (hparts ▸ List.mem_append_right _ h)
          have hmode' : cut' → modeAfter kind' = .code := by
            intro h
            rw [hcomment h]
            rfl
          have hmore := ih _ hshort hmode' hleft hcleanRest (hhere.after (c :: r.take n)) rfl
          have hplace (q : Position) :
              (q.after (widen (c :: r.take n))).after (pending cut') =
                q.after (c' :: r'.take n') := by
            rw [← Position.after_append, htext]
          rw [hplace] at hmore
          exact hmore.bind fun ls ls' hls =>
            .cons ⟨rfl, hhere.margin, hgap, htext, hcomment,
              fun h => by simpa using hfirst h, hline, hcleanText⟩ hls

end Scan

namespace Lexeme

namespace Widened

variable {cut cut' : Bool} {l l' : Lexeme}

/-- A lexeme that stays on its line is the same in both sources. -/
theorem text_eq (h : l.Widened cut cut' l') (hline : l.kind.spansLines = false) :
    l'.text = l.text := by
  cases cut' with
  | true => rw [h.comment rfl] at hline; cases hline
  | false => rw [h.text, LineEnding.widen_eq_self (h.oneLine hline)]; exact List.append_nil _

theorem same (h : l.Widened cut cut' l') : l.Same l' :=
  ⟨h.kind, h.text_eq⟩

theorem count_gap (h : l.Widened cut cut' l') : l'.gap.count '\n' = l.gap.count '\n' := by
  have hcount := congrArg (List.count '\n') h.gap
  rw [List.count_append, LineEnding.count_newline_widen] at hcount
  cases cut <;> simpa [pending] using hcount

theorem followsBlankLine (h : l.Widened cut cut' l') :
    l'.followsBlankLine = l.followsBlankLine := by
  rw [Lexeme.followsBlankLine, Lexeme.followsBlankLine, h.count_gap]

theorem mem_gap (h : l.Widened cut cut' l') : '\n' ∈ l'.gap ↔ '\n' ∈ l.gap := by
  rw [← List.count_pos_iff, h.count_gap, List.count_pos_iff]

theorem mem_text (h : l.Widened cut cut' l') : '\n' ∈ l'.text ↔ '\n' ∈ l.text := by
  rw [h.text, List.mem_append, LineEnding.mem_widen (by decide)]
  cases cut' <;> simp [pending]

theorem isOnNewLine (h : l.Widened cut cut' l') : l'.isOnNewLine = l.isOnNewLine := by
  rw [Lexeme.isOnNewLine, Lexeme.isOnNewLine, Bool.eq_iff_iff, List.contains_iff_mem,
    List.contains_iff_mem, h.mem_gap]

theorem contains_text (h : l.Widened cut cut' l') :
    l'.text.contains '\n' = l.text.contains '\n' := by
  rw [Bool.eq_iff_iff, List.contains_iff_mem, List.contains_iff_mem, h.mem_text]

theorem contains_source (h : l.Widened cut cut' l') :
    l'.source.contains '\n' = l.source.contains '\n' := by
  rw [Bool.eq_iff_iff, List.contains_iff_mem, List.contains_iff_mem, Lexeme.source, Lexeme.source,
    List.mem_append, List.mem_append, h.mem_gap, h.mem_text]

theorem marked (h : l.Widened cut cut' l') :
    l'.marked = widenMarked l.marked ++ (pending cut').map fun c => (c, false) := by
  have hmark : (pending cut').map (fun c => (c, l.kind.isLiteral)) = (pending cut').map fun c =>
      (c, false) := by
    cases cut' with
    | true => rw [h.comment rfl]; rfl
    | false => rfl
  rw [Lexeme.marked, Lexeme.marked, widenMarked_map, h.text, h.kind, List.map_append, hmark]

theorem markedSource (h : l.Widened cut cut' l') :
    ((pending cut).map fun c => (c, false)) ++ l'.markedSource =
      widenMarked l.markedSource ++ (pending cut').map fun c => (c, false) := by
  rw [Lexeme.markedSource, Lexeme.markedSource, h.marked, ← List.append_assoc, ← List.map_append,
    h.gap, widenMarked_append, widenMarked_map, List.append_assoc]

theorem clean_markedSource (h : l.Widened cut cut' l') : ∀ c ∈ l.markedSource, c.1 ≠ '\r' := by
  intro c hc hreturn
  apply h.clean
  simp only [Lexeme.markedSource, Lexeme.marked, List.mem_append, List.mem_map] at hc
  rcases hc with ⟨d, hd, rfl⟩ | ⟨d, hd, rfl⟩
  · exact List.mem_append_left _ (hreturn ▸ hd)
  · exact List.mem_append_right _ (hreturn ▸ hd)

end Widened

namespace Chain

variable {cut cut' : Bool} {l l' : Lexeme} {ls ls' : List Lexeme}

theorem markedSource (h : Chain cut ls ls' cut') :
    ((pending cut).map fun c => (c, false)) ++ ls'.flatMap Lexeme.markedSource =
      widenMarked (ls.flatMap Lexeme.markedSource) ++ (pending cut').map fun c => (c, false) := by
  induction h with
  | nil => simp [widenMarked]
  | cons h _ ih =>
      rw [List.flatMap_cons, List.flatMap_cons, ← List.append_assoc, h.markedSource,
        List.append_assoc, ih, widenMarked_append, List.append_assoc]

theorem clean_markedSource (h : Chain cut ls ls' cut') :
    ∀ c ∈ ls.flatMap Lexeme.markedSource, c.1 ≠ '\r' := by
  induction h with
  | nil => simp
  | cons h _ ih =>
      intro c hc
      rw [List.flatMap_cons, List.mem_append] at hc
      exact hc.elim (h.clean_markedSource c) (ih c)

/-- What is quoted from both sources is the same. -/
theorem excerpt_eq (h : Chain cut ls ls' cut') : excerpt ls' = excerpt ls := by
  cases h with
  | nil => rfl
  | @cons _ cut'' _ l l' ls ls' h hs =>
      have hclean : ∀ c ∈ l.marked ++ ls.flatMap Lexeme.markedSource, c.1 ≠ '\r' := by
        intro c hc
        rcases List.mem_append.1 hc with hc | hc
        · exact h.clean_markedSource c (List.mem_append_right _ hc)
        · exact hs.clean_markedSource c hc
      rw [excerpt, excerpt, h.marked, List.append_assoc, hs.markedSource, ← List.append_assoc,
        ← widenMarked_append, h.margin, dedent_widenMarked _ _ hclean]

theorem any_contains_source (h : Chain cut ls ls' cut') :
    (ls'.any fun l => l.source.contains '\n') = ls.any fun l => l.source.contains '\n' := by
  induction h with
  | nil => rfl
  | cons h _ ih => rw [List.any_cons, List.any_cons, h.contains_source, ih]

theorem commentTexts (h : Chain cut ls ls' cut') :
    ls'.map Lexeme.commentText = ls.map Lexeme.commentText := by
  induction h with
  | nil => rfl
  | cons h _ ih =>
      rw [List.map_cons, List.map_cons, ih, Lexeme.commentText, excerpt_eq (.cons h (.nil _)),
        Lexeme.commentText]

end Chain

end Lexeme

/-- The second token is the first one with carriage returns, and so are the comments before it. -/
structure Token.Widened (cut : Bool) (t t' : Token) : Prop where
  token : ∃ cut', Lexeme.Chain cut t.comments t'.comments cut' ∧
    t.toLexeme.Widened cut' false t'.toLexeme
  notComment : t.kind ≠ .comment

namespace Token

namespace Widened

variable {cut : Bool} {t t' : Token}

theorem kind (h : t.Widened cut t') : t'.kind = t.kind := by
  obtain ⟨cut', -, ht⟩ := h.token
  exact ht.kind

theorem same (h : t.Widened cut t') : t.toLexeme.Same t'.toLexeme := by
  obtain ⟨cut', -, ht⟩ := h.token
  exact ht.same

theorem text_eq (h : t.Widened cut t') (hline : t.kind.spansLines = false) : t'.text = t.text :=
  h.same.text hline

theorem string_eq (h : t.Widened cut t') (hline : t.kind.spansLines = false) :
    t'.string = t.string :=
  h.same.string_eq hline

theorem text_widen (h : t.Widened cut t') : t'.text = widen t.text := by
  obtain ⟨cut', -, ht⟩ := h.token
  exact ht.text.trans (List.append_nil _)

theorem clean_text (h : t.Widened cut t') : '\r' ∉ t.text := by
  obtain ⟨cut', -, ht⟩ := h.token
  exact fun hmem => ht.clean (List.mem_append_right _ hmem)

theorem begins (h : t.Widened cut t') (hk : t.kind ≠ .html) : t.text.head? ≠ some '\n' := by
  obtain ⟨cut', -, ht⟩ := h.token
  exact ht.begins hk

theorem isWord (h : t.Widened cut t') (w : String) : t'.isWord w = t.isWord w :=
  h.same.isWord w

theorem isAnyWord (h : t.Widened cut t') (ws : List String) : t'.isAnyWord ws = t.isAnyWord ws :=
  h.same.isAnyWord ws

theorem contains_text (h : t.Widened cut t') : t'.text.contains '\n' = t.text.contains '\n' := by
  obtain ⟨cut', -, ht⟩ := h.token
  exact ht.contains_text

theorem isOnNewLine (h : t.Widened cut t') : t'.isOnNewLine = t.isOnNewLine := by
  obtain ⟨cut', hcomments, ht⟩ := h.token
  rw [Token.isOnNewLine, Token.isOnNewLine, ht.isOnNewLine, hcomments.any_contains_source]

theorem followsBlankLine (h : t.Widened cut t') :
    t'.first.followsBlankLine = t.first.followsBlankLine := by
  obtain ⟨cut', hcomments, ht⟩ := h.token
  obtain ⟨l, comments⟩ := t
  obtain ⟨l', comments'⟩ := t'
  cases hcomments with
  | nil => exact ht.followsBlankLine
  | cons hl _ => exact hl.followsBlankLine

theorem commentTexts (h : t.Widened cut t') :
    t'.comments.map Lexeme.commentText = t.comments.map Lexeme.commentText := by
  obtain ⟨cut', hcomments, -⟩ := h.token
  exact hcomments.commentTexts

theorem pieces (h : t.Widened cut t') : Lexeme.Chain cut t.pieces t'.pieces false := by
  obtain ⟨cut', hcomments, ht⟩ := h.token
  exact hcomments.append (.cons ht (.nil false))

end Widened

/-- Tokens that are widened one by one. -/
inductive Chain : Bool → List Token → List Token → Prop where
  | nil (cut : Bool) : Chain cut [] []
  | cons {cut : Bool} {t t' : Token} {ts ts' : List Token} (h : t.Widened cut t')
      (hs : Chain false ts ts') :
      Chain cut (t :: ts) (t' :: ts')

/-- Lexemes that are widened one by one make tokens that are. -/
theorem chain_ofLexemes {cut cut' cut'' : Bool} {comments comments' ls ls' : List Lexeme}
    (hcomments : Lexeme.Chain cut comments comments' cut') (h : Lexeme.Chain cut' ls ls' cut'') :
    Chain cut (ofLexemes comments ls) (ofLexemes comments' ls') := by
  induction h generalizing cut comments comments' with
  | nil => exact .nil cut
  | @cons _ cut₁ _ l l' ls ls' h _ ih =>
      unfold ofLexemes
      rw [h.kind]
      by_cases hkind : l.kind = .comment
      · rw [if_pos hkind, if_pos hkind]
        exact ih (hcomments.append (.cons h (.nil _)))
      · rw [if_neg hkind, if_neg hkind]
        cases cut₁ with
        | true => exact absurd (h.comment rfl) hkind
        | false => exact .cons ⟨⟨_, hcomments, h⟩, hkind⟩ (ih (.nil false))

namespace Chain

variable {cut : Bool} {ts ts' : List Token}

theorem pieces (h : Chain false ts ts') :
    Lexeme.Chain false (ts.flatMap Token.pieces) (ts'.flatMap Token.pieces) false := by
  induction ts generalizing ts' with
  | nil => cases h; exact .nil false
  | cons t ts ih =>
      cases h with
      | cons ht hts => exact ht.pieces.append (ih hts)

theorem excerptOf_eq (h : Chain cut ts ts') : excerptOf ts' = excerptOf ts := by
  cases h with
  | nil => rfl
  | cons ht hts =>
      obtain ⟨cut', -, ht⟩ := ht.token
      exact congrArg String.ofList (Lexeme.Chain.excerpt_eq (.cons ht hts.pieces))

theorem take (h : Chain cut ts ts') (n : Nat) : Chain cut (ts.take n) (ts'.take n) := by
  induction n generalizing cut ts ts' with
  | zero => exact .nil cut
  | succ n ih =>
      cases h with
      | nil => exact .nil cut
      | cons ht hts => exact .cons ht (ih hts)

end Chain

end Token

end ClassEdit
