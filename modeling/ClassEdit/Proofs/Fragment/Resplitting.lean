import ClassEdit.Proofs.Fragment.Reads
import ClassEdit.Proofs.Fragment.Rejoining

/-!
Code that is cut into statements, and the texts of the statements, put on lines of their own and cut
into statements again. The cursors of both runs stand before the same tokens, with as many comments
before each. Main statement: the second run gives the same texts.
-/

namespace ClassEdit

open Scan (Scanned modeAfter)

namespace Token

/-- The tokens are the same and have as many comments. The flag says that another token is before
them; then a comment behind that one on its line is so in both sources. -/
structure Matches (flag : Bool) (t t' : Token) : Prop where
  same : t.toLexeme.Same t'.toLexeme
  comments : t'.comments.length = t.comments.length
  line : flag = true → t'.comments.head?.map (·.isOnNewLine) = t.comments.head?.map (·.isOnNewLine)

/-- Tokens that match one by one, but for text outside of the tags that is gone at the end. -/
inductive Matching : Bool → List Token → List Token → Prop where
  | nil (flag : Bool) : Matching flag [] []
  | cons {flag : Bool} {t t' : Token} {ts ts' : List Token} (h : t.Matches flag t')
      (hs : Matching true ts ts') :
      Matching flag (t :: ts) (t' :: ts')
  | gone {flag : Bool} {t e : Token} {ts' : List Token} (ht : t.kind = .html)
      (h : Matching true [e] ts') :
      Matching flag [t, e] ts'

/-- Lexemes that are alike make tokens that match. The comments before the next token are given. -/
theorem matching_ofLexemes {flag next : Bool} {comments comments' ls ls' : List Lexeme}
    (h : Lexeme.Alike next ls ls') (hlength : comments'.length = comments.length)
    (hline : flag = true → comments'.head?.map (·.isOnNewLine) = comments.head?.map (·.isOnNewLine))
    (hnext : comments = [] → flag = true → next = true) (hnone : next = true → comments = []) :
    Matching flag (ofLexemes comments ls) (ofLexemes comments' ls') := by
  induction h generalizing flag comments comments' with
  | nil => exact .nil flag
  | @cons next l l' ls ls' hsame line hs ih =>
    unfold ofLexemes
    rw [hsame.kind]
    by_cases hkind : l.kind = .comment
    · rw [if_pos hkind, if_pos hkind]
      refine ih (by simp [hlength]) (fun hflag => ?_) (fun hnil => ?_) (fun hfalse => ?_)
      · cases comments with
        | nil =>
          obtain rfl := List.length_eq_zero_iff.1 hlength
          simp [line (hnext rfl hflag) hkind]
        | cons c comments =>
          obtain ⟨c', comments', rfl⟩ := List.exists_cons_of_length_eq_add_one hlength
          exact hline hflag
      · simp at hnil
      · simp [hkind] at hfalse
    · rw [if_neg hkind, if_neg hkind]
      exact .cons ⟨hsame, hlength, hline⟩
        (ih rfl (fun _ => rfl) (fun _ _ => bne_iff_ne.2 hkind) fun _ => rfl)
  | @gone l e ls' hl he h ih =>
    obtain rfl := hnone rfl
    obtain rfl := List.length_eq_zero_iff.1 hlength
    have hkind : l.kind ≠ .comment := by rw [hl]; decide
    have hrest : Matching true (ofLexemes [] [e]) (ofLexemes [] ls') :=
      ih rfl (fun _ => rfl) (fun _ _ => rfl) fun _ => rfl
    rw [ofLexemes, if_neg he, ofLexemes] at hrest
    rw [ofLexemes, if_neg hkind, ofLexemes, if_neg he, ofLexemes]
    exact .gone hl hrest

end Token

namespace Cursor

/-- The cursors stand before tokens that match. -/
inductive Matches : Bool → Cursor → Cursor → Prop where
  | eof {flag : Bool} {e e' : Token} (h : e.Matches flag e') : Matches flag ⟨[], e⟩ ⟨[], e'⟩
  | push {flag : Bool} {t t' : Token} {c c' : Cursor} (ht : t.Matches flag t')
      (hc : Matches true c c') :
      Matches flag (c.push t) (c'.push t')
  | gone {flag : Bool} {t e e' : Token} (ht : t.kind = .html) (h : e.Matches true e') :
      Matches flag ⟨[t], e⟩ ⟨[], e'⟩

/-- Lists of tokens that match make cursors that match. -/
theorem matches_ofTokens {flag : Bool} {ts ts' : List Token} (h : Token.Matching flag ts ts')
    (hne : ts ≠ []) (d d' : Token) :
    Matches flag ⟨ts.dropLast, ts.getLast?.getD d⟩ ⟨ts'.dropLast, ts'.getLast?.getD d'⟩ := by
  induction h with
  | nil => exact absurd rfl hne
  | cons h hs ih =>
    cases hs with
    | nil => exact .eof h
    | cons hu hus => exact .push h (ih (List.cons_ne_nil _ _))
    | gone hu hus =>
      cases hus with
      | cons => exact .push h (ih (List.cons_ne_nil _ _))
  | gone ht h =>
    cases h with
    | cons h hs =>
      cases hs
      exact .gone ht h

namespace Matches

variable {flag : Bool} {c c' : Cursor}

theorem ahead (h : Matches flag c c') : Token.Alike c.ahead c'.ahead := by
  induction h with
  | eof => exact .nil
  | push ht _ ih => exact .cons ht.same ih
  | gone ht => exact .gone ht

theorem weaken (h : Matches flag c c') : Matches false c c' := by
  have hweak {t t' : Token} (h : t.Matches flag t') : t.Matches false t' :=
    ⟨h.same, h.comments, nofun⟩
  cases h with
  | eof h => exact .eof (hweak h)
  | push ht hc => exact .push (hweak ht) hc
  | gone ht h => exact .gone ht h

theorem skip (h : Matches true c c') (n : Nat) : Matches true (c.skip n) (c'.skip n) := by
  induction n generalizing c c' with
  | zero => exact h
  | succ n ih =>
    cases h with
    | eof h => exact .eof h
    | push _ hc => exact ih hc
    | gone _ h => simpa [Cursor.skip] using Matches.eof h

theorem skip_succ (h : Matches flag c c') (hahead : c.ahead ≠ []) (n : Nat) :
    Matches true (c.skip (n + 1)) (c'.skip (n + 1)) := by
  cases h with
  | eof => exact absurd rfl hahead
  | push _ hc => exact hc.skip n
  | gone _ h => simpa [Cursor.skip] using Matches.eof h

end Matches

/-- A comment on the same line is taken off, and no other. -/
theorem sameLineComment_cases (c : Cursor) :
    (c.sameLineComment.value = none ∧ c.sameLineComment.rest = c ∧ ∀ l ∈ c.head.comments.head?,
      l.isOnNewLine = true) ∨
      ∃ l ls, c.head.comments = l :: ls ∧ l.isOnNewLine = false ∧ c.sameLineComment.value = some l ∧
        c.sameLineComment.rest = c.withComments ls := by
  unfold sameLineComment
  split
  next l ls hcomments =>
    split
    next hnew =>
      refine .inl ⟨rfl, rfl, fun m hm => ?_⟩
      rw [hcomments] at hm
      exact Option.some.inj hm ▸ hnew
    next hsame => exact .inr ⟨l, ls, hcomments, Bool.eq_false_iff.2 hsame, rfl, rfl⟩
  next hnil =>
    refine .inl ⟨rfl, rfl, fun m hm => ?_⟩
    rw [hnil] at hm
    cases hm

/-- The tokens ahead are the same behind a comment. -/
theorem map_ahead_sameLineComment (c : Cursor) :
    c.sameLineComment.rest.ahead.map (·.toLexeme) = c.ahead.map (·.toLexeme) := by
  rcases c.sameLineComment_cases with ⟨-, hrest, -⟩ | ⟨l, ls, -, -, -, hrest⟩
  · rw [hrest]
  · rw [hrest, Cursor.withComments]
    split
    next hahead =>
      rw [hahead]
      rfl
    next => rfl

def Inside (c : Cursor) : Prop :=
  ∀ t ∈ c.ahead.head?, t.kind ≠ .html

namespace Matches

variable {flag : Bool} {c c' : Cursor}

theorem head (h : Matches flag c c') (hc : c.Inside) : c.head.Matches flag c'.head := by
  cases h with
  | eof h => exact h
  | push ht _ => exact ht
  | gone ht => exact absurd ht (hc _ rfl)

theorem ahead_ne_nil (h : Matches flag c c') (hc : c.Inside) (hahead : c.ahead ≠ []) :
    c'.ahead ≠ [] := by
  cases h with
  | eof => exact absurd rfl hahead
  | push => exact List.cons_ne_nil _ _
  | gone ht => exact absurd ht (hc _ rfl)

theorem withComments (h : Matches flag c c') (hc : c.Inside) {comments comments' : List Lexeme}
    (hlength : comments'.length = comments.length) :
    Matches false (c.withComments comments) (c'.withComments comments') := by
  cases h with
  | eof h => exact .eof ⟨h.same, hlength, nofun⟩
  | push ht hrest => exact .push ⟨ht.same, hlength, nofun⟩ hrest
  | gone ht => exact absurd ht (hc _ rfl)

/-- Both runs take a comment behind a statement, or neither does. -/
theorem sameLineComment (h : Matches true c c') (hc : c.Inside) :
    c'.sameLineComment.value.toList.length = c.sameLineComment.value.toList.length ∧
      Matches false c.sameLineComment.rest c'.sameLineComment.rest := by
  have hline := (h.head hc).line rfl
  have hlength := (h.head hc).comments
  rcases c.sameLineComment_cases with ⟨hnone, hrest, hnew⟩ | ⟨l, ls, hcomments, hsame, hsome, hrest⟩
  · rcases c'.sameLineComment_cases with ⟨hnone', hrest', -⟩ | ⟨l', ls', hcomments', hsame', -⟩
    · rw [hnone, hnone', hrest, hrest']
      exact ⟨rfl, h.weaken⟩
    · rw [hcomments'] at hline
      obtain ⟨l, hl, heq⟩ := Option.map_eq_some_iff.1 hline.symm
      cases ((hnew l hl).symm.trans heq).trans hsame'
  · rw [hcomments] at hline hlength
    obtain ⟨l', ls', hcomments'⟩ := List.exists_cons_of_length_eq_add_one hlength
    rw [hcomments'] at hline hlength
    have hsame' : l'.isOnNewLine = false := (Option.some.inj hline).trans hsame
    rcases c'.sameLineComment_cases with ⟨-, -, hnew'⟩ | ⟨m, ms, hm, -, hsome', hrest'⟩
    · rw [hcomments'] at hnew'
      cases hsame'.symm.trans (hnew' l' rfl)
    · obtain ⟨rfl, rfl⟩ := List.cons.inj (hm.symm.trans hcomments')
      rw [hsome, hsome', hrest, hrest']
      exact ⟨rfl, h.withComments hc (Nat.succ.inj hlength)⟩

/-- The tokens of both runs have as many comments, if none of them is gone. -/
theorem length_take (h : Matches flag c c') (n : Nat) :
    ((c'.ahead.take n).flatMap Token.pieces).length =
      ((c.ahead.take n).flatMap Token.pieces).length ∨
      ∃ t ∈ (c.ahead.take n).getLast?, t.kind = .html := by
  induction h generalizing n with
  | eof => exact .inl (by simp)
  | @push flag t t' c c' ht _ ih =>
    cases n with
    | zero => exact .inl rfl
    | succ n =>
      rcases ih n with hlength | ⟨u, hu, hkind⟩
      · refine .inl ?_
        simp [Token.pieces, ht.comments, hlength]
      · refine .inr ⟨u, ?_, hkind⟩
        simp [List.getLast?_cons, Option.mem_def.1 hu]
  | gone ht =>
    cases n with
    | zero => exact .inl rfl
    | succ n => exact .inr ⟨_, by simp, ht⟩

/-- A statement that is taken in the first run is taken in the second, with as many pieces. -/
theorem takeStatement (h : Matches flag c c') (hc : c.Inside) {s : Step 1 (List Token) c}
    (hs : c.takeStatement = .ok s) :
    ∃ s', c'.takeStatement = .ok s' ∧ Matches true s.rest s'.rest ∧
      ((s'.value.flatMap Token.pieces).length = (s.value.flatMap Token.pieces).length ∨
        ∃ t ∈ s.value.getLast?, t.kind = .html) := by
  obtain ⟨n, hahead, hn, hvalue, hrest⟩ := takeStatement_eq_ok hs
  have hne := h.ahead_ne_nil hc hahead
  obtain ⟨n', hn', hsame⟩ := Extent.statement_alike h.ahead hne hn
  obtain ⟨s', hs', hvalue', hrest'⟩ := exists_takeStatement hne hn'
  have htake : c'.ahead.take (n' - 1 + 1) = c'.ahead.take (n - 1 + 1) ∧ c'.skip (n' - 1 + 1) =
      c'.skip (n - 1 + 1) := by
    rcases hsame with rfl | ⟨hall, hle⟩
    · exact ⟨rfl, rfl⟩
    · have hpos := List.length_pos_iff.2 hne
      rw [List.take_of_length_le (by omega), List.take_of_length_le (by omega), Cursor.skip,
        Cursor.skip, List.drop_of_length_le (by omega), List.drop_of_length_le (by omega)]
      exact ⟨rfl, rfl⟩
  refine ⟨s', hs', ?_, ?_⟩
  · rw [hrest, hrest', htake.2]
    exact h.skip_succ hahead (n - 1)
  · rw [hvalue, hvalue', htake.1]
    exact h.length_take (n - 1 + 1)

end Matches

/-- The cursor stands where a statement can begin. -/
structure Stands (c : Cursor) : Prop where
  lexed : ∃ mode, c.IsLexed mode
  scanned : ∃ mode p cs, Scanned mode p cs c.pieces ∧ (mode = .html → c.ahead = [])

section Stands

variable {c : Cursor}

theorem comments_of_lexed (hc : ∃ mode, c.IsLexed mode) :
    ∀ l ∈ c.head.comments, l.kind = .comment := by
  obtain ⟨mode, hc⟩ := hc
  exact hc.comments

theorem pieces_eq_append (c : Cursor) : ∃ ls, c.pieces = c.head.comments ++ c.head.toLexeme :: ls ∧
    (c.ahead ≠ [] → ls ≠ []) := by
  obtain ⟨ahead, eof⟩ := c
  cases ahead with
  | nil => exact ⟨[], by simp [pieces, tokens, Token.pieces, head], fun h => absurd rfl h⟩
  | cons t ts =>
    refine ⟨pieces ⟨ts, eof⟩, pieces_push t ts eof, fun _ => ?_⟩
    simp [pieces, tokens, Token.pieces]

theorem head_of_mem {t : Token} (ht : t ∈ c.ahead.head?) : c.head = t ∧ c.ahead ≠ [] := by
  obtain ⟨ts, hahead⟩ := List.head?_eq_some_iff.1 ht
  rw [head, hahead]
  exact ⟨rfl, List.cons_ne_nil _ _⟩

theorem Stands.inside (hc : c.Stands) : c.Inside := by
  intro t ht hkind
  obtain ⟨mode, p, cs, hscanned, hmode⟩ := hc.scanned
  obtain ⟨rfl, hahead⟩ := head_of_mem ht
  cases mode with
  | html => exact hahead (hmode rfl)
  | code =>
    obtain ⟨ls, hpieces, hls⟩ := c.pieces_eq_append
    rw [hpieces] at hscanned
    exact hscanned.kind_ne_html (comments_of_lexed hc.lexed) (hls hahead) hkind

/-- Outside of the tags there are no comments, and only opening tags and text come next. -/
theorem outside_of_scanned {p : Position} {cs : List Char} (h : Scanned .html p cs c.pieces)
    (hc : ∃ mode, c.IsLexed mode) :
    c.head.comments = [] ∧ ∀ t ∈ c.ahead.head?, t.kind = .openTag ∨ t.kind = .html := by
  obtain ⟨ls, hpieces, hls⟩ := c.pieces_eq_append
  rw [hpieces] at h
  have hcomments := comments_of_lexed hc
  have hnil : c.head.comments = [] := by
    cases hl : c.head.comments with
    | nil => rfl
    | cons l comments =>
      rw [hl] at h hcomments
      rcases Scanned.kind_of_html h (by simp) with hkind | hkind <;>
      · cases hkind.symm.trans (hcomments l List.mem_cons_self)
  refine ⟨hnil, fun t ht => ?_⟩
  obtain ⟨rfl, hahead⟩ := head_of_mem ht
  rw [hnil] at h
  exact Scanned.kind_of_html h (hls hahead)

theorem getLast?_pieces (ts : List Token) :
    (ts.flatMap Token.pieces).getLast? = ts.getLast?.map (·.toLexeme) := by
  induction ts with
  | nil => rfl
  | cons t ts ih =>
    rw [List.flatMap_cons, List.getLast?_append, ih, Token.pieces, List.getLast?_concat,
      List.getLast?_cons]
    cases ts.getLast? <;> rfl

/-- Where a statement ends another can begin. Outside of the tags nothing is left there, and a
group does not go on. -/
theorem Stands.takeStatement (hc : c.Stands) {s : Step 1 (List Token) c}
    (hs : c.takeStatement = .ok s) :
    ∃ t ∈ s.value.getLast?, (modeAfter t.kind = .html → s.rest.ahead = [] ∧
      s.rest.head.comments = []) ∧
      (t.kind = .word → s.rest.head.kind ≠ .leftBrace) ∧ s.rest.Stands := by
  obtain ⟨n, hahead, hn, hvalue, hrest⟩ := takeStatement_eq_ok hs
  obtain ⟨hpos, hends⟩ := Extent.statement_ends hahead hn
  rw [Nat.sub_add_cancel hpos] at hvalue hrest
  obtain ⟨mode, p, cs, hscanned, -⟩ := hc.scanned
  have hlexed := exists_isLexed_skip hc.lexed n
  have hdrop : c.ahead.drop n = s.rest.ahead := by
    rw [hrest]
    rfl
  rw [Extent.EndsAt, ← hvalue, hdrop] at hends
  rw [c.pieces_skip n, ← hvalue, ← hrest] at hscanned
  rw [← hrest] at hlexed
  have hne : s.value ≠ [] := by
    rw [hvalue, ne_eq, List.take_eq_nil_iff, not_or]
    exact ⟨Nat.ne_of_gt hpos, hahead⟩
  obtain ⟨t, ht⟩ : ∃ t, s.value.getLast? = some t := ⟨_, List.getLast?_eq_some_getLast hne⟩
  have hlast : t.toLexeme ∈ (s.value.flatMap Token.pieces).getLast? := by
    rw [getLast?_pieces, ht]
    rfl
  obtain ⟨q, d, hbehind⟩ := hscanned.behind s.rest.pieces_ne_nil hlast
  have hout (hhtml : modeAfter t.kind = .html) : s.rest.ahead = [] ∧ s.rest.head.comments = [] := by
    rw [hhtml] at hbehind
    obtain ⟨hcomments, hkinds⟩ := outside_of_scanned hbehind hlexed
    refine ⟨?_, hcomments⟩
    rcases hends with (⟨u, hu, hkind⟩ | ⟨u, hu, hkind⟩) | ⟨-, hnot⟩
    · obtain rfl := Option.some.inj (ht.symm.trans hu)
      rcases hkind with hkind | hkind <;>
      · rw [hkind] at hhtml
        cases hhtml
    · rcases hkinds u hu with hopen | hhtml <;> simp [hkind] at *
    · cases hrest : s.rest.ahead with
      | nil => rfl
      | cons u us =>
        rw [hrest] at hkinds hnot
        have hinside := hnot u rfl
        rw [Extent.isOutside] at hinside
        rcases hkinds u rfl with hkind | hkind <;>
        · rw [hkind] at hinside
          cases hinside
  refine ⟨t, ht, hout, fun hword => ?_, hlexed, _, q, d, hbehind, fun hhtml => (hout hhtml).1⟩
  rcases hends with (⟨u, hu, hkind⟩ | ⟨u, hu, hkind⟩) | ⟨hall, -⟩
  · obtain rfl := Option.some.inj (ht.symm.trans hu)
    rcases hkind with hkind | hkind <;> cases hword.symm.trans hkind
  · rw [(head_of_mem hu).1, hkind]
    decide
  · have hinside := hall t (List.mem_of_getLast? ht)
    rw [Extent.isOutside, hword] at hinside
    cases hinside

/-- Behind a comment on the same line the cursor still stands before a scanned text. -/
theorem Stands.sameLineComment (hc : c.Stands) : c.sameLineComment.rest.Stands := by
  obtain ⟨mode, hlexed⟩ := hc.lexed
  obtain ⟨hpieces, hcomment, hrest⟩ := hlexed.sameLineComment
  rcases c.sameLineComment_cases with ⟨-, hsame, -⟩ | ⟨l, ls, -, -, hsome, -⟩
  · rw [hsame]
    exact hc
  · obtain ⟨mode', p, cs, hscanned, -⟩ := hc.scanned
    rw [hpieces, hsome] at hscanned
    have hlast : l ∈ (some l).toList.getLast? := rfl
    obtain ⟨q, d, hbehind⟩ := hscanned.behind (pieces_ne_nil _) hlast
    rw [hcomment l hsome] at hbehind
    exact ⟨⟨mode, hrest⟩, _, q, d, hbehind, nofun⟩

end Stands

end Cursor

namespace Fragment

open Cursor (Stands Matches)

variable {c c' : Cursor} {parts : List (List Lexeme)} {flag : Bool}

theorem cut_of_comment {last : Lexeme} (h : last.kind = .comment) (behind : List Lexeme) :
    Cut last behind where
  outside hhtml := by
    rw [h] at hhtml
    cases hhtml
  group hword := by cases h.symm.trans hword
  line hne := absurd h hne

theorem kind_head_ne_comment (hlexed : ∃ mode, c.IsLexed mode) : c.head.kind ≠ .comment := by
  obtain ⟨mode, hlexed⟩ := hlexed
  refine hlexed.tokens.kind_ne ?_
  obtain ⟨ahead, eof⟩ := c
  cases ahead with
  | nil => exact List.mem_cons_self
  | cons t ts => exact List.mem_cons_self

/-- A statement without a comment behind it on its line ends where a part can. -/
theorem cut_of_token {l : Lexeme} (hlexed : ∃ mode, c.IsLexed mode)
    (hout : modeAfter l.kind = .html → c.ahead = [] ∧ c.head.comments = [])
    (hword : l.kind = .word → c.head.kind ≠ .leftBrace)
    (hnew : ∀ m ∈ c.head.comments.head?, m.isOnNewLine = true) :
    Cut l c.pieces := by
  have hcomments := Cursor.comments_of_lexed hlexed
  obtain ⟨ls, hpieces, -⟩ := c.pieces_eq_append
  have hfirst {m : Lexeme} (hm : m ∈ c.pieces.head?) : m ∈ c.head.comments.head? ∨
      m = c.head.toLexeme := by
    rw [hpieces] at hm
    cases hc : c.head.comments with
    | nil =>
      rw [hc] at hm
      exact .inr (Option.some.inj hm).symm
    | cons m' ms =>
      rw [hc] at hm
      exact .inl hm
  refine ⟨fun hhtml => ?_, fun hkind m hm => ?_, fun _ m hm hcomment => ?_⟩
  · obtain ⟨hahead, hnil⟩ := hout hhtml
    rw [Cursor.pieces_of_nil hahead, hnil]
    rfl
  · rcases hfirst hm with hm | rfl
    · rw [hcomments m (List.mem_of_head? hm)]
      nofun
    · exact hword hkind
  · rcases hfirst hm with hm | rfl
    · exact hnew m hm
    · exact absurd hcomment (kind_head_ne_comment hlexed)

/-- Statements end where parts can. -/
theorem Parts.divided (h : Parts c parts) (hc : c.Stands) : Divided c.eof.toLexeme parts := by
  induction h with
  | nil => exact .nil
  | @closing c l ls _ hcomments =>
    refine .cons (fun last hlast => cut_of_comment ?_ _) .nil
    refine Cursor.comments_of_lexed hc.lexed last ?_
    rw [hcomments]
    exact List.mem_of_getLast? hlast
  | @cons c s parts hs hparts ih =>
    obtain ⟨t, ht, hout, hword, hstands⟩ := hc.takeStatement hs
    have hrest := ih hstands.sameLineComment
    rw [eof_rest hs] at hrest
    have hlast : (s.value.flatMap Token.pieces).getLast? = some t.toLexeme := by
      rw [Cursor.getLast?_pieces, Option.mem_def.1 ht]
      rfl
    have hbehind := hparts.pieces_eq
    rw [eof_rest hs] at hbehind
    have hcut :
        ∀ last ∈ (s.value.flatMap Token.pieces ++ s.rest.sameLineComment.value.toList).getLast?,
        Cut last (parts.flatten ++ [c.eof.toLexeme]) := by
      intro last hmem
      rw [← hbehind]
      rcases s.rest.sameLineComment_cases
        with ⟨hnone, hsame, hnew⟩ | ⟨l, ls, hcomments, -, hsome, -⟩
      · rw [hnone, Option.toList_none, List.append_nil, hlast] at hmem
        obtain rfl := Option.some.inj hmem
        rw [hsame]
        exact cut_of_token hstands.lexed hout hword hnew
      · rw [hsome, Option.toList_some, List.getLast?_concat] at hmem
        obtain rfl := Option.some.inj hmem
        refine cut_of_comment (Cursor.comments_of_lexed hstands.lexed _ ?_) _
        rw [hcomments]
        exact List.mem_cons_self
    obtain ⟨l, ls, hpart⟩ : ∃ l ls, s.value.flatMap Token.pieces ++
      s.rest.sameLineComment.value.toList = l :: ls := by
      refine List.exists_cons_of_ne_nil fun hnil => ?_
      rw [(List.append_eq_nil_iff.1 hnil).1] at hlast
      cases hlast
    rw [hpart] at hcut ⊢
    exact .cons hcut hrest

theorem Parts.eq_nil (h : Parts c parts) (hahead : c.ahead = [])
    (hcomments : c.head.comments = []) : parts = [] := by
  cases h with
  | nil => rfl
  | closing _ hsome => cases hcomments.symm.trans hsome
  | cons hs =>
    obtain ⟨n, hne, -⟩ := Cursor.takeStatement_eq_ok hs
    exact absurd hahead hne

/-- Where both runs stand before the same tokens, they make parts of as many lexemes, up to the
last. -/
theorem Parts.exists_sameCuts (h : Parts c parts) (hc : c.Stands) (hmatches : Matches flag c c') :
    ∃ parts', Parts c' parts' ∧ SameCuts parts parts' := by
  induction h generalizing flag c' with
  | nil hahead hcomments =>
    cases hmatches with
    | @eof _ e e' he =>
      have hlength := he.comments
      rw [show e.comments = [] from hcomments] at hlength
      exact ⟨[], .nil rfl (List.length_eq_zero_iff.1 hlength), .nil⟩
    | push => cases hahead
    | gone => cases hahead
  | closing hahead hcomments =>
    cases hmatches with
    | @eof _ e e' he =>
      have hlength := he.comments
      rw [show e.comments = _ :: _ from hcomments] at hlength
      obtain ⟨l', ls', hcomments'⟩ := List.exists_cons_of_length_eq_add_one hlength
      exact ⟨[l' :: ls'], .closing rfl hcomments', .last _ _⟩
    | push => cases hahead
    | gone => cases hahead
  | @cons c s parts hs hparts ih =>
    obtain ⟨t, ht, hout, -, hstands⟩ := hc.takeStatement hs
    obtain ⟨s', hs', hrest, hlength⟩ := hmatches.takeStatement hc.inside hs
    obtain ⟨hcomment, hnext⟩ := hrest.sameLineComment hstands.inside
    obtain ⟨parts', hparts', hcuts⟩ := ih hstands.sameLineComment hnext
    refine ⟨_, .cons hs' hparts', ?_⟩
    rcases hlength with hlength | ⟨u, hu, hhtml⟩
    · refine .cons ?_ hcuts
      rw [List.length_append, List.length_append, hlength, hcomment]
    · -- what is gone was the last thing in the source
      obtain rfl := Option.some.inj (Option.mem_def.1 ht ▸ hu)
      obtain ⟨hahead, hcomments⟩ := hout (by rw [hhtml]; rfl)
      have hnone := Cursor.sameLineComment_eq_none hcomments
      obtain rfl := hparts.eq_nil (by rw [hnone]; exact hahead) (by rw [hnone]; exact hcomments)
      cases hcuts
      exact .last _ _

theorem matches_ofLexemes {mode : Mode} {p : Position} {cs : List Char} {ls ls' : List Lexeme}
    (h : Scan.lexemes mode p cs = .ok ls) (halike : Lexeme.Alike false ls ls') :
    Matches false (.ofLexemes ls) (.ofLexemes ls') := by
  obtain ⟨hls, hcomment⟩ := Scan.last_lexemes h
  have hmatching : Token.Matching false (Token.ofLexemes [] ls) (Token.ofLexemes [] ls') :=
    Token.matching_ofLexemes halike rfl nofun nofun nofun
  exact Cursor.matches_ofTokens hmatching (Token.ofLexemes_ne_nil hcomment hls) _ _

/-- The texts of parts on lines of their own begin with no opening tag, if the first text does
not. -/
theorem withoutOpenTag_joined {parts : List (List Lexeme)}
    (h : ∀ part ∈ parts.head?, (∃ c r, excerpt part = c :: r ∧ isBlank c = false) ∧
      ((excerpt part).take 5).map Char.toLower ≠ "<?php".toList) :
    withoutOpenTag (joined [] parts) = joined [] parts := by
  cases parts with
  | nil => rfl
  | cons part parts =>
    obtain ⟨⟨c, r, hfirst, hc⟩, htag⟩ := h part rfl
    have hjoined :=
      mt (Scan.tag_append_atBreak (atLineEnd_joined parts).atBreak (excerpt part)).1 htag
    have htrim : (joined [] (part :: parts)).dropWhile isBlank = joined [] (part :: parts) := by
      rw [joined, List.nil_append, hfirst, List.cons_append,
        List.dropWhile_cons_of_neg (by rw [hc]; decide)]
    rw [withoutOpenTag, htrim]
    exact if_neg (by simpa [joined] using hjoined)

/-- The texts with newlines between them are the joined parts. -/
theorem toList_intercalate_texts (parts : List (List Lexeme)) :
    ("\n".intercalate (parts.map partText)).toList = joined [] parts := by
  have hjoin (ls : List (List Char)) : ['\n'].intercalate ls = Line.join ls := by
    induction ls with
    | nil => rfl
    | cons l ls ih =>
      cases ls with
      | nil => simp [Line.join]
      | cons l' ls =>
        rw [List.intercalate_cons_cons, ih, List.append_assoc]
        rfl
  rw [← join_map_excerpt, String.toList_intercalate, List.map_map, ← hjoin]
  congr 1
  exact List.map_congr_left fun part _ => String.toList_ofList

/-- Statements put on lines of their own are the same statements. -/
theorem texts_rejoined {source : String} {stmts : List InnerStmt} (h : ofSource source = .ok stmts)
    (hfirst : ∀ s ∈ stmts.head?, (s.text.toList.take 5).map Char.toLower ≠ "<?php".toList) :
    ∃ stmts', ofSource ("\n".intercalate (stmts.map (·.text))) = .ok stmts' ∧
      stmts'.map (·.text) = stmts.map (·.text) := by
  obtain ⟨ls, hls, h⟩ := bind_eq_ok.1 h
  obtain ⟨s, hs, h⟩ := bind_eq_ok.1 h
  cases h
  obtain ⟨parts, hparts, htexts⟩ := parts_of_split hs
  obtain ⟨hlexed, hpieces⟩ := Cursor.isLexed_ofLexemes hls
  have hscanned := Scan.scanned_of_lexemes hls
  have hstands : (Cursor.ofLexemes ls).Stands :=
    ⟨⟨_, hlexed⟩, .code, .start, _, hpieces ▸ hscanned, nofun⟩
  have hdivided := hparts.divided hstands
  rw [← hpieces, hparts.pieces_eq] at hscanned
  obtain ⟨ms, hms, halike, parts', eof', hflatten, htexts', hcuts⟩ : ∃ ms, Scanned .code .start
    (joined [] parts) ms ∧
      Lexeme.Alike false (parts.flatten ++ [(Cursor.ofLexemes ls).eof.toLexeme]) ms ∧
        Restores parts ms :=
    exists_restores hdivided hscanned nofun (List.forall_mem_nil _) rfl nofun
  rw [← hparts.pieces_eq, hpieces] at halike
  obtain ⟨parts'', hparts'', hcuts''⟩ :=
    hparts.exists_sameCuts hstands (matches_ofLexemes hls halike)
  have hsame : parts'' = parts' := by
    obtain ⟨-, hpieces''⟩ := Cursor.isLexed_ofLexemes hms.lexemes_eq
    rw [hparts''.pieces_eq, hflatten] at hpieces''
    exact (hcuts''.trans hcuts).eq_of_flatten (List.append_inj' hpieces'' rfl).1
  subst hsame
  obtain ⟨s', hs', htexts''⟩ := hparts''.exists_split true
  have hjoined : ofSource ("\n".intercalate (s.value.map (·.text))) = .ok s'.value := by
    have hcode : withoutOpenTag ("\n".intercalate (s.value.map (·.text))).toList =
        joined [] parts := by
      rw [htexts, toList_intercalate_texts]
      refine withoutOpenTag_joined fun part hpart => ⟨?_, ?_⟩
      · cases hdivided with
        | nil => cases hpart
        | @cons l ls parts =>
          obtain rfl := Option.some.inj hpart
          rw [List.flatten_cons, List.append_assoc] at hscanned
          exact exists_excerpt_eq_cons hscanned (by simp)
      · have hhead := congrArg List.head? htexts
        rw [List.head?_map, List.head?_map, Option.mem_def.1 hpart] at hhead
        obtain ⟨stmt, hstmt, htext⟩ := Option.map_eq_some_iff.1 hhead
        have hno := hfirst stmt hstmt
        rwa [htext, partText, String.toList_ofList] at hno
    have hms' : Lexeme.ofCode (withoutOpenTag ("\n".intercalate (s.value.map (·.text))).toList) =
        .ok ms := by
      rw [hcode]
      exact hms.lexemes_eq
    simp only [ofSource, hms', ok_bind, hs']
    rfl
  refine ⟨_, hjoined, ?_⟩
  have hexcerpts : parts''.map partText = parts.map partText := by
    have htext := congrArg (List.map String.ofList) htexts'
    rw [List.map_map, List.map_map] at htext
    exact htext
  rw [htexts'', htexts, hexcerpts]

/-- A condition with an alternative, and text behind a closing tag. -/
theorem texts_rejoined_else :
    ∃ stmts stmts',
      ofSource
        "<?php $a = 1; $b = 2; // two\n    if ($a) \x7b\n      f();\n    \x7d else g(); ?>\n  text\n" = .ok stmts ∧
      stmts.map (·.text) =
        ["$a = 1;", "$b = 2; // two", "if ($a) \x7b\n  f();\n\x7d else g();", "?>\ntext\n"] ∧
      ofSource ("\n".intercalate (stmts.map (·.text))) = .ok stmts' ∧ stmts'.map (·.text) =
        stmts.map (·.text) := by
  have hread :
      (ofSource
        "<?php $a = 1; $b = 2; // two\n    if ($a) \x7b\n      f();\n    \x7d else g(); ?>\n  text\n").toOption.map
        (·.map (·.text)) =
          some ["$a = 1;", "$b = 2; // two", "if ($a) \x7b\n  f();\n\x7d else g();",
            "?>\ntext\n"] := by
    decide +kernel
  cases hstmts :
      ofSource
        "<?php $a = 1; $b = 2; // two\n    if ($a) \x7b\n      f();\n    \x7d else g(); ?>\n  text\n" with
  | error e =>
    rw [hstmts] at hread
    cases hread
  | ok stmts =>
    rw [hstmts] at hread
    have htexts : stmts.map (·.text) = _ := Option.some.inj hread
    have hfirst : ∀ s ∈ stmts.head?, (s.text.toList.take 5).map Char.toLower ≠ "<?php".toList := by
      intro s hs
      have hhead := congrArg List.head? htexts
      rw [List.head?_map, Option.mem_def.1 hs] at hhead
      rw [show s.text = "$a = 1;" from Option.some.inj hhead]
      decide
    obtain ⟨stmts', hjoined, hsame⟩ := texts_rejoined hstmts hfirst
    exact ⟨stmts, stmts', rfl, htexts, hjoined, hsame⟩

end Fragment

end ClassEdit
