import ClassEdit.Proofs.Reading
import ClassEdit.Proofs.Stopping

/-!
Comments among the tokens of a source. No token is a comment, and no comment stands outside of the
tags. Main statement: what a reader takes is the comments before its first token and then code,
which begins and ends with a token.
-/

namespace ClassEdit

open Scan (modeAfter)

/-- Tokens as the scanner finds them from a mode on. -/
inductive Token.Sequence : Mode → List Token → Prop where
  | nil (mode : Mode) : Sequence mode []
  | cons {mode : Mode} {t : Token} {ts : List Token} (kind : t.kind ≠ .comment)
      (comments : ∀ l ∈ t.comments, l.kind = .comment) (outside : mode = .html → t.comments = [])
      (behind : Sequence (modeAfter t.kind) ts) : Sequence mode (t :: ts)

namespace Token.Sequence

variable {mode : Mode} {t : Token} {ts us : List Token}

theorem of_append (h : Sequence mode (ts ++ us)) : ∃ mode', Sequence mode' us := by
  induction ts generalizing mode with
  | nil => exact ⟨mode, h⟩
  | cons t ts ih =>
      cases h with
      | cons _ _ _ behind => exact ih behind

theorem kind_ne (h : Sequence mode ts) (ht : t ∈ ts) : t.kind ≠ .comment := by
  induction h with
  | nil => cases ht
  | cons kind _ _ _ ih =>
      rcases List.mem_cons.1 ht with rfl | ht
      · exact kind
      · exact ih ht

end Token.Sequence

namespace Scan

theorem kind_ne_comment_of_html {start : Position} {c : Char} {r : List Char}
    {kind : TokenKind} {n : Nat} (h : lexeme .html start c r = .ok (kind, n)) :
    kind ≠ .comment := by
  have hpair := Except.ok.inj h
  split at hpair <;> cases hpair <;> decide

/-- The tokens of a source are no comments, and outside of the tags none stands before them. -/
theorem sequence_lexemes {mode : Mode} {start : Position} {cs : List Char}
    {ls comments : List Lexeme} (h : lexemes mode start cs = .ok ls)
    (hcomments : ∀ l ∈ comments, l.kind = .comment) (hmode : mode = .html → comments = []) :
    Token.Sequence mode (Token.ofLexemes comments ls) ∧ ∃ l, ls.getLast? = some l ∧
      l.kind = .eof := by
  fun_induction lexemes mode start cs generalizing ls comments with
  | case1 =>
    cases h
    refine ⟨?_, _, rfl, rfl⟩
    have hkind : TokenKind.eof ≠ .comment := by decide
    rw [Token.ofLexemes, if_neg hkind]
    exact .cons hkind hcomments hmode (.nil _)
  | case2 mode start cs gap here c r hcs =>
    rename_i ih
    cases hl : lexeme mode here c r with
    | error e => simp [hl, bind, Except.bind] at h
    | ok kn =>
      obtain ⟨kind, n⟩ := kn
      cases hm : lexemes (modeAfter kind) (here.after (c :: r.take n)) (r.drop n) with
      | error e => simp [hl, hm, bind, Except.bind] at h
      | ok more =>
        simp only [hl, hm, bind, Except.bind, pure, Except.pure, Except.ok.injEq] at h
        subst h
        have hlast {last : Lexeme} (h : more.getLast? = some last) (l : Lexeme) :
            (l :: more).getLast? = some last := by
          rw [List.getLast?_cons, h, Option.getD_some]
        by_cases hkind : kind = .comment
        · subst hkind
          have hcode : mode ≠ .html := by
            rintro rfl
            exact kind_ne_comment_of_html hl rfl
          have hmore : ∀ l ∈ comments ++ [⟨gap, .comment, c :: r.take n, here⟩],
              l.kind = .comment := by
            intro l hl
            rcases List.mem_append.1 hl with hl | hl
            · exact hcomments l hl
            · rw [List.mem_singleton.1 hl]
          obtain ⟨hsequence, last, hl, heof⟩ := ih .comment n hm hmore (absurd · (by decide))
          rw [Token.ofLexemes, if_pos rfl]
          refine ⟨?_, last, hlast hl _, heof⟩
          cases mode with
          | html => exact absurd rfl hcode
          | code => exact hsequence
        · obtain ⟨hsequence, last, hl, heof⟩ := ih kind n hm (List.forall_mem_nil _) fun _ => rfl
          rw [Token.ofLexemes, if_neg hkind]
          exact ⟨.cons hkind hcomments hmode hsequence, last, hlast hl _, heof⟩

/-- No source ends with a comment, for its end is behind that. -/
theorem last_lexemes {mode : Mode} {start : Position} {cs : List Char} {ls : List Lexeme}
    (h : lexemes mode start cs = .ok ls) :
    ls ≠ [] ∧ ∀ l, ls.getLast? = some l → l.kind ≠ .comment := by
  obtain ⟨-, last, hlast, heof⟩ := sequence_lexemes h (List.forall_mem_nil _) fun _ => rfl
  refine ⟨?_, fun l hl => ?_⟩
  · rintro rfl
    cases hlast
  · obtain rfl := Option.some.inj (hlast.symm.trans hl)
    rw [heof]
    nofun

end Scan

namespace Cursor

variable {c c₁ : Cursor}

def tokens (c : Cursor) : List Token := c.ahead ++ [c.eof]

def pieces (c : Cursor) : List Lexeme := c.tokens.flatMap Token.pieces

/-- The cursor stands before tokens of a source. -/
structure IsLexed (mode : Mode) (c : Cursor) : Prop where
  tokens : Token.Sequence mode c.tokens
  eof : c.eof.kind = .eof

theorem pieces_ne_nil (c : Cursor) : c.pieces ≠ [] := by
  simp [pieces, tokens, Token.pieces]

theorem pieces_push (t : Token) (ts : List Token) (eof : Token) :
    pieces ⟨t :: ts, eof⟩ = t.comments ++ t.toLexeme :: pieces ⟨ts, eof⟩ := by
  simp [pieces, tokens, Token.pieces]

theorem pieces_of_nil (h : c.ahead = []) : c.pieces = c.head.comments ++ [c.eof.toLexeme] := by
  obtain ⟨ahead, eof⟩ := c
  cases h
  simp [pieces, tokens, Token.pieces, head]

/-- The cursor before the lexemes of a source. -/
theorem isLexed_ofLexemes {mode : Mode} {start : Position} {cs : List Char} {ls : List Lexeme}
    (h : Scan.lexemes mode start cs = .ok ls) :
    (ofLexemes ls).IsLexed mode ∧ (ofLexemes ls).pieces = ls := by
  obtain ⟨hsequence, last, hlast, heof⟩ := Scan.sequence_lexemes h (List.forall_mem_nil _) fun _ =>
    rfl
  obtain ⟨hne, hcomment⟩ := Scan.last_lexemes h
  have hpieces := Token.pieces_ofLexemes [] ls hcomment hne
  have htokens : (ofLexemes ls).tokens = Token.ofLexemes [] ls := by
    have hnil : Token.ofLexemes [] ls ≠ [] := Token.ofLexemes_ne_nil hcomment hne
    have hsome := List.getLast?_eq_some_getLast hnil
    rw [tokens, ofLexemes, hsome, Option.getD_some]
    exact List.dropLast_concat_getLast _
  have hsource : (ofLexemes ls).pieces = ls := by
    rw [pieces, htokens, hpieces, List.nil_append]
  refine ⟨⟨htokens ▸ hsequence, ?_⟩, hsource⟩
  have heof' : (ofLexemes ls).pieces.getLast? = some (ofLexemes ls).eof.toLexeme := by
    simp [pieces, tokens, Token.pieces]
  rw [hsource, hlast] at heof'
  rw [← heof, Option.some.inj heof']

end Cursor

def IsCode (ls : List Lexeme) : Prop :=
  (∃ l, ls.head? = some l ∧ l.kind ≠ .comment) ∧ ∃ l, ls.getLast? = some l ∧ l.kind ≠ .comment

theorem isCode_tokens {t : Token} {ts : List Token} (h : ∀ u ∈ t :: ts, u.kind ≠ .comment) :
    IsCode (t.toLexeme :: ts.flatMap Token.pieces) := by
  refine ⟨⟨_, rfl, h t List.mem_cons_self⟩, ?_⟩
  induction ts generalizing t with
  | nil => exact ⟨_, rfl, h t List.mem_cons_self⟩
  | cons u us ih =>
      obtain ⟨l, hl, hkind⟩ := ih (t := u) fun v hv => h v (List.mem_cons_of_mem _ hv)
      refine ⟨l, ?_, hkind⟩
      rw [List.flatMap_cons, Token.pieces, List.append_assoc, ← List.cons_append,
        List.singleton_append, List.getLast?_append, hl, Option.some_or]

namespace Cursor

variable {mode : Mode} {c c₁ : Cursor}

theorem IsLexed.comments (hc : c.IsLexed mode) : ∀ l ∈ c.head.comments, l.kind = .comment := by
  obtain ⟨ahead, eof⟩ := c
  cases ahead with
  | nil => cases hc.tokens with
    | cons _ comments _ _ => exact comments
  | cons t ts => cases hc.tokens with
    | cons _ comments _ _ => exact comments

/-- Outside of the tags there are no comments. -/
theorem IsLexed.outside (hc : c.IsLexed .html) : c.head.comments = [] := by
  obtain ⟨ahead, eof⟩ := c
  cases ahead with
  | nil => cases hc.tokens with
    | cons _ _ outside _ => exact outside rfl
  | cons t ts => cases hc.tokens with
    | cons _ _ outside _ => exact outside rfl

/-- What stands between two cursors: the comments before a token, and code from that token on. -/
theorem Behind.code (h : c.Behind false c₁) (hsize : c₁.size + 1 ≤ c.size) (hc : c.IsLexed mode) :
    ∃ code mode', c.pieces = c.head.comments ++ (code ++ c₁.pieces) ∧ IsCode code ∧
      c₁.IsLexed mode' := by
  obtain ⟨n⟩ := h
  obtain ⟨ahead, eof⟩ := c
  cases ahead with
  | nil => simp [size] at hsize
  | cons t ts =>
      cases n with
      | zero => exact absurd hsize (Nat.not_succ_le_self _)
      | succ n =>
          have hparts : t :: ts = (t :: ts.take n) ++ ts.drop n := by simp
          have htokens : Cursor.tokens ⟨t :: ts, eof⟩ = (t :: ts.take n) ++ Cursor.tokens
              ⟨ts.drop n, eof⟩ := by
            simp [Cursor.tokens, ← List.append_assoc]
          have hsequence := hc.tokens
          rw [htokens] at hsequence
          obtain ⟨mode', hrest⟩ := hsequence.of_append
          refine ⟨_, mode', ?_, isCode_tokens fun u hu => hsequence.kind_ne
            (List.mem_append_left _ hu), hrest, hc.eof⟩
          rw [pieces, htokens]
          simp [Cursor.skip, pieces, Token.pieces, head]

theorem IsLexed.ahead_ne_nil (hc : c.IsLexed mode) (h : c.head.kind ≠ .eof) : c.ahead ≠ [] := by
  intro hahead
  rw [head, hahead] at h
  exact h hc.eof

theorem IsLexed.skip_one (hc : c.IsLexed mode) (h : c.ahead ≠ []) :
    c.pieces = c.head.comments ++ c.head.toLexeme :: (c.skip 1).pieces ∧
      (c.skip 1).IsLexed (modeAfter c.head.kind) := by
  obtain ⟨ahead, eof⟩ := c
  cases ahead with
  | nil => exact absurd rfl h
  | cons t ts =>
      cases hc.tokens with
      | cons _ _ _ behind => exact ⟨pieces_push t ts eof, behind, hc.eof⟩

theorem IsLexed.take? (hc : c.IsLexed mode) {k : TokenKind} {s : Step 1 Token c}
    (hs : c.take? k = some s) :
    c.pieces = c.head.comments ++ c.head.toLexeme :: s.rest.pieces ∧ c.head.kind = k ∧
      s.rest.IsLexed (modeAfter k) := by
  obtain ⟨hnext, hkind⟩ := Option.filter_eq_some_iff.1 hs
  obtain ⟨hahead, hrest⟩ := next?_eq_some hnext
  have hhead : c.head.kind = k := by
    rw [head, hahead]
    exact eq_of_beq hkind
  obtain ⟨hpieces, hlexed⟩ := hc.skip_one (by rw [hahead]; exact List.cons_ne_nil _ _)
  rw [hrest, ← hhead]
  exact ⟨hpieces, rfl, hlexed⟩

theorem IsLexed.take (hc : c.IsLexed mode) {k : TokenKind} {s : Step 1 Token c}
    (hs : c.take k = .ok s) :
    c.pieces = c.head.comments ++ c.head.toLexeme :: s.rest.pieces ∧ c.head.kind = k ∧
      s.rest.IsLexed (modeAfter k) := by
  unfold Cursor.take at hs
  split at hs
  next htake =>
    cases hs
    exact hc.take? htake
  next => cases hs

/-- Some of the comments before a token may be taken off. -/
theorem IsLexed.withComments (hc : c.IsLexed mode) {comments : List Lexeme}
    (h : ∀ l ∈ comments, l ∈ c.head.comments) :
    (c.withComments comments).IsLexed mode := by
  have hcomments := fun l hl => hc.comments l (h l hl)
  have hnil (hnone : c.head.comments = []) : comments = [] := by
    cases comments with
    | nil => rfl
    | cons l ls =>
        have hl := h l List.mem_cons_self
        rw [hnone] at hl
        cases hl
  obtain ⟨ahead, eof⟩ := c
  cases ahead with
  | nil =>
      cases hc.tokens with
      | cons kind _ outside behind =>
          exact ⟨.cons kind hcomments (fun hm => hnil (outside hm)) behind, hc.eof⟩
  | cons t ts =>
      cases hc.tokens with
      | cons kind _ outside behind =>
          exact ⟨.cons kind hcomments (fun hm => hnil (outside hm)) behind, hc.eof⟩

theorem pieces_withComments {before behind : List Lexeme} (h : c.head.comments = before ++ behind) :
    c.pieces = before ++ (c.withComments behind).pieces := by
  obtain ⟨ahead, eof⟩ := c
  cases ahead with
  | nil =>
      have hcomments : eof.comments = before ++ behind := h
      simp [pieces, tokens, Token.pieces, withComments, hcomments]
  | cons t ts =>
      have hcomments : t.comments = before ++ behind := h
      simp [pieces, tokens, Token.pieces, withComments, hcomments]

/-- The comment behind what was read is taken off the next token. -/
theorem IsLexed.sameLineComment (hc : c.IsLexed mode) :
    c.pieces = c.sameLineComment.value.toList ++ c.sameLineComment.rest.pieces ∧
      (∀ l ∈ c.sameLineComment.value, l.kind = .comment) ∧ c.sameLineComment.rest.IsLexed mode := by
  unfold Cursor.sameLineComment
  split
  next l ls hcomments =>
    split
    next => exact ⟨rfl, nofun, hc⟩
    next =>
      have hmem : ∀ x ∈ ls, x ∈ c.head.comments := fun x hx => hcomments ▸ List.mem_cons_of_mem l hx
      have hpieces : c.pieces = [l] ++ (c.withComments ls).pieces := pieces_withComments hcomments
      refine ⟨hpieces, ?_, hc.withComments hmem⟩
      rintro _ ⟨⟩
      exact hc.comments l (hcomments ▸ List.mem_cons_self)
  next => exact ⟨rfl, nofun, hc⟩

end Cursor

end ClassEdit
