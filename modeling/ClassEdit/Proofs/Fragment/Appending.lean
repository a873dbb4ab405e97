import ClassEdit.Proofs.Fragment.Reads
import ClassEdit.Proofs.Fragment.Resplitting
import ClassEdit.Proofs.Token.Following

/-!
Statements with other code behind them. The cursor before both stands before the tokens of the first
and then those of the second, and comments behind the last token of the first go to the first token
of the second. Main statement: if the first code ends with a finished statement and a line, the
statements of both are those of the first and then those of the second.
-/

namespace ClassEdit

namespace Token

/-- Comments found before go before those of the first token. -/
theorem ofLexemes_comments (before comments ls : List Lexeme) : ofLexemes (before ++ comments) ls =
    (ofLexemes comments ls).modifyHead fun t => { t with comments := before ++ t.comments } := by
  induction ls generalizing comments with
  | nil => rfl
  | cons l ls ih =>
    unfold ofLexemes
    split
    next => rw [List.append_assoc, ih]
    next => rfl

/-- The tokens of lexemes, and the comments behind the last of them. -/
theorem exists_ofLexemes_append (comments ls : List Lexeme) :
    ∃ ts pending, ∀ ms, ofLexemes comments (ls ++ ms) = ts ++ ofLexemes pending ms := by
  induction ls generalizing comments with
  | nil => exact ⟨[], comments, fun _ => rfl⟩
  | cons l ls ih =>
    by_cases hkind : l.kind = .comment
    · obtain ⟨ts, pending, h⟩ := ih (comments ++ [l])
      refine ⟨ts, pending, fun ms => ?_⟩
      rw [List.cons_append, ofLexemes, if_pos hkind, h]
    · obtain ⟨ts, pending, h⟩ := ih []
      refine ⟨{ l with comments := comments } :: ts, pending, fun ms => ?_⟩
      rw [List.cons_append, ofLexemes, if_neg hkind, h]
      rfl

end Token

namespace Cursor

def followedBy (c d : Cursor) : Cursor :=
  let d' := d.withComments (c.eof.comments ++ d.head.comments)
  ⟨c.ahead ++ d'.ahead, d'.eof⟩

theorem ofLexemes_of_tokens {ls : List Lexeme} {ts : List Token} {t : Token}
    (h : Token.ofLexemes [] ls = ts ++ [t]) :
    ofLexemes ls = ⟨ts, t⟩ := by
  simp [ofLexemes, h]

/-- The cursor before lexemes and then others. -/
theorem ofLexemes_append {ls ms : List Lexeme} {e : Lexeme} (he : e.kind ≠ .comment)
    (hms : Token.ofLexemes [] ms ≠ []) :
    ofLexemes (ls ++ ms) = (ofLexemes (ls ++ [e])).followedBy (ofLexemes ms) := by
  obtain ⟨ts, pending, hls⟩ := Token.exists_ofLexemes_append [] ls
  have hfirst : ofLexemes (ls ++ [e]) = ⟨ts, { e with comments := pending }⟩ := by
    refine ofLexemes_of_tokens ?_
    rw [hls, Token.ofLexemes, if_neg he]
    rfl
  have hpending := Token.ofLexemes_comments pending [] ms
  rw [List.append_nil] at hpending
  obtain ⟨us, u, hus⟩ : ∃ us u, Token.ofLexemes [] ms = us ++ [u] :=
    ⟨_, _, (List.dropLast_concat_getLast hms).symm⟩
  rw [hfirst, ofLexemes_of_tokens hus]
  rw [hus] at hpending
  cases us with
  | nil =>
    refine ofLexemes_of_tokens ?_
    rw [hls, hpending]
    simp [withComments, head]
  | cons v us =>
    refine ofLexemes_of_tokens ?_
    rw [hls, hpending]
    simp [withComments, head]

section FollowedBy

variable {c d : Cursor} {n : Nat}

theorem withComments_self (d : Cursor) : d.withComments d.head.comments = d := by
  obtain ⟨ahead, eof⟩ := d
  cases ahead <;> rfl

theorem followedBy_of_nil (hahead : c.ahead = []) (hcomments : c.head.comments = []) :
    c.followedBy d = d := by
  obtain ⟨ahead, eof⟩ := c
  obtain rfl : ahead = [] := hahead
  rw [followedBy, show eof.comments = [] from hcomments]
  exact d.withComments_self

theorem skip_followedBy (hn : n ≤ c.ahead.length) :
    (c.followedBy d).skip n = (c.skip n).followedBy d := by
  simp [followedBy, skip, List.drop_append_of_le_length hn]

theorem sameLineComment_of_newLine (h : ∀ l ∈ c.head.comments.head?, l.isOnNewLine = true) :
    c.sameLineComment.value = none ∧ c.sameLineComment.rest = c := by
  rcases c.sameLineComment_cases with ⟨hnone, hrest, -⟩ | ⟨l, ls, hcomments, hsame, -⟩
  · exact ⟨hnone, hrest⟩
  · rw [hcomments] at h
    cases hsame.symm.trans (h l rfl)

theorem sameLineComment_of_cons {l : Lexeme} {ls : List Lexeme}
    (hcomments : c.head.comments = l :: ls) (hsame : l.isOnNewLine = false) :
    c.sameLineComment.value = some l ∧ c.sameLineComment.rest = c.withComments ls := by
  rcases c.sameLineComment_cases with ⟨-, -, hnew⟩ | ⟨l', ls', hcomments', -, hsome, hrest⟩
  · rw [hcomments] at hnew
    cases hsame.symm.trans (hnew l rfl)
  · obtain ⟨rfl, rfl⟩ := List.cons.inj (hcomments.symm.trans hcomments')
    exact ⟨hsome, hrest⟩

/-- The comments before the next token are those of the first cursor, and those of the second where
the first has nothing else. -/
theorem exists_comments_followedBy (c d : Cursor) : ∃ more, (more = [] ∨ more = d.head.comments) ∧
    (c.followedBy d).head.comments = c.head.comments ++ more ∧
    ∀ ls, (c.followedBy d).withComments (ls ++ more) = (c.withComments ls).followedBy d := by
  obtain ⟨ahead, eof⟩ := c
  cases ahead with
  | nil =>
    refine ⟨d.head.comments, .inr rfl, ?_, fun ls => ?_⟩
    · obtain ⟨us, e⟩ := d
      cases us <;> rfl
    · obtain ⟨us, e⟩ := d
      cases us <;> rfl
  | cons t ts =>
      exact ⟨[], .inl rfl, by simp [followedBy, head], fun ls => by simp [followedBy, withComments]⟩

/-- A comment behind what was read is taken off if it is on the same line, whatever comes behind. -/
theorem sameLineComment_followedBy (c : Cursor) {d : Cursor}
    (hd : ∀ l ∈ d.head.comments.head?, l.isOnNewLine = true) :
    (c.followedBy d).sameLineComment.value = c.sameLineComment.value ∧
      (c.followedBy d).sameLineComment.rest = c.sameLineComment.rest.followedBy d := by
  obtain ⟨more, hmore, hcomments, hwith⟩ := c.exists_comments_followedBy d
  rcases c.sameLineComment_cases with ⟨hnone, hrest, hnew⟩ | ⟨l, ls, hfirst, hsame, hsome, hrest⟩
  · rw [hnone, hrest]
    refine sameLineComment_of_newLine fun l hl => ?_
    rw [hcomments, List.head?_append, Option.mem_def, Option.or_eq_some_iff] at hl
    rcases hl with hl | ⟨-, hl⟩
    · exact hnew l hl
    · rcases hmore with rfl | rfl
      · cases hl
      · exact hd l hl
  · rw [hsome, hrest, ← hwith]
    rw [hfirst] at hcomments
    exact sameLineComment_of_cons hcomments hsame

end FollowedBy

end Cursor

namespace Fragment

open Cursor (takeStatement_eq_ok exists_takeStatement)

/-- A part that ends with a semicolon or a brace, but for a comment. -/
def IsFinished (part : List Lexeme) : Prop :=
  ∃ l ∈ (tokens part).getLast?, l.kind = .semicolon ∨ l.kind = .rightBrace

/-- A lexeme that does not go on with the statement of a part. -/
structure Follows (part : List Lexeme) (l : Lexeme) : Prop where
  word : l.isAnyWord Extent.continuations = false
  loop : (∃ m ∈ (tokens part).head?, m.isWord "do" = true) → l.isWord "while" = false

variable {c d : Cursor} {parts parts' : List (List Lexeme)}

/-- Where the last part is finished there is nothing left of it at the end. -/
theorem Parts.eq_nil_of_finished (h : Parts c parts) (hahead : c.ahead = [])
    (hc : ∃ mode, c.IsLexed mode) (hlast : ∀ part ∈ parts.getLast?, IsFinished part) :
    parts = [] := by
  cases h with
  | nil => rfl
  | @closing _ l ls _ hcomments =>
    obtain ⟨m, hm, -⟩ := hlast (l :: ls) rfl
    rw [← hcomments, tokens_of_comments (Cursor.comments_of_lexed hc)] at hm
    cases hm
  | cons hs =>
    obtain ⟨n, hne, -⟩ := takeStatement_eq_ok hs
    exact absurd hahead hne

/-- What comes behind a finished part does not go on with its statement. -/
theorem continues_of_follows {part : List Lexeme} {ts : List Token}
    (htokens : tokens part = ts.map (·.toLexeme)) (h : Follows part d.head.toLexeme)
    (comments : List Lexeme) :
    Extent.continues (Extent.shapeOf ts) (d.withComments comments).ahead = false := by
  obtain ⟨us, e⟩ := d
  cases us with
  | nil => rfl
  | cons u us =>
    have hword : u.isAnyWord Extent.continuations = false := h.word
    have hloop : ((Extent.shapeOf ts).isDo && u.isWord "while") = false := by
      rw [Bool.and_eq_false_imp]
      intro hdo
      refine h.loop ?_
      rw [htokens]
      cases ts with
      | nil => cases hdo
      | cons t ts => exact ⟨t.toLexeme, rfl, hdo⟩
    show (u.isAnyWord Extent.continuations || (Extent.shapeOf ts).isDo && u.isWord "while") = false
    rw [hword, hloop]
    rfl

/-- A statement of the first code is the same before the second, which must not go on with it
where it is the last. -/
theorem takeStatement_followedBy {s : Step 1 (List Token) c} (hs : c.takeStatement = .ok s)
    (hlast : s.rest.ahead = [] → (∀ t ∈ s.value.getLast?, Extent.isOutside t = false) ∧
      ∀ comments, Extent.continues (Extent.shapeOf s.value) (d.withComments comments).ahead =
        false) :
    ∃ s', (c.followedBy d).takeStatement = .ok s' ∧ s'.value = s.value ∧
      s'.rest = s.rest.followedBy d := by
  obtain ⟨n, hahead, hn, hvalue, hrest⟩ := takeStatement_eq_ok hs
  have hpos := (Extent.statement_ends hahead hn).1
  rw [Nat.sub_add_cancel hpos] at hvalue hrest
  obtain ⟨hle, hn'⟩ : n ≤ c.ahead.length ∧ Extent.statement (c.followedBy d) = .ok n := by
    refine Extent.statement_append rfl hn fun hall => ?_
    have hnil : s.rest.ahead = [] := by
      rw [hrest, hall]
      exact List.drop_length
    rw [hall, List.take_length] at hvalue
    obtain ⟨hinside, hnext⟩ := hlast hnil
    rw [hvalue] at hinside hnext
    exact ⟨hinside, hnext _⟩
  have hne : (c.followedBy d).ahead ≠ [] := by
    simp [Cursor.followedBy, hahead]
  obtain ⟨s', hs', hvalue', hrest'⟩ := exists_takeStatement hne hn'
  have hboth : (c.followedBy d).ahead = c.ahead ++
      (d.withComments (c.eof.comments ++ d.head.comments)).ahead := rfl
  rw [Nat.sub_add_cancel hpos] at hvalue' hrest'
  rw [hboth, List.take_append_of_le_length hle, ← hvalue] at hvalue'
  rw [Cursor.skip_followedBy hle, ← hrest] at hrest'
  exact ⟨s', hs', hvalue', hrest'⟩

/-- Before other code the parts are the same, and those of the other code come behind them. -/
theorem Parts.append (h : Parts c parts) (hc : ∃ mode, c.IsLexed mode)
    (hlast : ∀ part ∈ parts.getLast?, IsFinished part ∧ Follows part d.head.toLexeme)
    (hline : ∀ l ∈ d.head.comments.head?, l.isOnNewLine = true) (hd : Parts d parts') :
    Parts (c.followedBy d) (parts ++ parts') := by
  induction h with
  | nil hahead hcomments =>
    rw [Cursor.followedBy_of_nil hahead hcomments]
    exact hd
  | closing hahead hcomments =>
    have hnil := (Parts.closing hahead hcomments).eq_nil_of_finished hahead hc fun part hpart =>
      (hlast part hpart).1
    cases hnil
  | @cons c s parts hs hparts ih =>
    obtain ⟨htokens, hlexed⟩ := tokens_part hc hs
    have hbehind : ∀ part ∈ parts.getLast?, IsFinished part ∧ Follows part d.head.toLexeme := by
      intro part hpart
      refine hlast part ?_
      rw [List.getLast?_cons, Option.mem_def.1 hpart]
      rfl
    -- where nothing is left, no part is behind this one, and it is the finished part
    have hends (hnil : s.rest.ahead = []) : (∀ t ∈ s.value.getLast?, Extent.isOutside t = false) ∧
        ∀ comments, Extent.continues (Extent.shapeOf s.value) (d.withComments comments).ahead =
          false := by
      have hnone := s.rest.map_ahead_sameLineComment
      rw [hnil, List.map_nil, List.map_eq_nil_iff] at hnone
      obtain rfl := hparts.eq_nil_of_finished hnone hlexed fun part hpart => (hbehind part hpart).1
      obtain ⟨⟨l, hl, hkind⟩, hfollows⟩ :=
        hlast (s.value.flatMap Token.pieces ++ s.rest.sameLineComment.value.toList) rfl
      rw [htokens, List.getLast?_map] at hl
      obtain ⟨t, ht, rfl⟩ := Option.map_eq_some_iff.1 hl
      refine ⟨fun u hu => ?_, continues_of_follows htokens hfollows⟩
      obtain rfl := Option.some.inj (ht.symm.trans hu)
      rw [Extent.isOutside]
      rcases hkind with hkind | hkind <;>
      · rw [show t.kind = _ from hkind]
        rfl
    obtain ⟨s', hs', hvalue, hrest⟩ := takeStatement_followedBy hs hends
    obtain ⟨hcomment, hnext⟩ := Cursor.sameLineComment_followedBy s.rest hline
    have hmore : Parts s'.rest.sameLineComment.rest (parts ++ parts') := by
      rw [hrest, hnext]
      exact ih hlexed hbehind
    have hcons := Parts.cons hs' hmore
    rwa [hvalue, hrest, hcomment] at hcons

/-- A cursor stands before the same parts always. -/
theorem Parts.unique (h : Parts c parts) (h' : Parts c parts') : parts' = parts := by
  induction h generalizing parts' with
  | nil hahead hcomments => exact h'.eq_nil hahead hcomments
  | closing hahead hcomments =>
    cases h' with
    | nil _ hnone => cases hcomments.symm.trans hnone
    | closing _ hcomments' => rw [hcomments.symm.trans hcomments']
    | cons hs =>
      obtain ⟨n, hne, -⟩ := takeStatement_eq_ok hs
      exact absurd hahead hne
  | cons hs _ ih =>
    cases h' with
    | nil hahead =>
      obtain ⟨n, hne, -⟩ := takeStatement_eq_ok hs
      exact absurd hahead hne
    | closing hahead =>
      obtain ⟨n, hne, -⟩ := takeStatement_eq_ok hs
      exact absurd hahead hne
    | cons hs' h' =>
      cases hs.symm.trans hs'
      rw [ih h']

section Elsewhere

open Lexeme (content)

theorem excerpt_of_content {ls ls' : List Lexeme} (h : ls'.map content = ls.map content) :
    excerpt ls' = excerpt ls := by
  cases ls with
  | nil =>
    obtain rfl := List.map_eq_nil_iff.1 h
    rfl
  | cons l ls =>
    obtain ⟨l', ls', rfl, hl, hls⟩ := List.map_eq_cons_iff.1 h
    exact Lexeme.excerpt_congr (congrArg Prod.snd hl) hls

/-- The parts have the same texts if their lexemes have the same contents. -/
theorem map_excerpt_of_content (h : SameCuts parts parts')
    (hflatten : parts'.flatten.map content = parts.flatten.map content) :
    parts'.map excerpt = parts.map excerpt := by
  induction h with
  | nil => rfl
  | last x y =>
    have hxy : y.map content = x.map content := by simpa using hflatten
    rw [List.map_singleton, List.map_singleton, excerpt_of_content hxy]
  | cons hlength _ ih =>
    rw [List.flatten_cons, List.flatten_cons, List.map_append, List.map_append] at hflatten
    obtain ⟨hx, hxs⟩ := List.append_inj hflatten (by simp [hlength])
    rw [List.map_cons, List.map_cons, excerpt_of_content hx, ih hxs]

/-- Parts that are cut at the same places have the same texts, whatever white space is before the
first. -/
theorem map_excerpt_of_sameCuts {l l' : Lexeme} {ls ls' first : List Lexeme}
    (h : SameCuts (first :: parts) parts') (hfirst : first ≠ [])
    (hls : (first :: parts).flatten = l :: ls) (hls' : parts'.flatten = l' :: ls')
    (hl : l'.content.2 = l.content.2) (hcontent : ls'.map content = ls.map content) :
    parts'.map excerpt = (first :: parts).map excerpt := by
  obtain ⟨m, ms, rfl⟩ := List.exists_cons_of_ne_nil hfirst
  rw [List.flatten_cons, List.cons_append] at hls
  obtain ⟨rfl, rfl⟩ := List.cons.inj hls
  cases h with
  | last _ y =>
    rw [List.flatten_singleton] at hls'
    subst hls'
    rw [List.map_singleton, List.map_singleton]
    rw [List.flatten_nil, List.append_nil] at hcontent
    rw [Lexeme.excerpt_congr hl hcontent]
  | @cons _ y _ ys hlength hs =>
    cases y with
    | nil => cases hlength
    | cons m' ms' =>
      rw [List.flatten_cons, List.cons_append] at hls'
      obtain ⟨rfl, rfl⟩ := List.cons.inj hls'
      rw [List.map_append, List.map_append] at hcontent
      have hlength' : (ms'.map content).length = (ms.map content).length := by
        rw [List.length_map, List.length_map]
        exact (Nat.succ.inj hlength).symm
      obtain ⟨hx, hxs⟩ := List.append_inj hcontent hlength'
      rw [List.map_cons, List.map_cons, Lexeme.excerpt_congr hl hx, map_excerpt_of_content hs hxs]

end Elsewhere

end Fragment

end ClassEdit
