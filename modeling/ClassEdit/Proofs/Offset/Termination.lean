import ClassEdit.Proofs.Offset.Source

/-!
The rounds of the readers that go by offsets. A reader is given as many rounds as there are tokens
left, and each that reads something goes on by at least one of them, so that no loop on the way has
a round too few. Main statement: no source runs out of rounds, and from everywhere in the lexemes of
a source the readers go on or are refused.
-/

namespace ClassEdit

open Halt (ofResult)
open Scan (lexemes lexemesByOffset lexemesByOffset_eq)

namespace Reading

variable {α : Type}

/-- A reader is refused, or it ends before a token that is so many tokens ahead or more. -/
def GoesOn (k : Nat) (t : Tape) (s : At) (x : Reading α) : Prop :=
  (∃ e, x t s = .error (.refused e)) ∨ ∃ a s', x t s = .ok (a, s') ∧ s.pos + k ≤ s'.pos ∧
    s'.pos < t.tokens.length

/-- What reads a part of a source goes on by a token at least. The offset up to which statements
have been read matters for members and statements only. -/
structure Advances (t : Tape) (s : At) (n : Nat) : Prop where
  statement (k : Nat) : GoesOn 1 t ⟨s.pos, k⟩ (statement n)
  group (k : Nat) {l : Lexeme} (hl : peek t s = .ok (l, s)) (hopen : l.kind.closer?.isSome) :
    GoesOn 1 t ⟨s.pos, k⟩ (group n)
  expr (k : Nat) : GoesOn 1 t ⟨s.pos, k⟩ (expr n)
  item (k : Nat) : GoesOn 1 t ⟨s.pos, k⟩ (item n)
  param (k : Nat) : GoesOn 1 t ⟨s.pos, k⟩ (param n)
  member : GoesOn 1 t s (member n)
  topStatement : GoesOn 1 t s (Reading.topStatement n (namespaceStatement n))
  innerStatement : GoesOn 1 t s (Reading.topStatement n fun _ => unexpected .statement)

/-- No loop needs more rounds than a number. -/
structure LoopsEnd (t : Tape) (s : At) (n : Nat) : Prop where
  split (braced isFirst : Bool) (k : Nat) : GoesOn 0 t ⟨s.pos, k⟩ (split n braced isFirst s.lastEnd)
  items {closer : TokenKind} (hcloser : closer ≠ .eof) (k : Nat) : GoesOn 1 t ⟨s.pos, k⟩
    (items n closer s.lastEnd)
  params (k : Nat) : GoesOn 0 t ⟨s.pos, k⟩ (params n)
  members : GoesOn 0 t s (members n)
  attributes (k : Nat) : GoesOn 0 t ⟨s.pos, k⟩ (attributes n)
  inner (braced : Bool) : GoesOn 0 t s (inner n braced)
  outer : GoesOn 0 t s (outer n)
  /-- The look behind attributes takes nothing. -/
  pastAttributes : ∃ o, pastAttributes n 0 0 t s = .ok (o, s)

end Reading

section Progress

variable {α : Type} {ls : List Lexeme} {tight : Bool} {s : At} {c : Cursor} {k n : Nat}
  {Q : At → Cursor → Prop}

theorem Stands.length_tokens (h : Stands ls tight s c) :
    (Tape.ofLexemes ls).tokens.length = s.pos + c.size + 1 := by
  obtain ⟨front, hfront, -⟩ := h
  exact hfront.length_tokens

/-- What is taken off a cursor is gone on by. -/
theorem Tracks.goesOn {x : Reading α} {r : Except ParseError (Step k α c)}
    (h : Tracks Q (x (Tape.ofLexemes ls) s) r) (hc : Stands ls tight s c)
    (hQ : ∀ s c, Q s c → Stands ls false s c) :
    Reading.GoesOn k (Tape.ofLexemes ls) s x := by
  rw [Reading.GoesOn]
  generalize x (Tape.ofLexemes ls) s = m at h
  cases h with
  | refused e => exact .inl ⟨e, rfl⟩
  | @ok st s' hs' =>
    have hlength := hc.length_tokens
    have hlength' := (hQ _ _ hs').length_tokens
    have hprogress := st.progress
    exact .inr ⟨_, _, rfl, by omega, by omega⟩

/-- A count of tokens goes on by as many. -/
theorem Counts.goesOn {x : Reading Unit} {r : Except ParseError Nat} (hc : Stands ls tight s c)
    (h : Counts s c (x (Tape.ofLexemes ls) s) ((· + k) <$> r)) :
    Reading.GoesOn k (Tape.ofLexemes ls) s x := by
  rw [Reading.GoesOn]
  generalize x (Tape.ofLexemes ls) s = m at h
  generalize hr : (· + k) <$> r = r' at h
  cases h with
  | refused e => exact .inl ⟨e, rfl⟩
  | @ok j hj =>
    have hlength := hc.length_tokens
    cases r with
    | error e => cases hr
    | ok i =>
      cases hr
      have hj : i + k ≤ c.size := hj
      exact .inr ⟨_, _, rfl, by dsimp only; omega, by dsimp only; omega⟩

/-- A statement has at least one token. -/
theorem Stands.goesOn_statement (h : Stands ls tight s c) (hn : c.size < n) :
    Reading.GoesOn 1 (Tape.ofLexemes ls) s (Reading.statement n) := by
  have htakes := h.statement hn
  rw [Reading.GoesOn]
  generalize Reading.statement n (Tape.ofLexemes ls) s = m at htakes
  generalize c.takeStatement = r at htakes
  cases htakes with
  | refused e => exact .inl ⟨e, rfl⟩
  | @ok j st hj hpos =>
    have hlength := h.length_tokens
    exact .inr ⟨_, _, rfl, by dsimp only; omega, by dsimp only; omega⟩

theorem Stands.goesOn_group (h : Stands ls tight s c) (hn : c.size ≤ n)
    (hopen : c.head.kind.closer?.isSome) :
    Reading.GoesOn 1 (Tape.ofLexemes ls) s (Reading.group n) := by
  obtain ⟨closer, hcloser⟩ := Option.isSome_iff_exists.1 hopen
  rcases c.eq_push with hnil | ⟨c, t, rfl⟩
  · rw [(h.head_of_nil hnil).2] at hcloser
    cases hcloser
  · exact (h.group hn (Cursor.ahead_push c t) hcloser).goesOn h

/-- A statement of a file takes a token or is refused, if a namespace does. -/
theorem Marked.goesOn_topStatement (h : Marked ls s c) (hn : c.size < n)
    {nested : Trivia → Reading (Stmt × Option String)}
    (hnested : ∀ s', Stands ls false s' c → Reading.GoesOn 1 (Tape.ofLexemes ls) s'
      (nested c.leadingTrivia)) :
    Reading.GoesOn 1 (Tape.ofLexemes ls) s (Reading.topStatement n nested) := by
  cases hns : c.isAtNamespace with
  | true =>
    obtain ⟨s', hs', hsame⟩ := h.topStatement_namespace hn hns nested
    have hpos : s'.pos = s.pos := by
      have hlength := h.stands.length_tokens
      have hlength' := hs'.length_tokens
      omega
    have hgoes := hnested s' hs'
    rw [Reading.GoesOn, hpos, ← hsame] at hgoes
    exact hgoes
  | false =>
    have hread : Tracks (Marked ls) ((Reading.topStatement n nested >>= pure) (Tape.ofLexemes ls) s)
        (Stmt.readOrdinary c >>= fun st => .ok (st.map (·, none))) :=
      h.topStatement hn hns nested fun st s' hs' => .pure (t := Tape.ofLexemes ls) rfl hs'
    rw [bind_pure] at hread
    exact hread.goesOn h.stands fun _ _ => Reaches.stands

theorem Stands.goesOn_namespaceStatement (h : Stands ls tight s c) (hn : c.size < n) :
    Reading.GoesOn 1 (Tape.ofLexemes ls) s (Reading.namespaceStatement n c.leadingTrivia) := by
  have hread : Tracks (Rests ls)
      (Reading.namespaceStatement n c.leadingTrivia (Tape.ofLexemes ls) s)
      (Stmt.readNamespace c >>= fun st =>
        .ok (st.map fun read => (.namespace_ read.1, read.2))) := by
    rw [Reading.namespaceStatement]
    refine .bind (h.namespaceDecl hn) fun st _ hs => ?_
    obtain ⟨⟨decl, epilogue⟩, c₁, h₁⟩ := st
    exact .pure (t := Tape.ofLexemes ls) rfl hs
  exact hread.goesOn h fun _ _ => Rests.stands

/-- Each loop of the reader goes on by a token in each turn. -/
theorem Marked.advances (h : Marked ls s c) (hn : c.size < n) :
    Reading.Advances (Tape.ofLexemes ls) s n := by
  have hstands (k : Nat) : Stands ls false ⟨s.pos, k⟩ c := h.stands.of_pos rfl
  have hloose (s : At) (c : Cursor) (h : Stands ls true s c) : Stands ls false s c := h.loosen
  exact {
    statement := fun k => (hstands k).goesOn_statement hn
    group := fun k l hl hopen => by
      rw [h.stands.peek] at hl
      cases hl
      exact (hstands k).goesOn_group (Nat.le_of_lt hn) hopen
    expr := fun k => ((hstands k).expr hn).goesOn (hstands k) hloose
    item := fun k => ((hstands k).item hn).goesOn (hstands k) hloose
    param := fun k => ((hstands k).param hn).goesOn (hstands k) hloose
    member := (h.member hn).goesOn h.stands fun _ _ => Reaches.stands
    topStatement := h.goesOn_topStatement hn fun s' hs' => hs'.goesOn_namespaceStatement hn
    innerStatement := h.goesOn_topStatement hn fun s' hs' => .inl ⟨_, hs'.unexpected_eq _⟩ }

/-- Each loop of the reader ends before its rounds do. -/
theorem Marked.loopsEnd (h : Marked ls s c) (hn : c.size < n) :
    Reading.LoopsEnd (Tape.ofLexemes ls) s n := by
  have hstands (k : Nat) : Stands ls false ⟨s.pos, k⟩ c := h.stands.of_pos rfl
  have hreaches (k : Nat) : Reaches ls s.lastEnd ⟨s.pos, k⟩ c := Reaches.of_pos h rfl
  have hloose (s : At) (c : Cursor) (h : Stands ls true s c) : Stands ls false s c := h.loosen
  exact {
    split := fun braced isFirst k => ((hreaches k).split hn braced isFirst).goesOn
      (hstands k) fun _ _ => id
    items := fun hcloser k => (readsItems ls n hcloser hn (hreaches k)).goesOn (hstands k) hloose
    params := fun k => ((hstands k).params hn).goesOn (hstands k) fun _ _ => id
    members := (h.members hn).goesOn h.stands fun _ _ => Reaches.stands
    attributes := fun k => ((hstands k).attributes hn).goesOn (hstands k) fun _ _ => id
    inner := fun braced => (h.inner hn braced).goesOn h.stands fun _ _ => And.left
    outer := (Rests.outer (.inl h) hn).goesOn h.stands fun _ _ => id
    pastAttributes := by
      obtain ⟨o, ho, -⟩ := h.stands.pastAttributes 0 (i := 0) hn
      exact ⟨o, ho⟩ }

end Progress

/-- No reader runs out of rounds, with as many for every loop as the source has tokens, and it comes
to what the reader that goes from cursor to cursor comes to. From everywhere in the lexemes of a
source, with a round for each token that is left, each part that is read goes on by a token at least
or is refused, and each loop ends. -/
theorem byOffset_terminates :
    (∀ source, SourceFile.byOffset source ≠ .error .exhausted ∧ Fragment.byOffset source ≠
      .error .exhausted ∧
      Expr.byOffset source ≠ .error .exhausted) ∧
    (∀ source, SourceFile.byOffset source = ofResult (SourceFile.ofSource source) ∧
      Fragment.byOffset source = ofResult (Fragment.ofSource source) ∧
      Expr.byOffset source = ofResult (Expr.ofSource source)) ∧
    ∀ mode source ls, lexemesByOffset mode source = .ok ls → ∀ front back, ls = front ++ back →
      back ≠ [] →
      ∀ n, (back.filter (·.kind != .comment)).length ≤ n →
        Reading.Advances (Tape.ofLexemes ls) (.behind front) n ∧
          Reading.LoopsEnd (Tape.ofLexemes ls) (.behind front) n := by
  refine ⟨fun source => ?_,
    fun source =>
      ⟨SourceFile.byOffset_eq source, Fragment.byOffset_eq source, Expr.byOffset_eq source⟩,
    fun mode source ls hls front back hsplit hback n hn => ?_⟩
  · rw [SourceFile.byOffset_eq, Fragment.byOffset_eq, Expr.byOffset_eq]
    exact ⟨Halt.ofResult_ne (by simp), Halt.ofResult_ne (by simp), Halt.ofResult_ne (by simp)⟩
  · rw [lexemesByOffset_eq, Halt.ofResult_eq_ok] at hls
    subst hsplit
    have hmarked := Marked.behind (IsWhole.of_lexemes hls).1 hback
    have hsize : (Cursor.ofLexemes back).size < n := hmarked.stands.size_lt <| by
      rw [Tape.ofLexemes, List.filter_append, List.length_append]
      exact Nat.add_le_add_left hn _
    exact ⟨hmarked.advances hsize, hmarked.loopsEnd hsize⟩

/-- Behind the opening tag, with six tokens left. -/
theorem byOffset_terminates_call :
    ∃ l back, lexemesByOffset .html "<?php f(1);\n".toList = .ok ([l] ++ back) ∧
    back ≠ [] ∧ (back.filter (·.kind != .comment)).length = 6 ∧
      Reading.Advances (Tape.ofLexemes ([l] ++ back)) (.behind [l]) 6 ∧
      Reading.LoopsEnd (Tape.ofLexemes ([l] ++ back)) (.behind [l]) 6 := by
  have hread : (lexemesByOffset .html "<?php f(1);\n".toList).toOption.map
      (fun ls => (ls.drop 1).filter (·.kind != .comment) |>.length) = some 6 := by
    decide +kernel
  cases hls : lexemesByOffset .html "<?php f(1);\n".toList with
  | error e =>
    rw [hls] at hread
    cases hread
  | ok ls =>
    rw [hls] at hread
    cases ls with
    | nil => cases hread
    | cons l back =>
      have hlength : (back.filter (·.kind != .comment)).length = 6 := Option.some.inj hread
      have hback : back ≠ [] := by
        rintro rfl
        cases hlength
      have hreads := byOffset_terminates.2.2 .html "<?php f(1);\n".toList (l :: back) hls
        [l] back rfl hback 6
        (Nat.le_of_eq hlength)
      exact ⟨l, back, rfl, hback, hlength, hreads⟩

end ClassEdit
