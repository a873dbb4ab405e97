import ClassEdit.Proofs.Offset.Reading

/-!
Where a reader by offsets stands in the tokens of a source, as a cursor shows it. Main statements:
the steps over tokens come to the same as the steps of a cursor, and the comments and newlines
between offsets are those that the cursor shows.
-/

namespace ClassEdit

open Lexeme (extent)

/-- Without comments, the pieces of tokens are the tokens. -/
theorem Token.Sequence.filter_pieces {mode : Mode} {ts : List Token} (h : Sequence mode ts) :
    (ts.flatMap pieces).filter (·.kind != .comment) = ts.map (·.toLexeme) := by
  induction h with
  | nil => rfl
  | @cons mode t ts kind comments _ _ ih =>
    have hnone : t.comments.filter (·.kind != .comment) = [] := by
      rw [List.filter_eq_nil_iff]
      intro l hl
      simp [comments l hl]
    rw [List.flatMap_cons, pieces, List.append_assoc, List.filter_append, hnone, List.nil_append,
      List.singleton_append, List.filter_cons_of_pos (by simpa using kind), ih, List.map_cons]

/-- A part of the lexemes of a source lies before a cursor, with all tokens before that of a
number. -/
structure Splits (ls front : List Lexeme) (s : At) (c : Cursor) : Prop where
  whole : IsWhole ls
  split : ls = front ++ c.pieces
  pos : s.pos = (front.filter (·.kind != .comment)).length
  lexed : ∃ mode, c.IsLexed mode

/-- A reader stands where a cursor stands. What was read ends with a token if the flag says so. -/
def Stands (ls : List Lexeme) (tight : Bool) (s : At) (c : Cursor) : Prop :=
  ∃ front, Splits ls front s c ∧ (tight = true → ∀ l ∈ front.getLast?, l.kind ≠ .comment)

/-- A reader stands where a cursor stands, and what was read ends at an offset. -/
def Reaches (ls : List Lexeme) (stop : Nat) (s : At) (c : Cursor) : Prop :=
  ∃ front, Splits ls front s c ∧ stop = extent front

/-- A reader stands where a cursor stands, behind the statement that was read last. -/
def Marked (ls : List Lexeme) (s : At) (c : Cursor) : Prop :=
  Reaches ls s.lastEnd s c

namespace Cursor

theorem pieces_of_ahead {c : Cursor} {t : Token} {ts : List Token} (h : c.ahead = t :: ts) :
    c.pieces = t.pieces ++ (c.skip 1).pieces := by
  simp [pieces, tokens, skip, h]

theorem head_skip (c : Cursor) (n : Nat) : (c.skip n).head.toLexeme =
    ((c.tokens.map (·.toLexeme))[n]?).getD c.eof.toLexeme := by
  rw [head, skip, List.headD_eq_head?_getD, List.head?_drop, List.getElem?_map, tokens]
  by_cases hn : n < c.ahead.length
  · rw [List.getElem?_append_left hn, List.getElem?_eq_getElem hn]
    rfl
  · rw [List.getElem?_append_right (Nat.not_lt.1 hn), List.getElem?_eq_none (Nat.not_lt.1 hn)]
    cases n - c.ahead.length <;> rfl

end Cursor

namespace Splits

variable {ls front : List Lexeme} {s : At} {c : Cursor}

theorem tokens_eq (h : Splits ls front s c) : (Tape.ofLexemes ls).tokens =
    front.filter (·.kind != .comment) ++ c.tokens.map (·.toLexeme) := by
  obtain ⟨mode, hlexed⟩ := h.lexed
  rw [← hlexed.tokens.filter_pieces, ← List.filter_append]
  exact congrArg _ h.split

theorem length_tokens (h : Splits ls front s c) :
    (Tape.ofLexemes ls).tokens.length = s.pos + c.size + 1 := by
  rw [h.tokens_eq, h.pos]
  simp [Cursor.tokens, Cursor.size, Nat.add_assoc]

theorem peekAt (h : Splits ls front s c) (n : Nat) :
    Reading.peekAt n (Tape.ofLexemes ls) s = .ok ((c.skip n).head.toLexeme, s) := by
  have hget : (Tape.ofLexemes ls).tokens[s.pos + n]? = (c.tokens.map (·.toLexeme))[n]? := by
    rw [h.tokens_eq, h.pos, List.getElem?_append_right (Nat.le_add_right _ _),
      Nat.add_sub_cancel_left]
  have hlast : (Tape.ofLexemes ls).tokens.getLast? = some c.eof.toLexeme := by
    rw [h.tokens_eq]
    simp [Cursor.tokens]
  rw [Reading.peekAt, hget, hlast, Option.getD_some, c.head_skip]

theorem peek (h : Splits ls front s c) :
    Reading.peek (Tape.ofLexemes ls) s = .ok (c.head.toLexeme, s) :=
  h.peekAt 0

theorem ahead_eq_nil_iff (h : Splits ls front s c) : c.ahead = [] ↔ c.head.kind = .eof := by
  obtain ⟨mode, hlexed⟩ := h.lexed
  refine ⟨fun hnil => ?_, fun hkind => ?_⟩
  · rw [Cursor.head, hnil]
    exact hlexed.eof
  · cases hahead : c.ahead with
    | nil => rfl
    | cons t ts =>
      have hsplit := h.split
      rw [Cursor.pieces_of_ahead hahead, ← List.append_assoc] at hsplit
      rw [Cursor.head, hahead] at hkind
      exact absurd hkind (h.whole.kind_ne_eof_of_mem hsplit (Cursor.pieces_ne_nil _)
        (by simp [Token.pieces]))

/-- Behind some tokens, with the comments before them. -/
theorem skip (h : Splits ls front s c) {n : Nat} (hn : n ≤ c.size) :
    Splits ls (front ++ (c.ahead.take n).flatMap Token.pieces) { s with pos := s.pos + n }
      (c.skip n) := by
  have htokens : c.tokens = c.ahead.take n ++ (c.skip n).tokens := by
    simp [Cursor.tokens, Cursor.skip, ← List.append_assoc]
  obtain ⟨mode, hlexed⟩ := h.lexed
  have hsequence := hlexed.tokens
  rw [htokens] at hsequence
  obtain ⟨mode', hbehind⟩ := hsequence.of_append
  refine ⟨h.whole, ?_, ?_, mode', hbehind, hlexed.eof⟩
  · rw [h.split, Cursor.pieces, htokens, List.flatMap_append, List.append_assoc]
    rfl
  · have hpieces := hlexed.tokens.filter_pieces
    rw [htokens, List.flatMap_append, List.filter_append, List.map_append, hbehind.filter_pieces]
      at hpieces
    have hlength := congrArg List.length (List.append_cancel_right hpieces)
    rw [List.length_map, List.length_take_of_le hn] at hlength
    rw [h.pos, List.filter_append, List.length_append, hlength]

/-- Behind a token stands no comment, so the last piece that was passed is the token. -/
theorem getLast?_skip (h : Splits ls front s c) {n : Nat} (hn : n ≤ c.size) (hpos : 0 < n) :
    ∀ l ∈ (front ++ (c.ahead.take n).flatMap Token.pieces).getLast?, l.kind ≠ .comment := by
  have hne : c.ahead.take n ≠ [] := by
    rw [Ne, ← List.length_eq_zero_iff, List.length_take_of_le hn]
    omega
  obtain ⟨mode, hlexed⟩ := h.lexed
  have hmem : (c.ahead.take n).getLast hne ∈ c.tokens :=
    List.mem_append_left _ (List.mem_of_mem_take (List.getLast_mem hne))
  rw [← List.dropLast_concat_getLast hne, List.flatMap_append, List.flatMap_singleton, Token.pieces,
    ← List.append_assoc, ← List.append_assoc, List.getLast?_concat]
  rintro _ ⟨⟩
  exact hlexed.tokens.kind_ne hmem

end Splits

namespace Stands

variable {ls : List Lexeme} {tight : Bool} {s : At} {c : Cursor}

theorem loosen (h : Stands ls tight s c) : Stands ls false s c := by
  obtain ⟨front, hfront, -⟩ := h
  exact ⟨front, hfront, nofun⟩

theorem skip (h : Stands ls tight s c) {n : Nat} (hn : n ≤ c.size) (hpos : 0 < n) :
    Stands ls true { s with pos := s.pos + n } (c.skip n) := by
  obtain ⟨front, hfront, -⟩ := h
  exact ⟨_, hfront.skip hn, fun _ => hfront.getLast?_skip hn hpos⟩

theorem peekAt (h : Stands ls tight s c) (n : Nat) :
    Reading.peekAt n (Tape.ofLexemes ls) s = .ok ((c.skip n).head.toLexeme, s) := by
  obtain ⟨front, hfront, -⟩ := h
  exact hfront.peekAt n

theorem peek (h : Stands ls tight s c) :
    Reading.peek (Tape.ofLexemes ls) s = .ok (c.head.toLexeme, s) :=
  h.peekAt 0

theorem isAt (h : Stands ls tight s c) (k : TokenKind) :
    Reading.isAt k (Tape.ofLexemes ls) s = .ok (c.isAt k, s) := by
  rw [Reading.isAt, Reading.bind_of_eq h.peek]
  rfl

theorem ahead_eq_nil_iff (h : Stands ls tight s c) : c.ahead = [] ↔ c.head.kind = .eof := by
  obtain ⟨front, hfront, -⟩ := h
  exact hfront.ahead_eq_nil_iff

/-- The end of the token that is taken is the end of what was read. -/
theorem reaches_skip (h : Stands ls tight s c) {t : Token} {ts : List Token}
    (hahead : c.ahead = t :: ts) :
    Reaches ls t.span.stop { s with pos := s.pos + 1 } (c.skip 1) := by
  obtain ⟨front, hfront, -⟩ := h
  have hsize : 1 ≤ c.size := by rw [Cursor.size, hahead]; exact Nat.succ_le_succ (Nat.zero_le _)
  refine ⟨_, hfront.skip hsize, ?_⟩
  have hsplit := hfront.split
  rw [Cursor.pieces_of_ahead hahead, Token.pieces, List.append_assoc, List.singleton_append,
    ← List.append_assoc] at hsplit
  rw [hfront.whole.span_stop hsplit, hahead]
  simp [Token.pieces, Nat.add_assoc]

/-- The end of the last token that was passed is where the reader by offsets looks for comments. -/
theorem prevEnd (h : Stands ls true s c) :
    ∃ stop, Reading.prevEnd (Tape.ofLexemes ls) s = .ok (stop, s) ∧ Reaches ls stop s c := by
  obtain ⟨front, hfront, htight⟩ := h
  rcases List.eq_nil_or_concat front with rfl | ⟨before, l, rfl⟩
  · refine ⟨0, ?_, [], hfront, rfl⟩
    have hpos : s.pos = 0 := hfront.pos
    rw [Reading.prevEnd, if_pos hpos]
  · rw [List.concat_eq_append] at hfront htight
    have hkind : l.kind ≠ .comment := htight rfl l (by simp)
    have hpos : s.pos = (before.filter (·.kind != .comment)).length + 1 := by
      rw [hfront.pos]
      simp [hkind]
    have hget : (Tape.ofLexemes ls).tokens[s.pos - 1]? = some l := by
      rw [hfront.tokens_eq, hpos, Nat.add_sub_cancel]
      simp [hkind]
    refine ⟨l.span.stop, ?_, before ++ [l], hfront, ?_⟩
    · rw [Reading.prevEnd, hget, if_neg (by omega)]
      rfl
    · have hsplit := hfront.split
      rw [List.append_assoc] at hsplit
      rw [hfront.whole.span_stop hsplit]
      simp

theorem advance (h : Stands ls tight s c) :
    Reading.advance (Tape.ofLexemes ls) s = .ok (c.head.toLexeme, { s with pos := s.pos + 1 }) := by
  obtain ⟨front, hfront, -⟩ := id h
  have hlt : s.pos < (Tape.ofLexemes ls).tokens.length := by
    rw [hfront.length_tokens]
    omega
  rw [Reading.advance, h.peek, ok_bind, if_pos hlt]
  rfl

end Stands

/-- A reader by offsets comes to the same as one that goes on from cursor to cursor. It is
refused for the same reason, or it comes to the same value and stands at the same place, of
which more may be known. -/
inductive Tracks {α : Type} {k : Nat} {c : Cursor} (Q : At → Cursor → Prop) :
    Except Halt (α × At) → Except ParseError (Step k α c) → Prop where
  | ok {r : Step k α c} {s : At} (h : Q s r.rest) : Tracks Q (.ok (r.value, s)) (.ok r)
  | refused (e : ParseError) : Tracks Q (.error (.refused e)) (.error e)

namespace Tracks

variable {α β : Type} {t : Tape} {s s' : At} {c c' : Cursor} {k j : Nat} {Q R : At → Cursor → Prop}

theorem pure {st : Step k α c} {a : α} (hvalue : st.value = a) (h : Q s st.rest) :
    Tracks Q ((pure a : Reading α) t s) (.ok st) := by
  rw [← hvalue]
  exact .ok h

theorem refuse (e : ParseError) :
    Tracks Q ((Reading.refuse e : Reading α) t s) (.error e : Except _ (Step k α c)) :=
  .refused e

theorem mono {m : Except Halt (α × At)} {r : Except ParseError (Step k α c)} (h : Tracks Q m r)
    (hQ : ∀ s c, Q s c → R s c) : Tracks R m r := by
  cases h with
  | ok h => exact .ok (hQ _ _ h)
  | refused e => exact .refused e

/-- A step in both, and what follows it. -/
theorem bind {x : Reading α} {f : α → Reading β} {r : Except ParseError (Step k α c)}
    {g : Step k α c → Except ParseError (Step j β c')} (h : Tracks Q (x t s) r)
    (hf : ∀ st s', Q s' st.rest → Tracks R (f st.value t s') (g st)) :
    Tracks R ((x >>= f) t s) (r >>= g) := by
  generalize hx : x t s = m at h
  cases h with
  | @ok st s' h =>
    rw [Reading.bind_of_eq hx]
    exact hf st s' h
  | refused e =>
    rw [Reading.bind_of_error hx]
    exact .refused e

/-- A step of the cursor alone that stays where it is. -/
theorem carry {m : Except Halt (α × At)} {r : Except ParseError (Step k α c)}
    {g : Step k α c → Except ParseError (Step j α c')} (h : Tracks Q m r)
    (hg : ∀ st, ∃ st', g st = .ok st' ∧ st'.value = st.value ∧ st'.rest = st.rest) :
    Tracks Q m (r >>= g) := by
  cases h with
  | @ok st s h =>
    obtain ⟨st', hst', hvalue, hrest⟩ := hg st
    rw [ok_bind, hst', ← hvalue]
    exact .ok (hrest ▸ h)
  | refused e => exact .refused e

theorem exists_ok {m : Except Halt (α × At)} {st : Step k α c} (h : Tracks Q m (.ok st)) :
    ∃ s, m = .ok (st.value, s) ∧ Q s st.rest := by
  cases h with
  | ok h => exact ⟨_, rfl, h⟩

/-- A step that is never refused. -/
theorem step {x : Reading α} {f : α → Reading β} {st : Step k α c}
    {r : Except ParseError (Step j β c')} (h : Tracks Q (x t s) (.ok st))
    (hf : ∀ s', Q s' st.rest → Tracks R (f st.value t s') r) :
    Tracks R ((x >>= f) t s) r := by
  obtain ⟨s', hx, hs'⟩ := h.exists_ok
  rw [Reading.bind_of_eq hx]
  exact hf s' hs'

/-- What is read comes to the same, whatever is made of it. -/
theorem toResult {x : Reading α} {r : Except ParseError (Step k α c)} (h : Tracks Q (x t s) r)
    (f : α → β) :
    Prod.fst <$> (x >>= fun a => Pure.pure (f a)) t s = Halt.ofResult
      (r >>= fun st => .ok (f st.value)) := by
  generalize hx : x t s = m at h
  cases h with
  | ok h =>
    rw [Reading.bind_of_eq hx]
    rfl
  | refused e =>
    rw [Reading.bind_of_error hx]
    rfl

theorem ite {p : Prop} [Decidable p] {x y : Reading α} {r r' : Except ParseError (Step k α c)}
    (hx : p → Tracks Q (x t s) r) (hy : ¬p → Tracks Q (y t s) r') :
    Tracks Q ((if p then x else y) t s) (if p then r else r') := by
  split
  next h => exact hx h
  next h => exact hy h

end Tracks

section Tokens

variable {α β : Type} {ls : List Lexeme} {tight : Bool} {s : At} {c c' : Cursor} {k : Nat}
  {R : At → Cursor → Prop}

theorem Stands.unexpected_eq (h : Stands ls tight s c) (wanted : Expectation) :
    (Reading.unexpected wanted : Reading α) (Tape.ofLexemes ls) s =
      .error (.refused (c.unexpected wanted)) := by
  rw [Reading.unexpected, Reading.bind_of_eq h.peek]
  rfl

theorem Stands.unexpected (h : Stands ls tight s c) (wanted : Expectation)
    {Q : At → Cursor → Prop} :
    Tracks Q ((Reading.unexpected wanted : Reading α) (Tape.ofLexemes ls) s)
      (.error (c.unexpected wanted) : Except _ (Step k α c')) := by
  rw [h.unexpected_eq]
  exact .refused _

/-- A token that is wanted is eaten by both readers or by neither. -/
theorem Stands.eatIf (h : Stands ls tight s c) {p : Lexeme → Bool}
    (hp : ∀ l, l.kind = .eof → p l = false) :
    (c.next?.filter (fun st => p st.value.toLexeme) = none ∧ Reading.eatIf p (Tape.ofLexemes ls) s =
      .ok (none, s)) ∨
      ∃ st, c.next?.filter (fun st => p st.value.toLexeme) = some st ∧
        Reading.eatIf p (Tape.ofLexemes ls) s =
          .ok (some st.value.toLexeme, { s with pos := s.pos + 1 }) ∧
        Stands ls true { s with pos := s.pos + 1 } st.rest ∧
        Reaches ls st.value.span.stop { s with pos := s.pos + 1 } st.rest := by
  cases hnext : c.next? with
  | none =>
    have hnil : c.ahead = [] := by
      unfold Cursor.next? at hnext
      split at hnext
      next => cases hnext
      next hnil => exact hnil
    have hhead := hp _ (h.ahead_eq_nil_iff.1 hnil)
    refine .inl ⟨rfl, ?_⟩
    rw [Reading.eatIf, Reading.bind_of_eq h.peek, hhead]
    rfl
  | some st =>
    obtain ⟨hahead, hrest⟩ := Cursor.next?_eq_some hnext
    have hhead : c.head = st.value := by rw [Cursor.head, hahead]; rfl
    rw [Option.filter_some, Reading.eatIf, Reading.bind_of_eq h.peek, hhead]
    cases hpass : p st.value.toLexeme with
    | false => exact .inl ⟨rfl, rfl⟩
    | true =>
      have hsize : 1 ≤ c.size := by rw [Cursor.size, hahead]; exact Nat.succ_le_succ (Nat.zero_le _)
      have hskip := h.skip hsize Nat.one_pos
      have hreaches := h.reaches_skip hahead
      rw [← hrest] at hskip hreaches
      refine .inr ⟨st, rfl, ?_, hskip, hreaches⟩
      rw [if_pos rfl, Reading.bind_of_eq h.advance, hhead]
      rfl

theorem Stands.of_true (h : Stands ls true s c) : Stands ls tight s c := by
  obtain ⟨front, hfront, htight⟩ := h
  exact ⟨front, hfront, fun _ => htight rfl⟩

theorem Reaches.stands {stop : Nat} (h : Reaches ls stop s c) : Stands ls false s c := by
  obtain ⟨front, hfront, -⟩ := h
  exact ⟨front, hfront, nofun⟩

theorem isWord_of_eof (w : String) (l : Lexeme) (hl : l.kind = .eof) : l.isWord w = false := by
  rw [Lexeme.isWord, hl]
  rfl

namespace Tracks

variable {x y : Reading β} {r : Except ParseError (Step k β c')}

/-- Two ways to go on, as the next token is of a kind or not. -/
theorem eat (h : Stands ls tight s c) {kind : TokenKind} (hkind : kind ≠ .eof)
    (hyes : ∀ st s', c.take? kind = some st → Stands ls true s' st.rest →
      Tracks R (x (Tape.ofLexemes ls) s') r)
    (hno : c.take? kind = none → Tracks R (y (Tape.ofLexemes ls) s) r) :
    Tracks R ((Reading.eat kind >>= fun b => if b = true then x else y) (Tape.ofLexemes ls) s)
      r := by
  rcases h.eatIf (p := (·.kind == kind)) (fun l hl => by simp [hl, hkind.symm]) with
    ⟨hnone, heat⟩ | ⟨st, hsome, heat, hst, -⟩
  · rw [Reading.eat, bind_assoc, Reading.bind_of_eq heat]
    exact hno hnone
  · rw [Reading.eat, bind_assoc, Reading.bind_of_eq heat]
    exact hyes st _ hsome hst

theorem eatWord (h : Stands ls tight s c) {w : String}
    (hyes : ∀ st s', c.takeWord? w = some st → Stands ls true s' st.rest →
      Tracks R (x (Tape.ofLexemes ls) s') r)
    (hno : c.takeWord? w = none → Tracks R (y (Tape.ofLexemes ls) s) r) :
    Tracks R ((Reading.eatWord w >>= fun b => if b = true then x else y) (Tape.ofLexemes ls) s)
      r := by
  rcases h.eatIf (isWord_of_eof w) with ⟨hnone, heat⟩ | ⟨st, hsome, heat, hst, -⟩
  · rw [Reading.eatWord, bind_assoc, Reading.bind_of_eq heat]
    exact hno hnone
  · rw [Reading.eatWord, bind_assoc, Reading.bind_of_eq heat]
    exact hyes st _ hsome hst

/-- A token that must be there, and what follows it. -/
theorem expect (h : Stands ls tight s c) {kind : TokenKind} (hkind : kind ≠ .eof)
    {f : Lexeme → Reading β} {g : Step 1 Token c → Except ParseError (Step k β c')}
    (hf : ∀ st s', Stands ls true s' st.rest → Reaches ls st.value.span.stop s' st.rest →
      Tracks R (f st.value.toLexeme (Tape.ofLexemes ls) s') (g st)) :
    Tracks R ((Reading.expect kind >>= f) (Tape.ofLexemes ls) s) (c.take kind >>= g) := by
  rw [Reading.expect, Reading.expectIf, Cursor.take, bind_assoc]
  rcases h.eatIf (p := (·.kind == kind)) (fun l hl => by simp [hl, hkind.symm]) with
    ⟨hnone, heat⟩ | ⟨st, hsome, heat, hst, hreaches⟩
  · have hnone : c.take? kind = none := hnone
    rw [hnone, Reading.bind_of_eq heat, Reading.bind_of_error (h.unexpected_eq _)]
    exact .refused _
  · have hsome : c.take? kind = some st := hsome
    rw [hsome, Reading.bind_of_eq heat]
    exact hf st _ hst hreaches

theorem expectWord (h : Stands ls tight s c) {w : String} {f : Lexeme → Reading β}
    {g : Step 1 Token c → Except ParseError (Step k β c')}
    (hf : ∀ st s', Stands ls true s' st.rest →
      Tracks R (f st.value.toLexeme (Tape.ofLexemes ls) s') (g st)) :
    Tracks R ((Reading.expectWord w >>= f) (Tape.ofLexemes ls) s) (c.takeWord w >>= g) := by
  rw [Reading.expectWord, Reading.expectIf, Cursor.takeWord, bind_assoc]
  rcases h.eatIf (isWord_of_eof w) with ⟨hnone, heat⟩ | ⟨st, hsome, heat, hst, -⟩
  · have hnone : c.takeWord? w = none := hnone
    rw [hnone, Reading.bind_of_eq heat, Reading.bind_of_error (h.unexpected_eq _)]
    exact .refused _
  · have hsome : c.takeWord? w = some st := hsome
    rw [hsome, Reading.bind_of_eq heat]
    exact hf st _ hst

end Tracks

namespace Stands

/-- A name is read the same by offsets, and its absence is blamed on the same token. -/
theorem expectName (h : Stands ls tight s c) (wanted : Expectation) :
    Tracks (Stands ls true) (Reading.expectName wanted (Tape.ofLexemes ls) s)
      (match c.take? .word with
      | some ⟨t, c', h⟩ => .ok (⟨t.string, c', h⟩ : Step 1 String c)
      | none => .error (c.unexpected wanted)) := by
  rw [Reading.expectName, Reading.expectIf, bind_assoc]
  rcases h.eatIf (p := (·.kind == .word)) (fun l hl => by simp [hl])
    with ⟨hnone, heat⟩ | ⟨st, hsome, heat, hst, -⟩
  · have hnone : c.take? .word = none := hnone
    rw [hnone, Reading.bind_of_eq heat, Reading.bind_of_error (h.unexpected_eq _)]
    exact .refused _
  · have hsome : c.take? .word = some st := hsome
    rw [hsome, Reading.bind_of_eq heat]
    exact .pure (t := Tape.ofLexemes ls) rfl hst

theorem takeName (h : Stands ls tight s c) :
    Tracks (Stands ls true) (Reading.expectName .name (Tape.ofLexemes ls) s) c.takeName :=
  h.expectName .name

theorem takeVariable (h : Stands ls tight s c) :
    Tracks (Stands ls true) (Reading.expectVariable (Tape.ofLexemes ls) s) c.takeVariable := by
  rw [Reading.expectVariable, Reading.expectIf, Cursor.takeVariable, bind_assoc]
  rcases h.eatIf (p := (·.kind == .var)) (fun l hl => by simp [hl])
    with ⟨hnone, heat⟩ | ⟨st, hsome, heat, hst, -⟩
  · have hnone : c.take? .var = none := hnone
    rw [hnone, Reading.bind_of_eq heat, Reading.bind_of_error (h.unexpected_eq _)]
    exact .refused _
  · have hsome : c.take? .var = some st := hsome
    rw [hsome, Reading.bind_of_eq heat]
    exact .pure (t := Tape.ofLexemes ls) rfl hst

theorem accept (h : Stands ls tight s c) {k : TokenKind} (hk : k ≠ .eof) :
    Tracks (Stands ls tight) (Reading.eat k (Tape.ofLexemes ls) s) (.ok (c.accept k)) := by
  rw [Cursor.accept, Reading.eat]
  rcases h.eatIf (p := (·.kind == k)) (fun l hl => by simp [hl, hk.symm]) with
    ⟨hnone, heat⟩ | ⟨st, hsome, heat, hst, -⟩
  · have hnone : c.take? k = none := hnone
    rw [hnone, Reading.bind_of_eq heat]
    exact .pure rfl h
  · have hsome : c.take? k = some st := hsome
    rw [hsome, Reading.bind_of_eq heat]
    exact .pure rfl hst.of_true

end Stands

theorem Stands.kind_eof (h : Stands ls tight s c) : c.eof.kind = .eof := by
  obtain ⟨front, hfront, -⟩ := h
  obtain ⟨mode, hlexed⟩ := hfront.lexed
  exact hlexed.eof

theorem Stands.kind_ne_eof (h : Stands ls tight s c) {t : Token} (ht : t ∈ c.ahead) :
    t.kind ≠ .eof := by
  obtain ⟨front, hfront, -⟩ := h
  have hsplit : ls = (front ++ c.ahead.flatMap Token.pieces) ++ c.eof.pieces := by
    rw [hfront.split, Cursor.pieces, Cursor.tokens]
    simp
  refine hfront.whole.kind_ne_eof_of_mem hsplit (by simp [Token.pieces])
    (List.mem_append_right _ ?_)
  exact List.mem_flatMap.2 ⟨t, ht, by simp [Token.pieces]⟩

/-- The next token, and where a reader stands behind it. -/
theorem Stands.uncons (h : Stands ls tight s c) {t : Token} {ts : List Token}
    (hahead : c.ahead = t :: ts) :
    c.head = t ∧ t.kind ≠ .eof ∧ 1 ≤ c.size ∧ (c.skip 1).ahead = ts ∧
      Stands ls true { s with pos := s.pos + 1 } (c.skip 1) := by
  have hsize : 1 ≤ c.size := by rw [Cursor.size, hahead]; exact Nat.succ_le_succ (Nat.zero_le _)
  refine ⟨?_, h.kind_ne_eof (hahead ▸ List.mem_cons_self), hsize, ?_, h.skip hsize Nat.one_pos⟩
  · rw [Cursor.head, hahead]
    rfl
  · rw [Cursor.skip, hahead]
    rfl

theorem Stands.head_of_nil (h : Stands ls tight s c) (hahead : c.ahead = []) :
    c.head = c.eof ∧ c.head.kind = .eof := by
  refine ⟨?_, h.ahead_eq_nil_iff.1 hahead⟩
  rw [Cursor.head, hahead]
  rfl

theorem Stands.isAt_eof (h : Stands ls tight s c) : c.isAt .eof = c.ahead.isEmpty := by
  rw [Cursor.isAt, Bool.eq_iff_iff, beq_iff_eq, List.isEmpty_iff]
  exact h.ahead_eq_nil_iff.symm

/-- A token is taken by kind if and only if it is the next one. -/
theorem Stands.eat (h : Stands ls tight s c) {kind : TokenKind} (hkind : kind ≠ .eof) :
    Reading.eat kind (Tape.ofLexemes ls) s = .ok (c.ahead.head?.any (·.kind == kind),
      if c.ahead.head?.any (·.kind == kind) then { s with pos := s.pos + 1 } else s) := by
  rw [Reading.eat, Reading.eatIf, bind_assoc, Reading.bind_of_eq h.peek]
  cases hahead : c.ahead with
  | nil =>
    rw [if_neg (by simp [(h.head_of_nil hahead).2, hkind.symm])]
    rfl
  | cons t ts =>
    rw [(h.uncons hahead).1, List.head?_cons, Option.any_some]
    split
    next hyes =>
      rw [bind_assoc, Reading.bind_of_eq h.advance, hyes]
      rfl
    next hno =>
      rw [Bool.eq_false_iff.2 hno]
      rfl

theorem Stands.isAtWord (h : Stands ls tight s c) (w : String) :
    Reading.isAtWord w (Tape.ofLexemes ls) s = .ok (c.isAtWord w, s) := by
  rw [Reading.isAtWord, Reading.bind_of_eq h.peek]
  rfl

/-- Behind all tokens there is the end of the source. -/
theorem Stands.head_skip_of_nil (h : Stands ls tight s c) {i : Nat} (hdrop : c.ahead.drop i = []) :
    (c.skip i).head = c.eof ∧ (c.skip i).head.kind = .eof := by
  have hhead : (c.skip i).head = c.eof := by rw [Cursor.head, Cursor.skip, hdrop]; rfl
  exact ⟨hhead, hhead ▸ h.kind_eof⟩

/-- A token further ahead, and what follows it. -/
theorem Stands.head_skip_of_cons (h : Stands ls tight s c) {i : Nat} {t : Token} {ts : List Token}
    (hdrop : c.ahead.drop i = t :: ts) :
    (c.skip i).head = t ∧ t.kind ≠ .eof ∧ c.ahead.drop (i + 1) = ts ∧
      (c.skip (i + 1)).size < (c.skip i).size := by
  refine ⟨by rw [Cursor.head, Cursor.skip, hdrop]; rfl, ?_, by
    rw [← List.drop_drop, hdrop]; rfl, ?_⟩
  · exact h.kind_ne_eof (List.mem_of_mem_drop (hdrop ▸ List.mem_cons_self))
  · have hlength := congrArg List.length hdrop
    rw [List.length_drop, List.length_cons] at hlength
    rw [Cursor.size_skip, Cursor.size_skip, Cursor.size]
    omega

end Tokens

section Trivia

variable {ls front : List Lexeme} {stop : Nat} {s : At} {c : Cursor}

theorem Cursor.pieces_head (c : Cursor) :
    ∃ back, c.pieces = c.head.comments ++ c.head.toLexeme :: back := by
  obtain ⟨ahead, eof⟩ := c
  cases ahead with
  | nil => exact ⟨[], pieces_of_nil rfl⟩
  | cons t ts => exact ⟨_, pieces_push t ts eof⟩

namespace Splits

theorem kind_head (h : Splits ls front s c) : c.head.kind ≠ .comment := by
  obtain ⟨mode, hlexed⟩ := h.lexed
  refine hlexed.tokens.kind_ne ?_
  obtain ⟨ahead, eof⟩ := c
  cases ahead <;> simp [Cursor.tokens, Cursor.head]

theorem kind_comments (h : Splits ls front s c) : ∀ l ∈ c.head.comments, l.kind = .comment := by
  obtain ⟨mode, hlexed⟩ := h.lexed
  exact hlexed.comments

/-- The text of a comment is the same by offsets. -/
theorem commentText (h : Splits ls front s c) {l : Lexeme} (hl : l ∈ ls) (hkind : l.kind = .comment)
    (s' : At) :
    Reading.commentText l (Tape.ofLexemes ls) s' = .ok (l.commentText, s') := by
  obtain ⟨a, b, hls⟩ := List.append_of_mem hl
  have hb : b ≠ [] := by
    rintro rfl
    rcases (h.whole.head hls).2 with ⟨heof, -⟩ | ⟨-, -, hne⟩
    · rw [hkind] at heof
      cases heof
    · exact hne rfl
  have hls' : ls = a ++ ([l] ++ b) := hls
  have hexcerpt := excerpt?_eq h.whole hls' hb
  have hstop : extent (a ++ [l]) = l.span.stop := by
    rw [h.whole.span_stop hls]
    simp
  rw [hstop] at hexcerpt
  exact Reading.excerptBetween_eq hexcerpt s'

theorem commentTexts (h : Splits ls front s c) {xs : List Lexeme}
    (hxs : ∀ l ∈ xs, l ∈ ls ∧ l.kind = .comment) (s' : At) :
    xs.mapM Reading.commentText (Tape.ofLexemes ls) s' = .ok (Expr.commentTexts xs, s') := by
  induction xs with
  | nil => rfl
  | cons l xs ih =>
    obtain ⟨hl, hxs⟩ := List.forall_mem_cons.1 hxs
    rw [List.mapM_cons, Reading.bind_of_eq (h.commentText hl.1 hl.2 s'),
      Reading.bind_of_eq (ih hxs)]
    rfl

end Splits

theorem Splits.mem_head (h : Splits ls front s c) : c.head.toLexeme ∈ ls := by
  obtain ⟨back, hpieces⟩ := c.pieces_head
  rw [h.split, hpieces]
  simp

namespace Reaches

theorem commentsBetween (h : Reaches ls stop s c) (s' : At) :
    Reading.commentsBetween stop c.head.span.start (Tape.ofLexemes ls) s' =
      .ok (c.head.comments, s') := by
  obtain ⟨front, hfront, rfl⟩ := h
  obtain ⟨back, hpieces⟩ := c.pieces_head
  have hcomments : c.head.comments.filter (·.kind == .comment) = c.head.comments :=
    List.filter_eq_self.2 fun l hl => by simp [hfront.kind_comments l hl]
  have hbetween := commentsBetween?_eq hfront.whole (hpieces ▸ hfront.split) hfront.kind_head
  rw [hcomments] at hbetween
  exact Reading.lookup_eq hbetween s'

/-- Whether the next token begins on another line than that on which what was read ends. -/
theorem hasNewline (h : Reaches ls stop s c) (s' : At) :
    Reading.hasNewline stop c.head.span.start (Tape.ofLexemes ls) s' =
      .ok (c.head.isOnNewLine, s') := by
  obtain ⟨front, hfront, rfl⟩ := h
  obtain ⟨back, hpieces⟩ := c.pieces_head
  have hnewlines := newlines?_before hfront.whole (hpieces ▸ hfront.split)
  have hcontains : decide (0 < (c.head.comments.flatMap Lexeme.source ++ c.head.gap).count '\n') =
      c.head.isOnNewLine := by
    rw [Token.isOnNewLine, Lexeme.isOnNewLine, Bool.eq_iff_iff, decide_eq_true_eq,
      List.count_pos_iff, List.mem_append, List.mem_flatMap]
    simp [or_comm]
  rw [← hcontains]
  exact Reading.hasNewline_eq hnewlines s'

theorem mem_comments (h : Reaches ls stop s c) :
    ∀ l ∈ c.head.comments, l ∈ ls ∧ l.kind = .comment := by
  obtain ⟨front, hfront, rfl⟩ := h
  obtain ⟨back, hpieces⟩ := c.pieces_head
  refine fun l hl => ⟨?_, hfront.kind_comments l hl⟩
  rw [hfront.split, hpieces]
  exact List.mem_append_right _ (List.mem_append_left _ hl)

/-- The newlines before what comes next in the source, a comment or the token. -/
theorem newlines?_first (h : Reaches ls stop s c) :
    (Tape.ofLexemes ls).newlines? stop c.head.first.span.start =
      some (c.head.first.gap.count '\n') := by
  obtain ⟨front, hfront, rfl⟩ := h
  obtain ⟨back, hpieces⟩ := c.pieces_head
  have hfirst : ∃ back', ls = front ++ ([] ++ c.head.first :: back') := by
    rw [hfront.split, hpieces, Token.first]
    cases c.head.comments with
    | nil => exact ⟨back, rfl⟩
    | cons l comments => exact ⟨comments ++ c.head.toLexeme :: back, rfl⟩
  obtain ⟨back', hls⟩ := hfirst
  exact newlines?_before hfront.whole hls

end Reaches

/-- Where the comments before the next token begin, or the token if there are none. -/
theorem Token.start_first (t : Token) :
    (t.comments.head?.map (·.span.start)).getD t.span.start = t.first.span.start := by
  rw [Token.first]
  cases t.comments <;> rfl

theorem Marked.leadingTrivia (h : Marked ls s c) :
    Reading.leadingTrivia (Tape.ofLexemes ls) s = .ok (c.leadingTrivia, s) := by
  have hblank := Reading.hasBlankLine_eq h.newlines?_first s
  obtain ⟨front, hfront, -⟩ := id h
  rw [Reading.leadingTrivia, Reading.bind_of_eq hfront.peek, Reading.lastEnd_bind,
    Reading.bind_of_eq (h.commentsBetween s)]
  dsimp only
  rw [Token.start_first, Reading.bind_of_eq (hfront.commentTexts h.mem_comments s),
    Reading.bind_of_eq hblank]
  rfl

/-- Where statements have been read to does not change the place. -/
theorem Splits.of_pos (h : Splits ls front s c) {s' : At} (hs : s'.pos = s.pos) :
    Splits ls front s' c :=
  ⟨h.whole, h.split, hs.trans h.pos, h.lexed⟩

theorem Stands.of_pos {tight : Bool} (h : Stands ls tight s c) {s' : At} (hs : s'.pos = s.pos) :
    Stands ls tight s' c := by
  obtain ⟨front, hfront, htight⟩ := h
  exact ⟨front, hfront.of_pos hs, htight⟩

theorem Reaches.of_pos (h : Reaches ls stop s c) {s' : At} (hs : s'.pos = s.pos) :
    Reaches ls stop s' c := by
  obtain ⟨front, hfront, hstop⟩ := h
  exact ⟨front, hfront.of_pos hs, hstop⟩

/-- Behind comments, which are taken off the next token. -/
theorem Splits.comments (h : Splits ls front s c) {comments : List Lexeme}
    {c' : Cursor} {mode : Mode} (hpieces : c.pieces = comments ++ c'.pieces)
    (hkind : ∀ l ∈ comments, l.kind = .comment) (hlexed : c'.IsLexed mode) :
    Splits ls (front ++ comments) s c' := by
  have hnone : comments.filter (·.kind != .comment) = [] :=
    List.filter_eq_nil_iff.2 fun l hl => by simp [hkind l hl]
  refine ⟨h.whole, ?_, ?_, mode, hlexed⟩
  · rw [h.split, hpieces, List.append_assoc]
  · rw [h.pos, List.filter_append, hnone, List.append_nil]

/-- A comment on the same line is found the same by offsets. -/
theorem Reaches.sameLineComment (h : Reaches ls stop s c) :
    Reading.sameLineComment stop (Tape.ofLexemes ls) s = .ok (c.sameLineComment.value, s) ∧
      Reaches ls ((c.sameLineComment.value.map (·.span.stop)).getD stop) s
        c.sameLineComment.rest := by
  obtain ⟨front, hfront, hstop⟩ := id h
  constructor
  · have hnewlines := h.newlines?_first
    rw [Reading.sameLineComment, Reading.bind_of_eq hfront.peek,
      Reading.bind_of_eq (h.commentsBetween s)]
    rw [Token.first] at hnewlines
    unfold Cursor.sameLineComment
    cases hcomments : c.head.comments with
    | nil => rfl
    | cons l comments =>
      rw [hcomments] at hnewlines
      have hcontains : decide (0 < l.gap.count '\n') = l.isOnNewLine := by
        rw [Lexeme.isOnNewLine, Bool.eq_iff_iff, decide_eq_true_eq, List.count_pos_iff,
          List.contains_iff_mem]
      rw [List.headD_cons] at hnewlines
      dsimp only
      rw [Reading.bind_of_eq (Reading.hasNewline_eq hnewlines s), hcontains]
      cases l.isOnNewLine <;> rfl
  · obtain ⟨mode, hlexed⟩ := hfront.lexed
    obtain ⟨hpieces, hkind, hlexed'⟩ := hlexed.sameLineComment
    refine ⟨_, hfront.comments hpieces (by simpa using hkind) hlexed', ?_⟩
    have hsplit := hfront.split
    rw [hpieces] at hsplit
    cases hvalue : c.sameLineComment.value with
    | none => rw [hstop]; simp
    | some l =>
      rw [hvalue] at hsplit
      rw [Option.map_some, Option.getD_some, hfront.whole.span_stop hsplit]
      simp

theorem Reaches.commentText (h : Reaches ls stop s c) {l : Lexeme}
    (hl : l ∈ c.sameLineComment.value) (s' : At) :
    Reading.commentText l (Tape.ofLexemes ls) s' = .ok (l.commentText, s') := by
  obtain ⟨front, hfront, -⟩ := h
  obtain ⟨mode, hlexed⟩ := hfront.lexed
  obtain ⟨hpieces, hkind, -⟩ := hlexed.sameLineComment
  refine hfront.commentText ?_ (hkind l hl) s'
  rw [hfront.split, hpieces, Option.mem_def.1 hl]
  simp

/-- The text of the comment on the same line, if there is one. -/
theorem Reaches.trailingText (h : Reaches ls stop s c) (s' : At) :
    c.sameLineComment.value.mapM Reading.commentText (Tape.ofLexemes ls) s' =
      .ok (c.sameLineComment.value.map Lexeme.commentText, s') := by
  cases hvalue : c.sameLineComment.value with
  | none => rfl
  | some l =>
    rw [Option.mapM_some, ← bind_pure_comp, Reading.bind_of_eq (h.commentText hvalue s')]
    rfl

/-- A statement is closed, with the comment behind it. -/
theorem Stands.finish (h : Stands ls true s c) (trivia : Trivia) :
    Tracks (Marked ls) (Reading.finish trivia (Tape.ofLexemes ls) s) (.ok (c.finish trivia)) := by
  obtain ⟨stop, hprev, hreaches⟩ := h.prevEnd
  have hmarked : Reaches ls stop { s with lastEnd := stop } c := hreaches.of_pos rfl
  obtain ⟨hcomment, hbehind⟩ := hmarked.sameLineComment
  have hfinish : c.finish trivia =
      ⟨{ trivia with trailing := c.sameLineComment.value.map Lexeme.commentText },
    c.sameLineComment.rest, c.sameLineComment.progress⟩ := rfl
  rw [Reading.finish, Reading.bind_of_eq hprev, Reading.setEnd_bind, Reading.bind_of_eq hcomment,
    hfinish]
  cases hvalue : c.sameLineComment.value with
  | none =>
    rw [hvalue] at hbehind
    exact .pure (t := Tape.ofLexemes ls) rfl hbehind
  | some l =>
    rw [hvalue] at hbehind
    dsimp only
    rw [Reading.bind_of_eq (hmarked.commentText hvalue _), Reading.setEnd_bind]
    exact .pure (t := Tape.ofLexemes ls) rfl (hbehind.of_pos rfl)

/-- The comments since an offset, of which some may stand before tokens that have been taken
since. -/
theorem Splits.closingComments {mid : List Lexeme} (h : Splits ls (front ++ mid) s c)
    (hlast : s.lastEnd = extent front) {comments : List Lexeme}
    (hcomments : (mid ++ c.head.comments).filter (·.kind == .comment) = comments) :
    Reading.closingComments (Tape.ofLexemes ls) s =
      .ok (Expr.commentTexts comments,
        { s with lastEnd := (comments.getLast?.map (·.span.stop)).getD s.lastEnd }) := by
  obtain ⟨back, hpieces⟩ := c.pieces_head
  have hsplit : ls = front ++ ((mid ++ c.head.comments) ++ c.head.toLexeme :: back) := by
    rw [h.split, hpieces]
    simp
  have hbetween := commentsBetween?_eq h.whole hsplit h.kind_head
  rw [hcomments, ← hlast] at hbetween
  have hmem (l : Lexeme) (hl : l ∈ comments) : l ∈ ls ∧ l.kind = .comment := by
    rw [← hcomments] at hl
    obtain ⟨hl, hkind⟩ := List.mem_filter.1 hl
    refine ⟨?_, eq_of_beq hkind⟩
    rw [hsplit]
    exact List.mem_append_right _ (List.mem_append_left _ hl)
  have hfound : Reading.commentsBetween s.lastEnd c.head.span.start (Tape.ofLexemes ls) s =
      .ok (comments, s) :=
    Reading.lookup_eq hbetween s
  rw [Reading.closingComments, Reading.bind_of_eq h.peek, Reading.lastEnd_bind,
    Reading.bind_of_eq hfound, Reading.bind_of_eq (h.commentTexts hmem s)]
  cases comments.getLast? <;> rfl

/-- Behind all comments before the next token. -/
theorem Reaches.commentsEnd (h : Reaches ls stop s c) :
    Reaches ls ((c.head.comments.getLast?.map (·.span.stop)).getD stop) s (c.withComments []) := by
  obtain ⟨front, hfront, hstop⟩ := h
  obtain ⟨mode, hlexed⟩ := hfront.lexed
  have hpieces := Cursor.pieces_withComments (List.append_nil c.head.comments).symm
  refine ⟨_, hfront.comments hpieces hfront.kind_comments (hlexed.withComments (by simp)), ?_⟩
  rcases List.eq_nil_or_concat c.head.comments with hnil | ⟨before, l, hconcat⟩
  · rw [hnil]
    simpa using hstop
  · have hsplit := hfront.split
    rw [hpieces, hconcat, List.concat_eq_append, List.append_assoc, List.singleton_append,
      ← List.append_assoc] at hsplit
    rw [hconcat, List.concat_eq_append, List.getLast?_concat, Option.map_some, Option.getD_some,
      hfront.whole.span_stop hsplit]
    simp [Nat.add_assoc]

/-- The comments behind the last statement, which have been read then. -/
theorem Marked.closingComments (h : Marked ls s c) :
    ∃ s', s'.pos = s.pos ∧ Marked ls s' (c.withComments []) ∧
    Reading.closingComments (Tape.ofLexemes ls) s =
      .ok (Expr.commentTexts c.head.comments, s') := by
  obtain ⟨front, hfront, hlast⟩ := id h
  have hfront' : Splits ls (front ++ []) s c := by rwa [List.append_nil]
  have hfilter : (([] : List Lexeme) ++ c.head.comments).filter (·.kind == .comment) =
      c.head.comments :=
    List.filter_eq_self.2 fun l hl => by simp [hfront.kind_comments l hl]
  exact ⟨{ s with lastEnd := (c.head.comments.getLast?.map (·.span.stop)).getD s.lastEnd }, rfl,
    h.commentsEnd.of_pos rfl, hfront'.closingComments hlast hfilter⟩

end Trivia

end ClassEdit
