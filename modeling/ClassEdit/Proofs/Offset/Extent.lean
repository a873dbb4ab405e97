import ClassEdit.Proofs.Fragment.Reads
import ClassEdit.Proofs.Fragment.Parts
import ClassEdit.Proofs.Offset.Standing

/-!
How far a statement goes, token by token. Every loop has a bound on its rounds, and each of them
ends at the end of the source. Main statements: with a round for each token that is left and one for
the end, groups, attributes and statements take as many tokens as are counted ahead of a cursor.
-/

namespace ClassEdit

open Lexeme (extent)

namespace Reading

/-- Takes the tokens up to the one that closes the bracket opened last but for those around
it, the innermost first. -/
def groupRest : Nat → TokenKind → List TokenKind → Reading Unit
  | 0, _, _ => exhausted
  | n + 1, closer, outer => do
    let l ← advance
    if l.kind = .eof then refuse ⟨.ended .closingBracket, l.span⟩
    else
      match l.kind.closer? with
      | some inner => groupRest n inner (closer :: outer)
      | none =>
        if !l.kind.isCloser then groupRest n closer outer
        else if l.kind ≠ closer then refuse (.unbalanced (.kind closer) l)
        else
          match outer with
          | [] => return ()
          | o :: os => groupRest n o os

/-- Takes the next token, and if it opens a group, the tokens of the group. -/
def group (n : Nat) : Reading Unit := do
  match (← advance).kind.closer? with
  | some closer => groupRest n closer []
  | none => return ()

/-- The number of the token behind the attribute groups ahead, none if a group is open at the
end. -/
def pastAttributes : Nat → Nat → Nat → Reading (Option Nat)
  | 0, _, _ => exhausted
  | n + 1, 0, i => do
    if (← peekAt i).kind = .attributeOpen then pastAttributes n 1 (i + 1) else return some i
  | n + 1, d + 1, i => do
    let kind := (← peekAt i).kind
    if kind = .eof then return none
    else if kind.closer?.isSome then pastAttributes n (d + 2) (i + 1)
    else if kind.isCloser then pastAttributes n d (i + 1)
    else pastAttributes n (d + 1) (i + 1)

def beginsCompound (i : Nat) : Reading Bool := do
  let first ← peekAt i
  let second ← peekAt (i + 1)
  return Extent.beginsCompound (if first.kind = .eof then [] else Token.bare first ::
    if second.kind = .eof then [] else [Token.bare second])

def shape (n : Nat) : Reading Extent.Shape := do
  let isDo ← isAtWord "do"
  match ← pastAttributes n 0 0 with
  | some i => return ⟨← beginsCompound i, isDo⟩
  | none => return ⟨false, isDo⟩

def continues (shape : Extent.Shape) : Reading Bool := do
  return Extent.continues shape [Token.bare (← peek)]

/-- Takes the tokens of a statement, given the closers of the brackets open so far, the number of
blocks open behind a colon, and whether the next word is a name. -/
def statementRest (shape : Extent.Shape) : Nat → List TokenKind → Nat → Bool → Reading Unit
  | 0, _, _, _ => exhausted
  | n + 1, closers, blocks, isName => do
    let l ← peek
    let outermost := closers.isEmpty && blocks == 0
    if l.kind = .eof then refuse ⟨.ended (.kind (closers.headD .semicolon)), l.span⟩
    else
      match l.kind.closer? with
      | some closer =>
        let _ ← advance
        statementRest shape n (closer :: closers) blocks false
      | none =>
        if l.kind.isCloser then
          match closers with
          | [] => refuse (.unexpected (.kind .semicolon) l)
          | closer :: outer =>
            if l.kind ≠ closer then refuse (.unbalanced (.kind closer) l)
            else
              let _ ← advance
              let goesOn ← continues shape
              if shape.isCompound && outer.isEmpty && blocks == 0 && l.kind == .rightBrace &&
                !goesOn then return ()
              else statementRest shape n outer blocks false
        else if l.kind == .semicolon && outermost then
          let _ ← advance
          let goesOn ← continues shape
          if shape.isCompound && goesOn then statementRest shape n closers blocks false
            else return ()
        else if l.kind == .closeTag && outermost then return ()
        else
          let next ← peekAt 1
          if closers.isEmpty && l.isAnyWord Extent.headers && !isName &&
            next.kind == .leftParen then
            let _ ← advance
            group n
            if ← eat .colon then statementRest shape n closers (blocks + 1) false
            else statementRest shape n closers blocks false
          else if closers.isEmpty && l.isAnyWord Extent.endings then
            let _ ← advance
            statementRest shape n closers (blocks - 1) (Extent.namesNext (Token.bare l))
          else
            let _ ← advance
            statementRest shape n closers blocks (Extent.namesNext (Token.bare l))

def outside : Nat → Reading Unit
  | 0 => exhausted
  | n + 1 => do
    if Extent.isOutside (Token.bare (← peek)) then
      let _ ← advance
      outside n
    else return ()

def statement (n : Nat) : Reading Unit := do
  if Extent.isOutside (Token.bare (← peek)) then outside n
  else
    let shape ← shape n
    statementRest shape n [] 0 false

/-- The text of the tokens that a reader takes. -/
def textOf (x : Reading Unit) : Reading String := do
  let start := (← peek).span.start
  x
  let stop ← prevEnd
  excerptBetween start stop

/-- Attribute groups, each as text. -/
def attributes : Nat → Reading (List String)
  | 0 => exhausted
  | n + 1 => do
    if ← isAt .attributeOpen then
      let text ← textOf (group n)
      return text :: (← attributes n)
    else return []

end Reading

/-- Tokens are taken one by one, as many as were counted ahead. -/
inductive Counts (s : At) (c : Cursor) :
    Except Halt (Unit × At) → Except ParseError Nat → Prop where
  | ok {n : Nat} (hn : n ≤ c.size) : Counts s c (.ok ((), { s with pos := s.pos + n })) (.ok n)
  | refused (e : ParseError) : Counts s c (.error (.refused e)) (.error e)

/-- Tokens are taken one by one, at least one of them, and a step on the cursor takes the same. -/
inductive Takes (s : At) (c : Cursor) :
    Except Halt (Unit × At) → Except ParseError (Step 1 (List Token) c) → Prop where
  | ok {n : Nat} {st : Step 1 (List Token) c} (hn : n ≤ c.size) (hpos : 0 < n)
      (hvalue : st.value = c.ahead.take n) (hrest : st.rest = c.skip n) :
      Takes s c (.ok ((), { s with pos := s.pos + n })) (.ok st)
  | refused (e : ParseError) : Takes s c (.error (.refused e)) (.error e)

section Counting

variable {ls : List Lexeme} {tight : Bool} {s : At} {c : Cursor} {n : Nat}

/-- Some tokens that have been taken before are counted too. -/
theorem Counts.add {m : Except Halt (Unit × At)} {r : Except ParseError Nat}
    {k : Nat} (hk : k ≤ c.size) (h : Counts { s with pos := s.pos + k } (c.skip k) m r) :
    Counts s c m ((· + k) <$> r) := by
  cases h with
  | @ok n hn =>
    rw [Cursor.size_skip] at hn
    have hstate : ({ s with pos := s.pos + k + n } : At) = { s with pos := s.pos + (n + k) } := by
      rw [Nat.add_assoc, Nat.add_comm k n]
    rw [hstate]
    exact .ok (by omega)
  | refused e => exact .refused e

theorem Counts.eq_error {m : Except Halt (Unit × At)} {e : ParseError}
    (h : Counts s c m (.error e)) :
    m = .error (.refused e) := by
  cases h
  rfl

theorem Counts.eq_ok {m : Except Halt (Unit × At)} {k : Nat} (h : Counts s c m (.ok k)) :
    m = .ok ((), { s with pos := s.pos + k }) ∧ k ≤ c.size := by
  cases h with
  | ok hk => exact ⟨rfl, hk⟩

/-- The tokens of a group are counted the same by offsets. -/
theorem Stands.groupRest (h : Stands ls tight s c) (hn : c.size < n) (closer : TokenKind)
    (outer : List TokenKind) :
    Counts s c (Reading.groupRest n closer outer (Tape.ofLexemes ls) s)
      (Extent.groupRest c.eof closer outer c.ahead) := by
  induction n generalizing tight s c closer outer with
  | zero => cases hn
  | succ n ih =>
    rw [Reading.groupRest.eq_def]
    dsimp only
    rw [Reading.bind_of_eq h.advance]
    cases hahead : c.ahead with
    | nil =>
      obtain ⟨hhead, hkind⟩ := h.head_of_nil hahead
      rw [if_pos hkind, hhead]
      exact .refused _
    | cons t ts =>
      obtain ⟨hhead, hkind, hsize, hbehind, hskip⟩ := h.uncons hahead
      have hrest := fun closer outer =>
        Counts.add hsize (ih hskip (by rw [Cursor.size_skip]; omega) closer outer)
      rw [hbehind] at hrest
      rw [hhead, if_neg hkind, Extent.groupRest.eq_def]
      dsimp only
      cases hopen : t.kind.closer? with
      | some inner => exact hrest inner (closer :: outer)
      | none =>
        dsimp only
        split
        next => exact hrest closer outer
        next =>
          split
          next => exact .refused _
          next =>
            cases outer with
            | nil => exact .ok hsize
            | cons o os => exact hrest o os

/-- Attributes are passed over the same by offsets. -/
theorem Stands.pastAttributes (h : Stands ls tight s c) (depth : Nat) {i : Nat}
    (hn : (c.skip i).size < n) :
    ∃ o, Reading.pastAttributes n depth i (Tape.ofLexemes ls) s = .ok (o, s) ∧
      Extent.pastAttributes depth (c.ahead.drop i) = o.map (c.ahead.drop ·) := by
  induction n generalizing depth i with
  | zero => cases hn
  | succ n ih =>
    have hpeek := h.peekAt i
    cases hdrop : c.ahead.drop i with
    | nil =>
      have heof := (h.head_skip_of_nil hdrop).2
      cases depth with
      | zero =>
        refine ⟨some i, ?_, by rw [Option.map_some, hdrop]; rfl⟩
        rw [Reading.pastAttributes, Reading.bind_of_eq hpeek, if_neg (by rw [heof]; decide)]
        rfl
      | succ depth =>
        refine ⟨none, ?_, rfl⟩
        rw [Reading.pastAttributes, Reading.bind_of_eq hpeek, if_pos heof]
        rfl
    | cons t ts =>
      obtain ⟨hhead, hkind, hbehind, hsize⟩ := h.head_skip_of_cons hdrop
      have hrest := fun depth => ih depth (Nat.lt_of_lt_of_le hsize (Nat.lt_succ_iff.1 hn))
      rw [hbehind] at hrest
      rw [hhead] at hpeek
      cases depth with
      | zero =>
        rw [Reading.pastAttributes, Reading.bind_of_eq hpeek, Extent.pastAttributes]
        by_cases hopen : t.kind = .attributeOpen
        · rw [if_pos hopen, if_pos hopen]
          exact hrest 1
        · rw [if_neg hopen, if_neg hopen]
          exact ⟨some i, rfl, by rw [Option.map_some, hdrop]⟩
      | succ depth =>
        rw [Reading.pastAttributes, Reading.bind_of_eq hpeek, Extent.pastAttributes, if_neg hkind]
        split
        next => exact hrest (depth + 2)
        next =>
          split
          next => exact hrest depth
          next => exact hrest (depth + 1)

/-- What begins with a token can end with a block by number as it can by token. -/
theorem Stands.beginsCompound (h : Stands ls tight s c) (i : Nat) :
    Reading.beginsCompound i (Tape.ofLexemes ls) s =
      .ok (Extent.beginsCompound (c.ahead.drop i), s) := by
  rw [Reading.beginsCompound, Reading.bind_of_eq (h.peekAt i),
    Reading.bind_of_eq (h.peekAt (i + 1))]
  cases hdrop : c.ahead.drop i with
  | nil =>
    rw [if_pos (h.head_skip_of_nil hdrop).2]
    rfl
  | cons t ts =>
    obtain ⟨hhead, hkind, hbehind, -⟩ := h.head_skip_of_cons hdrop
    rw [hhead, if_neg hkind]
    cases ts with
    | nil =>
      rw [if_pos (h.head_skip_of_nil hbehind).2]
      rfl
    | cons u us =>
      obtain ⟨hsecond, hkind', -, -⟩ := h.head_skip_of_cons hbehind
      rw [hsecond, if_neg hkind']
      rfl

/-- What a statement begins with is told the same by offsets. -/
theorem Stands.shape (h : Stands ls tight s c) (hn : c.size < n) :
    Reading.shape n (Tape.ofLexemes ls) s = .ok (Extent.shapeOf c.ahead, s) := by
  have hdo : c.isAtWord "do" = c.ahead.head?.any (·.isWord "do") := by
    cases hahead : c.ahead with
    | nil => exact isWord_of_eof _ _ (h.head_of_nil hahead).2
    | cons t ts => rw [Cursor.isAtWord, (h.uncons hahead).1]; rfl
  obtain ⟨o, hpast, hmodel⟩ := h.pastAttributes 0 (i := 0) hn
  rw [List.drop_zero] at hmodel
  rw [Reading.shape, Reading.bind_of_eq (h.isAtWord "do"), Reading.bind_of_eq hpast,
    Extent.shapeOf, hmodel, hdo]
  cases o with
  | none => rfl
  | some i =>
    dsimp only
    rw [Reading.bind_of_eq (h.beginsCompound i)]
    rfl

/-- Whether a statement goes on is told the same by offsets. -/
theorem Stands.continues (h : Stands ls tight s c) (shape : Extent.Shape) :
    Reading.continues shape (Tape.ofLexemes ls) s = .ok (Extent.continues shape c.ahead, s) := by
  rw [Reading.continues, Reading.bind_of_eq h.peek]
  cases hahead : c.ahead with
  | nil =>
    have hword (w : String) : c.head.isWord w = false := isWord_of_eof w _ (h.head_of_nil hahead).2
    have hfalse : Extent.continues shape [Token.bare c.head.toLexeme] = false := by
      simp [Extent.continues, Lexeme.isAnyWord, hword]
    rw [hfalse]
    rfl
  | cons t ts =>
    rw [(h.uncons hahead).1]
    rfl

theorem Stands.group (h : Stands ls tight s c) (hn : c.size ≤ n) {t : Token} {ts : List Token}
    (hahead : c.ahead = t :: ts) {closer : TokenKind} (hopen : t.kind.closer? = some closer) :
    Counts s c (Reading.group n (Tape.ofLexemes ls) s)
      ((· + 1) <$> Extent.groupRest c.eof closer [] ts) := by
  obtain ⟨hhead, -, hsize, hbehind, hskip⟩ := h.uncons hahead
  have hrest := hskip.groupRest (n := n) (by rw [Cursor.size_skip]; omega) closer []
  rw [hbehind] at hrest
  rw [Reading.group, Reading.bind_of_eq h.advance, hhead, hopen]
  exact hrest.add hsize

/-- The group behind a word that begins a header. -/
theorem Stands.headerGroup (h : Stands ls tight s c) (hn : c.size ≤ n + 1)
    {t u : Token} {us : List Token} (hahead : c.ahead = t :: u :: us)
    (hparen : u.kind = .leftParen) :
    (∃ e, Extent.groupRest c.eof .rightParen [] us = .error e ∧
      Reading.group n (Tape.ofLexemes ls) { s with pos := s.pos + 1 } = .error (.refused e)) ∨
    ∃ k, Extent.groupRest c.eof .rightParen [] us = .ok k ∧ k + 2 ≤ c.size ∧
      Reading.group n (Tape.ofLexemes ls) { s with pos := s.pos + 1 } =
        .ok ((), { s with pos := s.pos + (k + 2) }) := by
  obtain ⟨-, -, hsize, hbehind, hskip⟩ := h.uncons hahead
  have hcloser : u.kind.closer? = some .rightParen := by rw [hparen]; rfl
  have hgroup := hskip.group (n := n) (by rw [Cursor.size_skip]; omega) hbehind hcloser
  have heof : (c.skip 1).eof = c.eof := rfl
  rw [heof] at hgroup
  cases hmodel : Extent.groupRest c.eof .rightParen [] us with
  | error e =>
    rw [hmodel] at hgroup
    exact .inl ⟨e, rfl, hgroup.eq_error⟩
  | ok k =>
    rw [hmodel] at hgroup
    obtain ⟨hgroup, hk⟩ := hgroup.eq_ok
    have hk : k + 1 ≤ c.size - 1 := by rwa [Cursor.size_skip] at hk
    have hpos : s.pos + 1 + (k + 1) = s.pos + (k + 2) := by omega
    refine .inr ⟨k, rfl, by omega, ?_⟩
    rw [hgroup]
    dsimp only
    rw [hpos]

/-- A header goes on behind its group, and behind the colon there if a block follows. -/
theorem Stands.header (h : Stands ls tight s c) (hn : c.size ≤ n + 1) {t : Token} {ts : List Token}
    (hahead : c.ahead = t :: ts) (hparen : ts.head?.any (·.kind == .leftParen) = true)
    {block line : Reading Unit} {blockRest lineRest : List Token → Except ParseError Nat}
    (hblock : ∀ j ≤ c.size, 0 < j →
      Counts s c (block (Tape.ofLexemes ls) { s with pos := s.pos + j })
      ((· + j) <$> blockRest (c.ahead.drop j)))
    (hline : ∀ j ≤ c.size, 0 < j → Counts s c (line (Tape.ofLexemes ls) { s with pos := s.pos + j })
      ((· + j) <$> lineRest (c.ahead.drop j))) :
    Counts s c
      ((Reading.group n >>= fun _ => Reading.eat .colon >>= fun isBlock => if isBlock
        then block else line)
        (Tape.ofLexemes ls) { s with pos := s.pos + 1 })
      (Extent.groupRest c.eof .rightParen [] ts.tail >>= fun k =>
        if (ts.drop (k + 1)).head?.any (·.kind == .colon)
          then (· + (k + 3)) <$> blockRest (ts.drop (k + 2))
        else (· + (k + 2)) <$> lineRest (ts.drop (k + 1))) := by
  obtain ⟨u, us, rfl⟩ : ∃ u us, ts = u :: us := by
    cases ts with
    | nil => cases hparen
    | cons u us => exact ⟨u, us, rfl⟩
  rw [List.tail_cons]
  rcases h.headerGroup hn hahead (eq_of_beq hparen)
    with ⟨e, hmodel, hgroup⟩ | ⟨k, hmodel, hk, hgroup⟩
  · rw [hmodel, Reading.bind_of_error hgroup]
    exact .refused e
  · have hdrop (j : Nat) : c.ahead.drop (j + 1) = (u :: us).drop j := by rw [hahead]; rfl
    have hbehind : (c.skip (k + 2)).ahead = c.ahead.drop (k + 2) := rfl
    have hcolon : TokenKind.colon ≠ .eof := by decide
    have heat := (h.skip hk (Nat.succ_pos _)).eat hcolon
    rw [hbehind] at heat
    rw [hmodel, ok_bind, Reading.bind_of_eq hgroup, Reading.bind_of_eq heat, ←
      hdrop (k + 1), ← hdrop (k + 2)]
    dsimp only
    split
    next hyes =>
      have hne : c.ahead.drop (k + 2) ≠ [] := by
        intro hnil
        rw [hnil] at hyes
        cases hyes
      have hlt : k + 2 < c.ahead.length := Nat.lt_of_not_le (mt List.drop_eq_nil_of_le hne)
      exact hblock (k + 3) hlt (Nat.succ_pos _)
    next => exact hline (k + 2) hk (Nat.succ_pos _)

/-- The tokens of a statement are counted the same by offsets, in every state of the scan. -/
theorem Stands.statementRest (h : Stands ls tight s c) (hn : c.size < n) (shape : Extent.Shape)
    (closers : List TokenKind) (blocks : Nat) (isName : Bool) :
    Counts s c (Reading.statementRest shape n closers blocks isName (Tape.ofLexemes ls) s)
      (Extent.rest c.eof shape closers blocks isName c.ahead) := by
  induction n generalizing tight s c closers blocks isName with
  | zero => cases hn
  | succ n ih =>
    rw [Reading.statementRest.eq_def]
    dsimp only
    rw [Reading.bind_of_eq h.peek]
    cases hahead : c.ahead with
    | nil =>
      obtain ⟨hhead, hkind⟩ := h.head_of_nil hahead
      rw [if_pos hkind, hhead, Extent.rest]
      exact .refused _
    | cons t ts =>
      obtain ⟨hhead, hkind, hsize, hbehind, hskip⟩ := h.uncons hahead
      have hlater (j : Nat) (hj : j ≤ c.size) (hpos : 0 < j) := fun closers blocks isName =>
        Counts.add hj (ih (h.skip hj hpos) (by rw [Cursor.size_skip]; omega) closers blocks isName)
      have hrest := hlater 1 hsize Nat.one_pos
      rw [hbehind] at hrest
      have hcontinues := hskip.continues shape
      rw [hbehind] at hcontinues
      have hparen : ((c.skip 1).head.kind == .leftParen) = ts.head?.any (·.kind == .leftParen) := by
        cases ts with
        | nil => rw [(hskip.head_of_nil hbehind).2]; rfl
        | cons u us => rw [(hskip.uncons hbehind).1]; rfl
      have hadvance := h.advance
      rw [hhead] at hadvance
      rw [hhead, if_neg hkind, Extent.rest.eq_def]
      dsimp only
      cases hopen : t.kind.closer? with
      | some closer =>
        dsimp only
        rw [Reading.bind_of_eq hadvance]
        exact hrest (closer :: closers) blocks false
      | none =>
        dsimp only
        split
        next =>
          cases closers with
          | nil => exact .refused _
          | cons closer outer =>
            dsimp only
            split
            next => exact .refused _
            next =>
              rw [Reading.bind_of_eq hadvance, Reading.bind_of_eq hcontinues]
              split
              next => exact .ok hsize
              next => exact hrest outer blocks false
        next =>
          split
          next =>
            rw [Reading.bind_of_eq hadvance, Reading.bind_of_eq hcontinues]
            split
            next => exact hrest closers blocks false
            next => exact .ok hsize
          next =>
            split
            next => exact .ok (Nat.zero_le _)
            next =>
              rw [Reading.bind_of_eq (h.peekAt 1), hparen]
              split
              next hheader =>
                rw [Reading.bind_of_eq hadvance]
                exact h.header (by omega) hahead (Bool.and_eq_true_iff.1 hheader).2
                  (fun j hj hpos => hlater j hj hpos closers (blocks + 1) false)
                  fun j hj hpos => hlater j hj hpos closers blocks false
              next =>
                split
                next =>
                  rw [Reading.bind_of_eq hadvance]
                  exact hrest closers (blocks - 1) (Extent.namesNext t)
                next =>
                  rw [Reading.bind_of_eq hadvance]
                  exact hrest closers blocks (Extent.namesNext t)

/-- The tags and the text between them are taken by number, and the loop ends. -/
theorem Stands.outside (h : Stands ls tight s c) (hn : c.size < n) :
    Reading.outside n (Tape.ofLexemes ls) s =
    .ok ((), { s with pos := s.pos + (c.ahead.takeWhile Extent.isOutside).length }) := by
  induction n generalizing tight s c with
  | zero => cases hn
  | succ n ih =>
    rw [Reading.outside, Reading.bind_of_eq h.peek]
    cases hahead : c.ahead with
    | nil =>
      have hno : Extent.isOutside (Token.bare c.head.toLexeme) = false := by
        simp [Extent.isOutside, (h.head_of_nil hahead).2]
      rw [hno]
      rfl
    | cons t ts =>
      obtain ⟨hhead, -, hsize, hbehind, hskip⟩ := h.uncons hahead
      have hbare : Extent.isOutside (Token.bare c.head.toLexeme) = Extent.isOutside t := by
        rw [hhead]; rfl
      rw [hbare, List.takeWhile_cons]
      split
      next =>
        rw [Reading.bind_of_eq h.advance, ih hskip (by rw [Cursor.size_skip]; omega), hbehind,
          List.length_cons, Nat.add_assoc, Nat.add_comm 1]
      next => rfl

/-- The tags and the text between them make a statement, and everything else goes on to its end. -/
theorem Stands.counts_statement (h : Stands ls tight s c) (hn : c.size < n) :
    Counts s c (Reading.statement n (Tape.ofLexemes ls) s) (Extent.statement c) := by
  have hrest := h.statementRest hn (Extent.shapeOf c.ahead) [] 0 false
  rw [Reading.statement, Reading.bind_of_eq h.peek, Extent.statement]
  by_cases hout : Extent.isOutside (Token.bare c.head.toLexeme) = true
  · have hsome : (c.ahead.takeWhile Extent.isOutside).isEmpty = false := by
      cases hahead : c.ahead with
      | nil => simp [Extent.isOutside, (h.head_of_nil hahead).2] at hout
      | cons t ts =>
        have hout : Extent.isOutside t = true := by rwa [(h.uncons hahead).1] at hout
        rw [List.takeWhile_cons_of_pos hout]
        rfl
    rw [if_pos hout, h.outside hn, if_neg (by rw [hsome]; exact Bool.false_ne_true)]
    exact .ok (List.takeWhile_prefix _).length_le
  · have hnone : (c.ahead.takeWhile Extent.isOutside).isEmpty = true := by
      cases hahead : c.ahead with
      | nil => rfl
      | cons t ts =>
        have hout : ¬Extent.isOutside t = true := by rwa [(h.uncons hahead).1] at hout
        rw [List.takeWhile_cons_of_neg hout]
        rfl
    rw [if_neg hout, Reading.bind_of_eq (h.shape hn), if_pos hnone]
    exact hrest

/-- A statement takes at least one token, or it is refused. -/
theorem Stands.statement (h : Stands ls tight s c) (hn : c.size < n) :
    Takes s c (Reading.statement n (Tape.ofLexemes ls) s) c.takeStatement := by
  have hcounts := h.counts_statement hn
  by_cases hahead : c.ahead = []
  · obtain ⟨hhead, hkind⟩ := h.head_of_nil hahead
    have hmodel : Extent.statement c = .error (c.unexpected (.kind .semicolon)) := by
      rw [Extent.statement, hahead, List.takeWhile_nil, List.isEmpty_nil, if_pos rfl, Extent.rest,
        Cursor.unexpected, ParseError.unexpected, if_pos hkind, hhead]
      rfl
    have hstatement : c.takeStatement = .error (c.unexpected (.kind .semicolon)) := by
      rw [Cursor.takeStatement, hahead]
      rfl
    rw [hmodel] at hcounts
    rw [hstatement, hcounts.eq_error]
    exact .refused _
  · cases hmodel : Extent.statement c with
    | error e =>
      have hstatement : c.takeStatement = .error e := by
        rw [Cursor.takeStatement, if_neg (by simpa using hahead), hmodel]
        rfl
      rw [hmodel] at hcounts
      rw [hstatement, hcounts.eq_error]
      exact .refused e
    | ok k =>
      rw [hmodel] at hcounts
      obtain ⟨hstatement, hk⟩ := hcounts.eq_ok
      have hpos := (Extent.statement_ends hahead hmodel).1
      obtain ⟨st, hst, hvalue, hrest⟩ := Cursor.exists_takeStatement hahead hmodel
      rw [Nat.sub_add_cancel hpos] at hvalue hrest
      rw [hst, hstatement]
      exact .ok hk hpos hvalue hrest

/-- An opening bracket and the tokens of its group are taken, or they are refused. -/
theorem Stands.takeGroup (h : Stands ls tight s c) (hn : c.size ≤ n) {k : TokenKind}
    (hat : c.isAt k = true) {closer : TokenKind} (hopen : k.closer? = some closer) :
    Takes s c (Reading.group n (Tape.ofLexemes ls) s) (c.takeGroup k) := by
  have hkind : c.head.kind = k := eq_of_beq hat
  cases hahead : c.ahead with
  | nil =>
    rw [← hkind, (h.head_of_nil hahead).2] at hopen
    cases hopen
  | cons t ts =>
    obtain ⟨hhead, -, hsize, -, -⟩ := h.uncons hahead
    rw [hhead] at hkind
    have hgroup := h.group hn hahead (hkind ▸ hopen)
    have htake : c.takeGroup k = do
        let n ← Extent.groupRest c.eof closer [] ts
        return ⟨t :: ts.take n, c.skip (n + 1), by rw [Cursor.size_skip]; omega⟩ := by
      obtain ⟨ahead, eof⟩ := c
      cases hahead
      have htake : Cursor.take ⟨t :: ts, eof⟩ k = .ok ⟨t, ⟨ts, eof⟩, Nat.le_refl _⟩ :=
        (Cursor.take_push ⟨ts, eof⟩ t k).trans (if_pos hkind)
      rw [Cursor.takeGroup, htake, ok_bind]
      dsimp only
      rw [hopen]
      rfl
    rw [htake]
    cases hmodel : Extent.groupRest c.eof closer [] ts with
    | error e =>
      rw [hmodel] at hgroup
      rw [hgroup.eq_error]
      exact .refused e
    | ok j =>
      rw [hmodel] at hgroup
      obtain ⟨hgroup, hj⟩ := hgroup.eq_ok
      rw [hgroup]
      exact .ok hj (Nat.succ_pos j) (by rw [hahead]; rfl) rfl

end Counting

section Excerpts

variable {ls a : List Lexeme} {tight : Bool} {s : At} {c : Cursor} {stop n : Nat}

theorem Reaches.eq_extent (h : Reaches ls stop s c) (hls : ls = a ++ c.pieces) :
    stop = extent a := by
  obtain ⟨front, hfront, rfl⟩ := h
  rw [List.append_cancel_right (hfront.split.symm.trans hls)]

/-- The tokens that have been taken, from the beginning of the first to the end of the
last, are their excerpt. -/
theorem Stands.excerptOf (h : Stands ls tight s c) {k : Nat} (hk : k ≤ c.size) (hpos : 0 < k)
    (hstop : Reaches ls stop { s with pos := s.pos + k } (c.skip k)) (s' : At) :
    Reading.excerptBetween c.head.span.start stop (Tape.ofLexemes ls) s' =
      .ok (excerptOf (c.ahead.take k), s') := by
  obtain ⟨front, hfront, -⟩ := id h
  have hpieces := c.pieces_skip k
  cases hahead : c.ahead with
  | nil =>
    rw [Cursor.size, hahead] at hk
    exact absurd hk (Nat.not_le.2 hpos)
  | cons t ts =>
    obtain ⟨j, rfl⟩ := Nat.exists_eq_succ_of_ne_zero (Nat.ne_of_gt hpos)
    have hsplit : ls = (front ++ t.comments) ++
        (t.toLexeme :: (ts.take j).flatMap Token.pieces ++ (c.skip (j + 1)).pieces) := by
      rw [hfront.split, hpieces, hahead]
      simp [Token.pieces]
    have hexcerpt := excerpt?_eq hfront.whole hsplit (Cursor.pieces_ne_nil _)
    rw [← hstop.eq_extent (by rw [hsplit]; simp)] at hexcerpt
    rw [(h.uncons hahead).1]
    exact Reading.excerptBetween_eq hexcerpt s'

/-- Tokens are taken as text, and what follows them. -/
theorem Tracks.textOf {β : Type} {j : Nat} {c' : Cursor} {R : At → Cursor → Prop}
    (h : Stands ls tight s c) {x : Reading Unit} {f : String → Reading β}
    {r : Except ParseError (Step 1 (List Token) c)} {g : Step 1 (List Token) c →
      Except ParseError (Step j β c')} (hx : Takes s c (x (Tape.ofLexemes ls) s) r)
    (hf : ∀ st s', Stands ls true s' st.rest →
      Tracks R (f (ClassEdit.excerptOf st.value) (Tape.ofLexemes ls) s') (g st)) :
    Tracks R ((Reading.textOf x >>= f) (Tape.ofLexemes ls) s) (r >>= g) := by
  rw [Reading.textOf, bind_assoc, Reading.bind_of_eq h.peek]
  generalize hm : x (Tape.ofLexemes ls) s = m at hx
  cases hx with
  | refused e =>
    rw [bind_assoc, Reading.bind_of_error hm]
    exact .refused e
  | @ok k st hk hpos hvalue hrest =>
    have hskip := h.skip hk hpos
    obtain ⟨stop, hprev, hreaches⟩ := hskip.prevEnd
    rw [bind_assoc, Reading.bind_of_eq hm, bind_assoc, Reading.bind_of_eq hprev,
      Reading.bind_of_eq (h.excerptOf hk hpos hreaches _), ← hvalue]
    exact hf st _ (hrest ▸ hskip)

theorem Stands.attributes (h : Stands ls tight s c) (hn : c.size < n) :
    Tracks (Stands ls tight) (Reading.attributes n (Tape.ofLexemes ls) s) c.takeAttributes := by
  induction n generalizing tight s c with
  | zero => cases hn
  | succ n ih =>
    rw [Reading.attributes, Reading.bind_of_eq (h.isAt _), Cursor.takeAttributes]
    refine .ite (fun hat => ?_) fun _ => .pure (t := Tape.ofLexemes ls) rfl h
    refine .textOf h (h.takeGroup (Nat.lt_succ_iff.1 hn) hat rfl) fun ⟨ts, c₁, h₁⟩ s₁ hs₁ => ?_
    exact .bind (ih hs₁ (by omega)) fun _ _ hs₂ => .pure rfl hs₂.of_true

end Excerpts

end ClassEdit
