import ClassEdit.Proofs.Offset.Lines
import ClassEdit.Proofs.Token.Scanned

/-!
Cutting a source into lexemes by byte offsets. The scanner looks up what it stands before at its
offset, goes on character by character, and cuts the text of each lexeme out of the source. Main
statements: it comes to the same lexemes in as many rounds as the source has characters and one, and
moving code right by offsets comes to the same text.
-/

namespace ClassEdit

/-- Why something that goes by offsets comes to no result. -/
inductive Halt where
  /-- The source is refused. -/
  | refused (e : ParseError)
  /-- An offset lies outside of the source or inside of a character, or numbers are out of order. -/
  | fault
  /-- A loop goes on behind the bound on its rounds. -/
  | exhausted
deriving DecidableEq

namespace Halt

variable {α β : Type}

def orFault : Option α → Except Halt α
  | some a => .ok a
  | none => .error .fault

@[simp] theorem orFault_some (a : α) : orFault (some a) = .ok a := rfl

def ofResult : Except ParseError α → Except Halt α
  | .ok a => .ok a
  | .error e => .error (.refused e)

@[simp] theorem ofResult_ok (a : α) : ofResult (.ok a) = .ok a := rfl

@[simp] theorem ofResult_error (e : ParseError) :
    ofResult (.error e : Except ParseError α) = .error (.refused e) := rfl

theorem ofResult_bind (x : Except ParseError α) (f : α → Except ParseError β) :
    ofResult (x >>= f) = ofResult x >>= fun a => ofResult (f a) := by
  cases x <;> rfl

theorem ofResult_eq_ok {x : Except ParseError α} {a : α} : ofResult x = .ok a ↔ x = .ok a := by
  cases x <;> simp

/-- Nothing but a source is refused. -/
theorem ofResult_ne {x : Except ParseError α} {e : Halt} (h : ∀ e', e ≠ .refused e') :
    ofResult x ≠ .error e := by
  cases x with
  | ok a => nofun
  | error e' =>
    rw [ofResult_error]
    intro he
    exact h e' (Except.error.inj he).symm

end Halt

open Halt (orFault ofResult orFault_some ofResult_ok ofResult_bind)

namespace Scan

open Quoted (isNameStart)

/-- The place behind some characters, each looked up at its offset. -/
def walk? (source : List Char) : Nat → Position → Option Position
  | 0, p => some p
  | n + 1, p => do
    match ← from? source p.byte with
    | [] => none
    | c :: _ => walk? source n (p.step c)

/-- Whether a text begins with an opening tag of five bytes. -/
def openTagAt? (cs : List Char) : Option Bool :=
  if byteSize cs < 5 || (from? cs 5).isNone then some false
  else do
    let tag ← cut? cs 0 5
    let behind ← from? cs 5
    return tag.map Char.toLower == "<?php".toList && behind.head?.all isBlank

/-- Whether a line of a heredoc begins with the label alone. -/
def closesHeredocAt? (label cs : List Char) : Option Bool :=
  if label.isPrefixOf cs then do
    let behind ← from? cs (byteSize label)
    return !behind.head?.any isNamePart
  else some false

/-- The characters up to the label on a line of its own, with the label. -/
def heredocBodyLengthAt? (label : List Char) : List Char → Option (Option Nat)
  | [] => some none
  | c :: r => do
    let margin := (r.takeWhile isMargin).length
    let closes ← if c = '\n' then closesHeredocAt? label (r.drop margin) else some false
    if closes then return some (1 + margin + label.length)
    else return (← heredocBodyLengthAt? label r).map (· + 1)

/-- A heredoc behind its opening mark, the label of which is cut out of the source. -/
def heredocLengthAt (start : Position) (cs : List Char) : Except Halt Nat :=
  let mark := "<<<".toList
  let blanks := (cs.takeWhile isMargin).length
  let quote := (cs.drop blanks).take 1 |>.filter fun c => c == '\x27' || c == '\x22'
  let head := blanks + quote.length
  let rest := cs.drop head
  if !rest.head?.any isNameStart then
    .error (.refused ⟨.unexpected .heredocLabel .invalidCharacter,
      Span.covering (start.after (mark ++ cs.take head)) []⟩)
  else do
    let before := byteSize (cs.take head)
    let label ← orFault (cut? cs before (before + byteSize (rest.take (wordLength rest))))
    let body := rest.drop label.length
    if !quote.isPrefixOf body then
      .error (.refused ⟨.unterminated .heredocLabel,
        Span.covering start (mark ++ cs.take (head + label.length))⟩)
    else
      match ← orFault (heredocBodyLengthAt? label (body.drop quote.length)) with
      | some n => return head + label.length + quote.length + n
      | none => .error (.refused ⟨.unterminated .heredoc, Span.covering start (mark ++ cs)⟩)

def htmlLengthAt? : List Char → Option Nat
  | [] => some 0
  | c :: cs => do if ← openTagAt? (c :: cs) then some 0 else (· + 1) <$> htmlLengthAt? cs

/-- The kind of the lexeme that a text begins with, and its characters behind the first. -/
def lexemeAt (mode : Mode) (here : Position) (c : Char) (r : List Char) :
    Except Halt (TokenKind × Nat) :=
  match mode with
  | .html => do
    if ← orFault (openTagAt? (c :: r)) then return (.openTag, 4)
    else return (.html, ← orFault (htmlLengthAt? r))
  | .code =>
    if startsWith "<<<" (c :: r) then return (.heredoc, (← heredocLengthAt here (r.drop 2)) + 2)
    else ofResult (codeLexeme here c r)

/-- The lexemes of a source from a place on, in at most some rounds. -/
def lexemesWithin (source : List Char) : Nat → Mode → Position → Except Halt (List Lexeme)
  | 0, _, _ => .error .exhausted
  | n + 1, mode, p => do
    let rest ← orFault (from? source p.byte)
    let here ← orFault (walk? source (gapOf mode rest).length p)
    match ← orFault (from? source here.byte) with
    | [] => return [⟨gapOf mode rest, .eof, [], here⟩]
    | c :: r => do
      let (kind, k) ← lexemeAt mode here c r
      let behind ← orFault (walk? source (k + 1) here)
      let text ← orFault (cut? source here.byte behind.byte)
      let more ← lexemesWithin source n (modeAfter kind) behind
      return ⟨gapOf mode rest, kind, text, here⟩ :: more

/-- The lexemes of a source, in a round for each character and one for the end. -/
def lexemesByOffset (mode : Mode) (source : List Char) : Except Halt (List Lexeme) :=
  lexemesWithin source (source.length + 1) mode .start

section OpenTag

theorem utf8Size_of_toLower {c : Char} (h : c.toLower.utf8Size = 1) : c.utf8Size = 1 := by
  delta Char.toLower at h
  split at h
  next hupper =>
    have hle : c.val ≤ 127 := UInt32.le_trans hupper.2 (by decide)
    unfold Char.utf8Size
    exact if_pos hle
  next => exact h

theorem byteSize_of_map_toLower {tag : List Char} (h : ∀ c ∈ tag.map Char.toLower, c.utf8Size = 1) :
    byteSize tag = tag.length := by
  induction tag with
  | nil => rfl
  | cons c tag ih =>
    obtain ⟨hc, htag⟩ := List.forall_mem_cons.1 h
    rw [byteSize_cons, utf8Size_of_toLower hc, ih htag, List.length_cons, Nat.add_comm]

theorem byteSize_of_isOpenTag {tag : List Char} (h : tag.map Char.toLower = "<?php".toList) :
    byteSize tag = 5 := by
  have hascii : ∀ c ∈ "<?php".toList, c.utf8Size = 1 := by simp [Char.utf8Size]
  rw [byteSize_of_map_toLower (h ▸ hascii), ← List.length_map Char.toLower, h]
  rfl

theorem take_length_of_isOpenTag {cs : List Char}
    (h : (cs.take 5).map Char.toLower = "<?php".toList) :
    byteSize (cs.take 5) = 5 ∧ (cs.take 5).length = 5 :=
  ⟨byteSize_of_isOpenTag h, by rw [← List.length_map Char.toLower, h]; rfl⟩

/-- Whether an opening tag begins a text is told by its first five bytes and the
character behind them. -/
theorem atOpenTag_of_byteSize {tag behind : List Char} (hsize : byteSize tag = 5) :
    atOpenTag (tag ++ behind) =
    (tag.map Char.toLower == "<?php".toList && behind.head?.all isBlank) := by
  by_cases htag : tag.map Char.toLower = "<?php".toList
  · have hlength : tag.length = 5 := by
      rw [← List.length_map Char.toLower, htag]
      rfl
    rw [atOpenTag, List.take_left' hlength, ← hlength, List.getElem?_append_right (Nat.le_refl _),
      Nat.sub_self, List.head?_eq_getElem?]
  · rw [beq_eq_false_iff_ne.2 htag, Bool.false_and, atOpenTag, Bool.and_eq_false_iff]
    refine .inl (beq_eq_false_iff_ne.2 fun htake => htag ?_)
    -- the first five characters would be the first five bytes
    have hcut := upTo?_append tag behind
    rw [hsize, ← (take_length_of_isOpenTag htake).1] at hcut
    conv at hcut => lhs; arg 1; rw [← List.take_append_drop 5 (tag ++ behind)]
    rw [upTo?_append] at hcut
    rw [← Option.some.inj hcut, htake]

/-- To look for the opening tag in the first five bytes is safe, and finds the same. -/
theorem openTagAt?_eq (cs : List Char) : openTagAt? cs = some (atOpenTag cs) := by
  unfold openTagAt?
  split
  next hshort =>
    refine congrArg some (Bool.eq_false_iff.2 fun htag => ?_).symm
    obtain ⟨hsize, -⟩ := take_length_of_isOpenTag (eq_of_beq (Bool.and_eq_true_iff.1 htag).1)
    have hrest := from?_append (cs.take 5) (cs.drop 5)
    rw [List.take_append_drop, hsize] at hrest
    have hbytes := byteSize_append (cs.take 5) (cs.drop 5)
    rw [List.take_append_drop, hsize] at hbytes
    rw [hrest] at hshort
    simp only [Option.isNone_some, Bool.or_false, decide_eq_true_eq] at hshort
    omega
  next hlong =>
    cases hbehind : from? cs 5 with
    | none => simp [hbehind] at hlong
    | some behind =>
      obtain ⟨tag, rfl, hsize⟩ := from?_eq_some hbehind
      have hcut := cut?_append [] tag behind
      rw [byteSize_nil, Nat.zero_add, ← hsize] at hcut
      rw [atOpenTag_of_byteSize hsize.symm]
      exact congrArg (· >>= _) hcut

theorem htmlLengthAt?_eq (cs : List Char) : htmlLengthAt? cs = some (htmlLength cs) := by
  induction cs with
  | nil => rfl
  | cons c cs ih =>
    rw [htmlLengthAt?, openTagAt?_eq, htmlLength, ih]
    cases atOpenTag (c :: cs) <;> rfl

theorem closesHeredocAt?_eq (label cs : List Char) :
    closesHeredocAt? label cs = some (closesHeredoc label cs) := by
  unfold closesHeredocAt? closesHeredoc
  split
  next h =>
    obtain ⟨behind, rfl⟩ := List.isPrefixOf_iff_prefix.1 h
    rw [from?_append, h, List.getElem?_append_right (Nat.le_refl _), Nat.sub_self, ←
      List.head?_eq_getElem?]
    rfl
  next h => rw [Bool.eq_false_iff.2 h, Bool.false_and]

end OpenTag

section Heredoc

/-- The body of a heredoc has the same length by offsets. -/
theorem heredocBodyLengthAt?_eq (label cs : List Char) :
    heredocBodyLengthAt? label cs = some (heredocBodyLength? label cs) := by
  induction cs with
  | nil => rfl
  | cons c r ih =>
    rw [heredocBodyLengthAt?, heredocBodyLength?, closesHeredocAt?_eq, ih]
    by_cases hc : c = '\n'
    · rw [if_pos hc, decide_eq_true hc, Bool.true_and]
      cases closesHeredoc label (r.drop (r.takeWhile isMargin).length) <;> rfl
    · rw [if_neg hc, decide_eq_false hc, Bool.false_and]
      rfl

/-- A heredoc is as long by bytes as it is by characters, and no cut is out of bounds. -/
theorem heredocLengthAt_eq (start : Position) (cs : List Char) :
    heredocLengthAt start cs = ofResult (heredocLength start cs) := by
  unfold heredocLengthAt heredocLength
  dsimp only
  generalize (cs.takeWhile isMargin).length = blanks
  generalize ((cs.drop blanks).take 1).filter _ = quote
  generalize blanks + quote.length = head
  have hcut := cut?_append (cs.take head) ((cs.drop head).take (wordLength (cs.drop head)))
    ((cs.drop head).drop (wordLength (cs.drop head)))
  rw [List.take_append_drop, List.take_append_drop] at hcut
  generalize (cs.drop head).take (wordLength (cs.drop head)) = label at hcut ⊢
  by_cases hlabel : (!(cs.drop head).head?.any isNameStart) = true
  · rw [if_pos hlabel, if_pos hlabel]
    rfl
  rw [if_neg hlabel, if_neg hlabel, hcut, orFault_some, ok_bind]
  by_cases hquote : (!quote.isPrefixOf ((cs.drop head).drop label.length)) = true
  · rw [if_pos hquote, if_pos hquote]
    rfl
  rw [if_neg hquote, if_neg hquote, heredocBodyLengthAt?_eq, orFault_some, ok_bind]
  cases heredocBodyLength? label (((cs.drop head).drop label.length).drop quote.length) <;> rfl

theorem codeLexeme_heredoc {here : Position} {c : Char} {r : List Char}
    (h : startsWith "<<<" (c :: r) = true) :
    codeLexeme here c r = do return (.heredoc, (← heredocLength here (r.drop 2)) + 2) := by
  have hcs : ∃ r', c :: r = '<' :: '<' :: '<' :: r' := by
    obtain ⟨r', hr⟩ := List.isPrefixOf_iff_prefix.1 h
    exact ⟨r', by rw [← hr]; simp⟩
  obtain ⟨r', hcs⟩ := hcs
  obtain ⟨rfl, rfl⟩ := List.cons.inj hcs
  simp [codeLexeme, startsWith]

end Heredoc

section Lexemes

/-- A walk over bytes ends where the characters end. -/
theorem walk?_append (before a cs : List Char) :
    walk? (before ++ (a ++ cs)) a.length (Position.start.after before) =
      some (Position.start.after (before ++ a)) := by
  induction a generalizing before with
  | nil => rw [List.append_nil]; rfl
  | cons c a ih =>
    have hstep : (Position.start.after before).step c = Position.start.after (before ++ [c]) := by
      rw [Position.after_append]
      rfl
    have hrest := ih (before ++ [c])
    rw [← hstep, List.append_assoc, List.append_assoc, List.singleton_append, List.singleton_append]
      at hrest
    rw [List.length_cons, walk?, Position.byte_after_start, from?_append]
    exact hrest

/-- One lexeme is cut off the same by offsets. -/
theorem lexemeAt_eq (mode : Mode) (here : Position) (c : Char) (r : List Char) :
    lexemeAt mode here c r = ofResult (lexeme mode here c r) := by
  cases mode with
  | code =>
    rw [lexemeAt, lexeme]
    split
    next h => rw [codeLexeme_heredoc h, heredocLengthAt_eq, ofResult_bind]; rfl
    next => rfl
  | html =>
    rw [lexemeAt, openTagAt?_eq, lexeme, htmlLengthAt?_eq]
    cases atOpenTag (c :: r) <;> rfl

/-- A source is cut into the same lexemes by offsets, with a round for each character. -/
theorem lexemesWithin_eq {n : Nat} {mode : Mode} {before cs : List Char} (hn : cs.length < n) :
    lexemesWithin (before ++ cs) n mode (Position.start.after before) =
      ofResult (lexemes mode (Position.start.after before) cs) := by
  induction n generalizing mode before cs with
  | zero => cases hn
  | succ n ih =>
    have hgap := gapOf_append mode cs
    have hwalk := walk?_append before (gapOf mode cs) (cs.drop (gapOf mode cs).length)
    rw [hgap] at hwalk
    have hrest := from?_append (before ++ gapOf mode cs) (cs.drop (gapOf mode cs).length)
    rw [List.append_assoc, hgap] at hrest
    rw [lexemesWithin, Position.byte_after_start, from?_append, orFault_some, ok_bind, hwalk,
      orFault_some, ok_bind, Position.byte_after_start, hrest, orFault_some, ok_bind]
    cases hcs : cs.drop (gapOf mode cs).length with
    | nil =>
      rw [lexemes_eof hcs, ← Position.after_append]
      rfl
    | cons c r =>
      rw [lexemes_cons hcs]
      dsimp only
      rw [← Position.after_append, lexemeAt_eq]
      cases hlexeme : lexeme mode (Position.start.after (before ++ gapOf mode cs)) c r with
      | error e => rfl
      | ok kn =>
        obtain ⟨kind, k⟩ := kn
        have hblank : mode = .code → isBlank c = false := by
          rintro rfl
          exact isBlank_of_drop_gapOf hcs
        obtain ⟨t, d, rfl, rfl, -⟩ := begins_of_lexeme hblank hlexeme
        have hsource : before ++ cs = before ++ gapOf mode cs ++ ((c :: t) ++ d) := by
          rw [List.append_assoc, List.cons_append, ← hcs, hgap]
        have hbehind := walk?_append (before ++ gapOf mode cs) (c :: t) d
        have htext := cut?_append (before ++ gapOf mode cs) (c :: t) d
        have hlt : d.length < n := by
          have hdrop := length_lt_of_drop hcs
          rw [List.length_append] at hdrop
          omega
        have hmore := @ih (modeAfter kind) (before ++ gapOf mode cs ++ (c :: t)) d hlt
        rw [← hsource] at hbehind htext
        rw [List.append_assoc _ _ d, ← hsource] at hmore
        rw [ofResult_ok, ok_bind, ok_bind, ← List.length_cons (a := c), hbehind, orFault_some,
          ok_bind, Position.byte_after_start, byteSize_append _ (c :: t), htext, orFault_some,
          ok_bind, hmore, ← Position.after_append, List.take_left, List.drop_left, ofResult_bind]
        rfl

theorem lexemesByOffset_eq (mode : Mode) (source : List Char) :
    lexemesByOffset mode source = ofResult (lexemes mode .start source) :=
  @lexemesWithin_eq _ mode [] source (Nat.lt_succ_self _)

end Lexemes

end Scan

end ClassEdit
