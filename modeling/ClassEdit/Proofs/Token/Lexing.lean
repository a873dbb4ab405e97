import ClassEdit.Token.Scan

/-!
Lexemes of a text that is written token by token. A token is cut off the same way whatever
comes behind it, as long as what comes behind does not go on with it; most tokens are ended
by any character that is no part of a name. Main statement: white space and a token before a
text are one more lexeme.
-/

namespace ClassEdit.Scan

open Quoted (isNameStart)

/-- A name behind its first character: separators stand between identifiers. -/
def isNameRest : List Char → Bool
  | '\\' :: c :: r => isNameStart c && isNameRest r
  | c :: r => isNamePart c && isNameRest r
  | [] => true

/-- A name with or without separators. White space before it would not be read as part of it. -/
def isName : List Char → Bool
  | '\\' :: c :: r => isNameStart c && isNameRest r
  | c :: r => isNameStart c && !isBlank c && isNameRest r
  | [] => false

theorem isName_cons {c : Char} {r : List Char} (h : ∀ d s, c = '\\' → r = d :: s → False) :
    isName (c :: r) = (isNameStart c && !isBlank c && isNameRest r) := by
  rw [isName]
  exact h

def isIdentifier (cs : List Char) : Bool :=
  cs.head?.any isNameStart && cs.all isNamePart

/-- A text before which names, variables and numbers end. -/
def Stops (follow : List Char) : Prop :=
  ∀ c, follow.head? = some c → isNamePart c = false ∧ c ≠ '\\' ∧ c ≠ '.'

/-- The text is one lexeme of the kind if the other text follows. -/
def IsToken (kind : TokenKind) (x follow : List Char) : Prop :=
  ∃ c t, x = c :: t ∧ isBlank c = false ∧ ∀ p, codeLexeme p c (t ++ follow) = .ok (kind, t.length)

theorem isNamePart_of_isNameStart {c : Char} (h : isNameStart c = true) : isNamePart c = true := by
  simp only [isNameStart, isNamePart, Char.isAlphanum, Bool.or_eq_true] at h ⊢
  rcases h with (h | h) | h
  · exact .inl (.inl h)
  · exact .inl (.inr (.inl h))
  · exact .inr h

theorem stops_cons {c : Char} {r : List Char} :
    Stops (c :: r) ↔ isNamePart c = false ∧ c ≠ '\\' ∧ c ≠ '.' := by
  simp [Stops]

/-- Of a character that begins no comment, tag, attribute, heredoc or variable, only the
later rules are asked. -/
theorem codeLexeme_of_plain {c : Char} (hc : c ∉ ['?', '#', '/', '<', '$'])
    (p : Position) (r : List Char) :
    codeLexeme p c r =
      (if isNameStart c || (c == '\\' && r.head?.any isNameStart)
        then .ok (.word, nameLength (c :: r) - 1)
      else if c.isDigit || (c == '.' && r.head?.any Char.isDigit) then
        .ok ((numberExtent (c :: r)).1, (numberExtent (c :: r)).2 - 1)
      else if c = '\x27' || c = '\x22' || c = '\x60' then return (.quoted, ← stringLength p c r)
      else
        match operator? (c :: r) with
        | some (s, kind) => .ok (kind, s.length - 1)
        | none => .error ⟨.unexpected .token (.character c), Span.covering p [c]⟩) := by
  simp only [List.mem_cons, List.not_mem_nil, or_false, not_or] at hc
  obtain ⟨h₁, h₂, h₃, h₄, h₅⟩ := hc
  have hstart : ∀ (w : String) {d : Char} {t : List Char}, w.toList = d :: t → c ≠ d →
      ¬startsWith w (c :: r) = true := by
    intro w d t hw hcd
    simp [startsWith, hw, List.isPrefixOf, Ne.symm hcd]
  simp only [codeLexeme]
  refine (if_neg (hstart "?>" rfl h₁)).trans ((if_neg (hstart "#[" rfl h₂)).trans ?_)
  refine (if_neg (by simp [h₂, hstart "//" rfl h₃])).trans ((if_neg (hstart "/*" rfl h₃)).trans ?_)
  exact (if_neg (hstart "<<<" rfl h₄)).trans (if_neg (by simp [h₅]))

theorem plain_of_isNameStart {c : Char} (h : isNameStart c = true) :
    c ∉ ['?', '#', '/', '<', '$'] := by
  intro hc
  simp only [List.mem_cons, List.not_mem_nil, or_false] at hc
  rcases hc with rfl | rfl | rfl | rfl | rfl <;> exact absurd h (by decide)

/-- A name goes up to the first character that does not belong to one. -/
theorem nameLength_append {x follow : List Char} (hx : isNameRest x = true) (hf : Stops follow) :
    nameLength (x ++ follow) = x.length := by
  fun_induction isNameRest x with
  | case1 c r ih =>
    simp only [Bool.and_eq_true] at hx
    have hc : c ≠ '\\' := by
      rintro rfl
      exact absurd hx.1 (by decide)
    have hrest : nameLength (c :: (r ++ follow)) = nameLength (r ++ follow) + 1 := by
      rw [nameLength, if_pos (isNamePart_of_isNameStart hx.1)]
      exact fun _ _ h => absurd h hc
    rw [List.cons_append, List.cons_append, nameLength, if_pos hx.1, hrest, ih hx.2]
    rfl
  | case2 c r hne ih =>
    simp only [Bool.and_eq_true] at hx
    have hc : c ≠ '\\' := by
      rintro rfl
      exact absurd hx.1 (by decide)
    rw [List.cons_append, nameLength, if_pos hx.1, ih hx.2]
    · rfl
    · exact fun _ _ h => absurd h hc
  | case3 =>
    cases follow with
    | nil => rfl
    | cons c r =>
      obtain ⟨hc, hsep, -⟩ := stops_cons.1 hf
      rw [List.nil_append, nameLength, hc]
      · rfl
      · exact fun _ _ h => absurd h hsep

/-- A name is one token, if no further character of a name follows. -/
theorem isToken_word {x follow : List Char} (hx : isName x = true) (hf : Stops follow) :
    IsToken .word x follow := by
  fun_cases isName x with
  | case1 c r =>
    simp only [isName, Bool.and_eq_true] at hx
    refine ⟨'\\', c :: r, rfl, by decide, fun p => ?_⟩
    have hlen := nameLength_append (x := '\\' :: c :: r) (by simp [isNameRest, hx]) hf
    rw [codeLexeme_of_plain (by decide), if_pos (by simp [hx.1])]
    simp only [List.cons_append] at hlen ⊢
    simp [hlen]
  | case2 c r hne =>
    rw [isName_cons hne] at hx
    simp only [Bool.and_eq_true, Bool.not_eq_true'] at hx
    refine ⟨c, r, rfl, hx.1.2, fun p => ?_⟩
    have hrest : isNameRest (c :: r) = true := by
      rw [isNameRest, isNamePart_of_isNameStart hx.1.1, hx.2]
      · rfl
      · rintro c' r' rfl rfl
        exact absurd hx.1.1 (by decide)
    have hlen := nameLength_append hrest hf
    rw [codeLexeme_of_plain (plain_of_isNameStart hx.1.1), if_pos (by simp [hx.1.1])]
    simp only [List.cons_append] at hlen
    simp [hlen]
  | case3 => simp [isName] at hx

theorem takeWhile_append_stops {q : Char → Bool} {x follow : List Char} (hx : ∀ c ∈ x, q c = true)
    (hf : ∀ c, follow.head? = some c → q c = false) : (x ++ follow).takeWhile q = x := by
  rw [List.takeWhile_append_of_pos hx]
  cases follow with
  | nil => simp
  | cons c r => simp [hf c rfl]

theorem drop_length_takeWhile {α : Type} (q : α → Bool) (xs : List α) :
    xs.drop (xs.takeWhile q).length = xs.dropWhile q := by
  have hdrop : (xs.takeWhile q ++ xs.dropWhile q).drop (xs.takeWhile q).length =
      xs.dropWhile q := List.drop_left
  rwa [List.takeWhile_append_dropWhile] at hdrop

/-- What is taken as long as it can be ends before something that it does not take. -/
theorem eq_false_of_mem_head?_dropWhile {α : Type} {q : α → Bool} {xs : List α} {x : α}
    (h : x ∈ (xs.dropWhile q).head?) :
    q x = false := by
  have hnot := List.head?_dropWhile_not q xs
  rw [Option.mem_def.1 h] at hnot
  exact hnot

/-- A variable is one token, with its sigil. -/
theorem isToken_var {x follow : List Char} (hx : isIdentifier x = true) (hf : Stops follow) :
    IsToken .var ('$' :: x) follow := by
  simp only [isIdentifier, Bool.and_eq_true, List.all_eq_true] at hx
  refine ⟨'$', x, rfl, by decide, fun p => ?_⟩
  have hhead : (x ++ follow).head?.any isNameStart = true := by
    cases x with
    | nil => simp at hx
    | cons c r => simpa using hx.1
  have hlen : wordLength (x ++ follow) = x.length := by
    rw [wordLength, takeWhile_append_stops hx.2 fun c hc => (hf c hc).1]
  simp [-List.head?_append, codeLexeme, startsWith, List.isPrefixOf, hhead, hlen]

theorem toNat_of_isDigit {c : Char} (h : c.isDigit = true) : 48 ≤ c.toNat ∧ c.toNat ≤ 57 := by
  simp only [Char.isDigit, Bool.and_eq_true, decide_eq_true_eq, ge_iff_le] at h
  exact h

theorem isNameStart_of_isDigit {c : Char} (h : c.isDigit = true) : isNameStart c = false := by
  have hrange := toNat_of_isDigit h
  have hline : c ≠ '_' := by
    rintro rfl
    exact absurd h (by decide)
  have hA : 'A'.val.toNat = 65 := rfl
  have ha : 'a'.val.toNat = 97 := rfl
  delta isNameStart Char.isAlpha Char.isUpper Char.isLower
  simp only [Bool.or_eq_false_iff, beq_eq_false_iff_ne, ne_eq, hline, not_false_eq_true, true_and,
    Bool.and_eq_false_iff, decide_eq_false_iff_not, ge_iff_le, UInt32.le_iff_toNat_le]
  have hc : c.val.toNat = c.toNat := rfl
  omega

theorem plain_of_isDigit {c : Char} (h : c.isDigit = true) : c ∉ ['?', '#', '/', '<', '$'] := by
  intro hc
  simp only [List.mem_cons, List.not_mem_nil, or_false] at hc
  rcases hc with rfl | rfl | rfl | rfl | rfl <;> exact absurd h (by decide)

theorem isBlank_of_isDigit {c : Char} (h : c.isDigit = true) : isBlank c = false := by
  have hrange := toNat_of_isDigit h
  simp only [isBlank, Bool.or_eq_false_iff, Bool.and_eq_false_iff, beq_eq_false_iff_ne,
    decide_eq_false_iff_not]
  omega

/-- Digits have neither places nor a power behind them where a text stops them. -/
theorem decimalExtent_digits {x follow : List Char} (hx : ∀ c ∈ x, c.isDigit = true)
    (hf : Stops follow) :
    decimalExtent (x ++ follow) = (.int, x.length) := by
  have hstop : ∀ c, follow.head? = some c → (c.isDigit || c == '_') = false := by
    intro c hc
    have hpart := (hf c hc).1
    simp only [isNamePart, Char.isAlphanum, Bool.or_eq_false_iff] at hpart ⊢
    exact ⟨hpart.1.2.2, hpart.1.1⟩
  have hwhole : digitsLength (x ++ follow) = x.length := by
    rw [digitsLength, takeWhile_append_stops (fun c hc => by simp [hx c hc]) hstop]
  have hdot : (follow.head? == some '.') = false := by
    cases follow with
    | nil => rfl
    | cons c r => simpa using (stops_cons.1 hf).2.2
  have hpower : exponentLength follow = 0 := by
    cases follow with
    | nil => rfl
    | cons c r =>
      have hpart := (stops_cons.1 hf).1
      have he : c ≠ 'e' ∧ c ≠ 'E' := by
        constructor
        all_goals
          rintro rfl
          exact absurd hpart (by decide)
      simp [exponentLength, he]
  simp [decimalExtent, hwhole, hdot, hpower]

/-- Digits are in base ten, since the letter of another base is no digit and goes on with a name. -/
theorem numberExtent_digits {x follow : List Char} (hx : ∀ c ∈ x, c.isDigit = true)
    (hf : Stops follow) :
    numberExtent (x ++ follow) = (.int, x.length) := by
  rw [← decimalExtent_digits hx hf]
  unfold numberExtent
  split
  next d r heq =>
    have hd : isNamePart d = false ∨ d.isDigit = true := by
      match x, heq with
      | [], heq =>
        rw [show follow = '0' :: d :: r from heq] at hf
        exact absurd (stops_cons.1 hf).1 (by decide)
      | [_], heq =>
        rw [show follow = d :: r from (List.cons.inj heq).2] at hf
        exact .inl (stops_cons.1 hf).1
      | _ :: e :: _, heq =>
        rw [← (List.cons.inj (List.cons.inj heq).2).1]
        exact .inr (hx e (by simp))
    rw [if_neg, heq]
    intro hbase
    have hmem : d ∈ ['x', 'X', 'b', 'B', 'o', 'O'] := by simpa using hbase
    simp only [List.mem_cons, List.not_mem_nil, or_false] at hmem
    rcases hmem with rfl | rfl | rfl | rfl | rfl | rfl <;> exact absurd hd (by decide)
  next => rfl

/-- Digits are one token, if no further digit, point or letter follows. -/
theorem isToken_int {x follow : List Char} (hne : x ≠ []) (hx : ∀ c ∈ x, c.isDigit = true)
    (hf : Stops follow) : IsToken .int x follow := by
  obtain ⟨c, t, rfl⟩ := List.exists_cons_of_ne_nil hne
  have hc := hx c List.mem_cons_self
  have hsep : c ≠ '\\' := by
    rintro rfl
    exact absurd hc (by decide)
  refine ⟨c, t, rfl, isBlank_of_isDigit hc, fun p => ?_⟩
  have hnumber := numberExtent_digits hx hf
  rw [List.cons_append] at hnumber
  rw [codeLexeme_of_plain (plain_of_isDigit hc), if_neg (by simp [isNameStart_of_isDigit hc, hsep]),
    if_pos (by simp [hc])]
  simp [hnumber]

theorem quotedLength_escapeAll (cs follow : List Char) :
    quotedLength '\x27' (Quoted.escapeAll cs ++ '\x27' :: follow) =
      .ok ((Quoted.escapeAll cs).length + 1) := by
  induction cs with
  | nil => simp [Quoted.escapeAll, quotedLength]
  | cons c r ih =>
    by_cases hc : c = '\\' ∨ c = '\x27'
    · simp [Quoted.escapeAll, hc, quotedLength, ih, Except.map]
    · rw [not_or] at hc
      simp [Quoted.escapeAll, hc, quotedLength, ih, Except.map]

/-- A string literal ends at its closing quote, whatever follows. -/
theorem isToken_encode (text : String) (follow : List Char) :
    IsToken .quoted (Quoted.encode text).toList follow := by
  refine ⟨'\x27', Quoted.escapeAll text.toList ++ ['\x27'], by simp [Quoted.encode], by decide,
    fun p => ?_⟩
  have hstring : stringLength p '\x27' (Quoted.escapeAll text.toList ++ ['\x27'] ++ follow) =
      .ok ((Quoted.escapeAll text.toList).length + 1) := by
    rw [stringLength, List.append_assoc, List.singleton_append, quotedLength_escapeAll]
  rw [codeLexeme_of_plain (by decide), if_neg (by simp [isNameStart]), if_neg (by simp),
    if_pos (by simp), hstring, List.length_append]
  rfl

section Marks

variable (follow : List Char)

theorem isToken_leftParen : IsToken .leftParen ['('] follow := ⟨'(', [], rfl, rfl, fun _ => rfl⟩

theorem isToken_rightParen : IsToken .rightParen [')'] follow := ⟨')', [], rfl, rfl, fun _ => rfl⟩

theorem isToken_leftBrace :
    IsToken .leftBrace ['\x7b'] follow := ⟨'\x7b', [], rfl, rfl, fun _ => rfl⟩

theorem isToken_rightBrace :
    IsToken .rightBrace ['\x7d'] follow := ⟨'\x7d', [], rfl, rfl, fun _ => rfl⟩

theorem isToken_leftBracket : IsToken .leftBracket ['['] follow := ⟨'[', [], rfl, rfl, fun _ => rfl⟩

theorem isToken_rightBracket :
    IsToken .rightBracket [']'] follow := ⟨']', [], rfl, rfl, fun _ => rfl⟩

theorem isToken_comma : IsToken .comma [','] follow := ⟨',', [], rfl, rfl, fun _ => rfl⟩

theorem isToken_semicolon : IsToken .semicolon [';'] follow := ⟨';', [], rfl, rfl, fun _ => rfl⟩

theorem isToken_arrow : IsToken .arrow ['=', '>'] follow := ⟨'=', ['>'], rfl, rfl, fun _ => rfl⟩

theorem isToken_ellipsis : IsToken .ellipsis ['.', '.', '.'] follow :=
  ⟨'.', ['.', '.'], rfl, rfl, fun _ => rfl⟩

theorem isToken_equals : IsToken .equals ['='] (' ' :: follow) := ⟨'=', [], rfl, rfl, fun _ => rfl⟩

theorem isToken_colon : IsToken .colon [':'] (' ' :: follow) := ⟨':', [], rfl, rfl, fun _ => rfl⟩

end Marks

section Signs

variable {follow : List Char}

theorem isToken_ampersand (h : ∀ c, follow.head? = some c → c ≠ '&' ∧ c ≠ '=') :
    IsToken .ampersand ['&'] follow := by
  refine ⟨'&', [], rfl, by decide, fun p => ?_⟩
  cases follow with
  | nil => rfl
  | cons c r =>
    have hc := h c rfl
    simp [codeLexeme, startsWith, List.isPrefixOf, operator?, operators, Ne.symm hc.1, Ne.symm hc.2,
      isNameStart]
    rfl

theorem isToken_pipe (h : ∀ c, follow.head? = some c → c ≠ '|' ∧ c ≠ '=') :
    IsToken .pipe ['|'] follow := by
  refine ⟨'|', [], rfl, by decide, fun p => ?_⟩
  cases follow with
  | nil => rfl
  | cons c r =>
    have hc := h c rfl
    simp [codeLexeme, startsWith, List.isPrefixOf, operator?, operators, Ne.symm hc.1, Ne.symm hc.2,
      isNameStart]
    rfl

theorem isToken_question (h : ∀ c, follow.head? = some c → c ≠ '?' ∧ c ≠ '>' ∧ c ≠ '-') :
    IsToken .question ['?'] follow := by
  refine ⟨'?', [], rfl, by decide, fun p => ?_⟩
  cases follow with
  | nil => rfl
  | cons c r =>
    have hc := h c rfl
    simp [codeLexeme, startsWith, List.isPrefixOf, operator?, operators, Ne.symm hc.1,
      Ne.symm hc.2.1, Ne.symm hc.2.2, isNameStart]
    rfl

theorem isToken_minus (h : ∀ c, follow.head? = some c → c ≠ '-' ∧ c ≠ '=' ∧ c ≠ '>') :
    IsToken .minus ['-'] follow := by
  refine ⟨'-', [], rfl, by decide, fun p => ?_⟩
  cases follow with
  | nil => rfl
  | cons c r =>
    have hc := h c rfl
    simp [codeLexeme, startsWith, List.isPrefixOf, operator?, operators, Ne.symm hc.1,
      Ne.symm hc.2.1, Ne.symm hc.2.2, isNameStart]
    rfl

end Signs

/-- White space and a token before a text that can be cut into lexemes. -/
theorem lexemes_append_token {pos : Position} {gap x follow : List Char} {kind : TokenKind}
    {ls : List Lexeme} (hgap : ∀ c ∈ gap, isBlank c = true) (hx : IsToken kind x follow)
    (hmode : modeAfter kind = .code)
    (hls : lexemes .code ((pos.after gap).after x) follow = .ok ls) :
    lexemes .code pos (gap ++ (x ++ follow)) = .ok (⟨gap, kind, x, pos.after gap⟩ :: ls) := by
  obtain ⟨c, t, rfl, hc, hlex⟩ := hx
  have hgapOf : gapOf .code (gap ++ (c :: t ++ follow)) = gap := by
    refine takeWhile_append_stops hgap fun d hd => ?_
    simp only [List.cons_append, List.head?_cons, Option.some.injEq] at hd
    rw [← hd, hc]
  have hdrop : (gap ++ (c :: t ++ follow)).drop gap.length = c :: (t ++ follow) := by simp
  rw [lexemes]
  simp only [hgapOf]
  split
  next h =>
    rw [hgapOf, hdrop] at h
    cases h
  next d r h =>
    rw [hgapOf, hdrop] at h
    cases h
    simp [lexeme, hlex, hmode, hls, bind, Except.bind, pure, Except.pure]

/-- White space alone is the end of a source. -/
theorem lexemes_blank (pos : Position) {gap : List Char} (hgap : ∀ c ∈ gap, isBlank c = true) :
    lexemes .code pos gap = .ok [⟨gap, .eof, [], pos.after gap⟩] := by
  have hgapOf : gapOf .code gap = gap := by
    have h : (gap ++ []).takeWhile isBlank = gap := takeWhile_append_stops hgap (by simp)
    rwa [List.append_nil] at h
  rw [lexemes]
  simp only [hgapOf]
  split
  next => rfl
  next d r h =>
    rw [hgapOf, List.drop_length] at h
    cases h

end ClassEdit.Scan
