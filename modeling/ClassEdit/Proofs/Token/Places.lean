import ClassEdit.Proofs.Reading

/-!
Places in a source. The scanner counts bytes, lines and columns on the way; what it counts at a
place is what stands before the place. Main statements: every lexeme stands where it says, and a
source that cannot be cut into lexemes is refused for a part of it.
-/

namespace ClassEdit

def lastLine (cs : List Char) : List Char :=
  (cs.reverse.takeWhile (· ≠ '\n')).reverse

namespace Position

/-- Behind a text the offset is greater by its bytes. -/
theorem byte_after (p : Position) (cs : List Char) :
    (p.after cs).byte = p.byte + (String.ofList cs).utf8ByteSize := by
  induction cs generalizing p with
  | nil => rfl
  | cons c cs ih =>
    have hstep : (p.step c).byte = p.byte + c.utf8Size := by
      unfold step
      split <;> rfl
    have hafter : p.after (c :: cs) = (p.step c).after cs := rfl
    rw [hafter, ih, hstep]
    simp [Nat.add_assoc]

/-- Behind a text the line is greater by its newlines. -/
theorem line_after (p : Position) (cs : List Char) :
    (p.after cs).line = p.line + cs.count '\n' := by
  induction cs generalizing p with
  | nil => rfl
  | cons c cs ih =>
    have hafter : p.after (c :: cs) = (p.step c).after cs := rfl
    rw [hafter, ih, List.count_cons]
    unfold step
    split
    next hc =>
      rw [if_pos (beq_iff_eq.2 hc), Nat.add_assoc, Nat.add_comm 1]
    next hc => simp [hc]

/-- The column counts the characters of the last line. -/
theorem column_after_start (cs : List Char) :
    (start.after cs).column = 1 + (lastLine cs).length := by
  rw [lastLine, List.length_reverse]
  induction h : cs.reverse generalizing cs with
  | nil =>
    obtain rfl := List.reverse_eq_nil_iff.1 h
    rfl
  | cons c r ih =>
    have hcs : cs = r.reverse ++ [c] := by rw [← List.reverse_reverse cs, h, List.reverse_cons]
    have hrest := ih r.reverse r.reverse_reverse
    rw [hcs, after_append, List.takeWhile_cons]
    change ((start.after r.reverse).step c).column = _
    unfold step
    split
    next hc => simp [hc]
    next hc => simp [hc, hrest, Nat.add_comm]

end Position

/-- The span is a part of the source between two of its characters, and the line and the column are
those of its start, counted from one. -/
structure Span.PointsInto (s : Span) (source : String) : Prop where
  ordered : s.start ≤ s.stop
  bounded : s.stop ≤ source.utf8ByteSize
  startValid : String.Pos.Raw.IsValid source ⟨s.start⟩
  stopValid : String.Pos.Raw.IsValid source ⟨s.stop⟩
  counted : ∃ before behind : String, source = before ++ behind ∧ s.start = before.utf8ByteSize ∧
    s.line = 1 + before.toList.count '\n' ∧ s.column = 1 + (lastLine before.toList).length

/-- The error shows a part of the source, and its very end if it is that the source has ended. -/
structure ParseError.PointsInto (e : ParseError) (source : String) : Prop where
  span : e.span.PointsInto source
  ended : ∀ wanted, e.cause = .ended wanted →
    e.span.start = source.utf8ByteSize ∧ e.span.stop = source.utf8ByteSize

/-- The span is a part of a text that begins at a place. -/
def Span.IsPart (s : Span) (p : Position) (cs : List Char) : Prop :=
  ∃ before part behind, cs = before ++ (part ++ behind) ∧ s = Span.covering (p.after before) part

/-- The lexeme stands in a text that begins at a place. Behind the end of the source nothing
stands. -/
def Lexeme.StandsIn (l : Lexeme) (p : Position) (cs : List Char) : Prop :=
  ∃ before behind, cs = before ++ (l.text ++ behind) ∧ l.start = p.after before ∧
    (l.kind = .eof → l.text = [] ∧ behind = [])

/-- The error shows a part of a text that begins at a place, and is not that the text ends there. -/
structure ParseError.IsLexical (e : ParseError) (p : Position) (cs : List Char) : Prop where
  span : e.span.IsPart p cs
  cause : ∀ wanted, e.cause ≠ .ended wanted

/-- What is counted in characters is right in bytes, since every character is whole. -/
theorem Span.IsPart.pointsInto {s : Span} {source : String} (h : s.IsPart .start source.toList) :
    s.PointsInto source := by
  obtain ⟨before, part, behind, hsource, rfl⟩ := h
  have hstring : source = String.ofList before ++ (String.ofList part ++ String.ofList behind) := by
    rw [← String.ofList_toList (s := source), hsource, String.ofList_append, String.ofList_append]
  have hstart : (Position.start.after before).byte = (String.ofList before).utf8ByteSize := by
    rw [Position.byte_after]
    exact Nat.zero_add _
  have hstop : ((Position.start.after before).after part).byte =
      (String.ofList before ++ String.ofList part).utf8ByteSize := by
    rw [Position.byte_after, hstart, String.utf8ByteSize_append]
  refine ⟨?_, ?_, ?_, ?_, String.ofList before, _, hstring, hstart, ?_, ?_⟩
  · rw [covering, hstart, hstop, String.utf8ByteSize_append]
    exact Nat.le_add_right _ _
  · rw [covering, hstop, hstring, ← String.append_assoc,
      String.utf8ByteSize_append (t := String.ofList behind)]
    exact Nat.le_add_right _ _
  · exact String.Pos.Raw.isValid_iff_exists_append.2
      ⟨_, _, hstring, congrArg String.Pos.Raw.mk hstart⟩
  · exact String.Pos.Raw.isValid_iff_exists_append.2
      ⟨_, _, hstring.trans (String.append_assoc ..).symm, congrArg String.Pos.Raw.mk hstop⟩
  · rw [String.toList_ofList]
    exact Position.line_after _ _
  · rw [String.toList_ofList]
    exact Position.column_after_start _

theorem Lexeme.StandsIn.isPart {l : Lexeme} {p : Position} {cs : List Char} (h : l.StandsIn p cs) :
    l.span.IsPart p cs := by
  obtain ⟨before, behind, hcs, hl, -⟩ := h
  exact ⟨before, l.text, behind, hcs, by rw [span, hl]⟩

/-- The end of a source covers nothing, behind all of it. -/
theorem Lexeme.StandsIn.span_of_eof {l : Lexeme} {source : String}
    (h : l.StandsIn .start source.toList) (hl : l.kind = .eof) :
    l.span.start = source.utf8ByteSize ∧ l.span.stop = source.utf8ByteSize := by
  obtain ⟨before, behind, hcs, hstart, heof⟩ := h
  obtain ⟨htext, rfl⟩ := heof hl
  rw [htext, List.nil_append, List.append_nil] at hcs
  have hbyte : l.start.byte = source.utf8ByteSize := by
    rw [hstart, ← hcs, Position.byte_after, String.ofList_toList]
    exact Nat.zero_add _
  rw [span, htext]
  exact ⟨hbyte, hbyte⟩

theorem ParseError.IsLexical.pointsInto {e : ParseError} {source : String}
    (h : e.IsLexical .start source.toList) : e.PointsInto source :=
  ⟨h.span.pointsInto, fun wanted hw => absurd hw (h.cause wanted)⟩

section Append

variable {p : Position} {a b : List Char}

theorem Span.IsPart.append_left {s : Span} (h : s.IsPart (p.after a) b) : s.IsPart p (a ++ b) := by
  obtain ⟨before, part, behind, rfl, hs⟩ := h
  exact ⟨a ++ before, part, behind, by rw [List.append_assoc], by rw [Position.after_append, hs]⟩

theorem Lexeme.StandsIn.append_left {l : Lexeme} (h : l.StandsIn (p.after a) b) :
    l.StandsIn p (a ++ b) := by
  obtain ⟨before, behind, rfl, hl, heof⟩ := h
  exact ⟨a ++ before, behind, by rw [List.append_assoc], by rw [Position.after_append, hl], heof⟩

theorem ParseError.IsLexical.append_left {e : ParseError} (h : e.IsLexical (p.after a) b) :
    e.IsLexical p (a ++ b) :=
  ⟨h.span.append_left, h.cause⟩

end Append

namespace Scan

variable {p : Position} {c : Char} {r cs : List Char}

theorem isPart_begin (p : Position) {part cs : List Char} (h : part <+: cs) :
    (Span.covering p part).IsPart p cs := by
  obtain ⟨behind, rfl⟩ := h
  exact ⟨[], part, behind, rfl, rfl⟩

theorem isPart_behind (p : Position) {before cs : List Char} (h : before <+: cs) :
    (Span.covering (p.after before) []).IsPart p cs := by
  obtain ⟨behind, rfl⟩ := h
  exact ⟨before, [], behind, rfl, rfl⟩

/-- What comes out satisfies the predicate, and an error shows a part of the text that begins at the
place. -/
def Cuts (p : Position) (cs : List Char) {α : Type} (Q : α → Prop) : Except ParseError α → Prop
  | .ok a => Q a
  | .error e => e.IsLexical p cs

namespace Cuts

variable {α β : Type} {Q : α → Prop} {x : Except ParseError α}

theorem ok {a : α} (h : Q a) : Cuts p cs Q (.ok a) := h

theorem bind {R : β → Prop} {g : α → Except ParseError β} (hx : Cuts p cs Q x)
    (hg : ∀ a, Q a → Cuts p cs R (g a)) : Cuts p cs R (x >>= g) := by
  cases x with
  | error e => exact hx
  | ok a => exact hg a hx

theorem ofKind {kind : TokenKind} {n : Nat} (h : kind ≠ .eof) :
    Cuts p cs (fun x => x.1 ≠ .eof) (.ok (kind, n)) := h

theorem ite {b : Prop} [Decidable b] {y : Except ParseError α} (hx : b → Cuts p cs Q x)
    (hy : ¬b → Cuts p cs Q y) : Cuts p cs Q (if b then x else y) := by
  split
  next h => exact hx h
  next h => exact hy h

theorem append_left {a b : List Char} (h : Cuts (p.after a) b Q x) : Cuts p (a ++ b) Q x := by
  cases x with
  | error e => exact ParseError.IsLexical.append_left h
  | ok a => exact h

theorem of_ok {a : α} (h : Cuts p cs Q x) (hx : x = .ok a) : Q a := by
  subst hx
  exact h

theorem of_error {e : ParseError} (h : Cuts p cs Q x) (hx : x = .error e) : e.IsLexical p cs := by
  subst hx
  exact h

end Cuts

theorem cuts_stringLength (p : Position) (c : Char) (cs : List Char) :
    Cuts p (c :: cs) (fun _ => True) (stringLength p c cs) := by
  unfold stringLength
  split
  next => trivial
  next => exact ⟨isPart_behind p (List.prefix_refl _), nofun⟩
  next => exact ⟨isPart_begin p (List.prefix_refl _), nofun⟩

/-- The error of a heredoc shows a part of it, from its mark on. -/
theorem cuts_heredocLength (p : Position) (cs : List Char) :
    Cuts p ("<<<".toList ++ cs) (fun _ => True) (heredocLength p cs) := by
  have hbegins (n : Nat) : "<<<".toList ++ cs.take n <+: "<<<".toList ++ cs :=
    (List.prefix_append_right_inj _).2 (List.take_prefix n cs)
  unfold heredocLength
  dsimp only
  split
  next => exact ⟨isPart_behind p (hbegins _), nofun⟩
  next =>
    split
    next => exact ⟨isPart_begin p (hbegins _), nofun⟩
    next =>
      split
      next => trivial
      next => exact ⟨isPart_begin p (List.prefix_refl _), nofun⟩

theorem eq_append_of_startsWith {w : String} (h : startsWith w cs = true) :
    cs = w.toList ++ cs.drop w.toList.length := by
  obtain ⟨rest, rfl⟩ := List.isPrefixOf_iff_prefix.1 h
  rw [List.drop_left]

theorem numberExtent_kind_ne (cs : List Char) : (numberExtent cs).1 ≠ .eof := by
  have hdecimal (cs : List Char) : (decimalExtent cs).1 ≠ .eof := by
    have hpair (b : Prop) [Decidable b] : (if b then TokenKind.int else .float) ≠ .eof := by
      split <;> decide
    exact hpair _
  unfold numberExtent
  split
  · split
    · nofun
    · exact hdecimal _
  · exact hdecimal _

theorem operator?_kind_ne {s : String} {kind : TokenKind} (h : operator? cs = some (s, kind)) :
    kind ≠ .eof := by
  have hkinds : ∀ o ∈ operators, o.2 ≠ .eof := by decide
  exact hkinds _ (List.mem_of_find?_eq_some h)

/-- Nothing that begins with a character is the end of the source. -/
theorem cuts_codeLexeme (p : Position) (c : Char) (r : List Char) :
    Cuts p (c :: r) (fun x => x.1 ≠ .eof) (codeLexeme p c r) := by
  unfold codeLexeme
  refine .ite (fun _ => .ofKind (by decide)) fun _ => ?_
  refine .ite (fun _ => .ofKind (by decide)) fun _ => ?_
  refine .ite (fun _ => .ofKind (by decide)) fun _ => ?_
  refine .ite (fun _ => ?comment) fun _ => ?_
  case comment =>
    split
    next => exact .ofKind (by decide)
    next => exact ⟨isPart_begin p (List.take_prefix _ _), nofun⟩
  refine .ite (fun hmark => ?heredoc) fun _ => ?_
  case heredoc =>
    have hcs := eq_append_of_startsWith hmark
    rw [hcs]
    exact (cuts_heredocLength p (r.drop 2)).bind fun _ _ => .ofKind (by decide)
  refine .ite (fun _ => .ofKind (by decide)) fun _ => ?_
  refine .ite (fun _ => .ofKind (by decide)) fun _ => ?_
  refine .ite (fun _ => .ofKind (numberExtent_kind_ne _)) fun _ => ?_
  refine .ite (fun _ => (cuts_stringLength p c r).bind fun _ _ => .ofKind (by decide)) fun _ => ?_
  split
  next hop => exact .ofKind (operator?_kind_ne hop)
  next => exact ⟨isPart_begin p ⟨r, rfl⟩, nofun⟩

theorem cuts_lexeme (mode : Mode) (p : Position) (c : Char) (r : List Char) :
    Cuts p (c :: r) (fun x => x.1 ≠ .eof) (lexeme mode p c r) := by
  cases mode with
  | html =>
    refine .ok ?_
    split <;> simp
  | code => exact cuts_codeLexeme p c r

/-- The text behind the white space that is skipped is cut into the first lexeme and what is behind
it. -/
theorem lexemes_cut {mode : Mode} (hcs : cs.drop (gapOf mode cs).length = c :: r) (n : Nat) :
    cs = gapOf mode cs ++ ((c :: r.take n) ++ r.drop n) := by
  rw [List.cons_append, List.take_append_drop, ← hcs, gapOf_append]

/-- Every lexeme of a source stands where its position says. -/
theorem cuts_lexemes (mode : Mode) (start : Position) (cs : List Char) :
    Cuts start cs (fun ls => ∀ l ∈ ls, l.StandsIn start cs) (lexemes mode start cs) := by
  fun_induction lexemes mode start cs with
  | case1 mode start cs gap here =>
    rename_i hcs
    have hgap : cs = gap ++ [] := by rw [← hcs, gapOf_append]
    exact .ok (List.forall_mem_singleton.2 ⟨gap, [], hgap, rfl, fun _ => ⟨rfl, rfl⟩⟩)
  | case2 mode start cs gap here c r hcs =>
    rename_i ih
    have hcut : cs = gap ++ (c :: r) := by rw [← hcs, gapOf_append]
    have hlexeme := (cuts_lexeme mode here c r).append_left
    rw [← hcut] at hlexeme
    refine hlexeme.bind ?_
    rintro ⟨kind, n⟩ hkind
    have hmore := (ih kind n).append_left.append_left
    rw [← lexemes_cut hcs n] at hmore
    refine hmore.bind fun more hmore => .ok ?_
    refine List.forall_mem_cons.2 ⟨⟨gap, r.drop n, lexemes_cut hcs n, rfl, (absurd · hkind)⟩,
      fun l hl => ?_⟩
    have hl := (hmore l hl).append_left.append_left
    rwa [← lexemes_cut hcs n] at hl

end Scan

end ClassEdit
