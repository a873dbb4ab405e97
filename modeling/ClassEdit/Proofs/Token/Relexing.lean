import ClassEdit.Proofs.Token.Literals
import Mathlib.Data.List.Forall2

/-!
A part of a source that was moved left, cut into lexemes again where it stands before another text.
Main statement: the lexemes are the same but for what those that go over several lines lose; a text
outside of the tags that was nothing but a carriage return is gone.
-/

namespace ClassEdit

namespace Lexeme

/-- The same lexemes one by one, but for text outside of the tags that may be gone at the end. A
comment on the line of the lexeme before it stays there. The flag says that a lexeme is before the
first, and no comment. -/
inductive Alike : Bool → List Lexeme → List Lexeme → Prop where
  | nil (flag : Bool) : Alike flag [] []
  | cons {flag : Bool} {l l' : Lexeme} {ls ls' : List Lexeme} (h : l.Same l')
      (line : flag = true → l.kind = .comment → l'.isOnNewLine = l.isOnNewLine)
      (hs : Alike (l.kind != .comment) ls ls') : Alike flag (l :: ls) (l' :: ls')
  | gone {l e : Lexeme} {ls' : List Lexeme} (hl : l.kind = .html) (he : e.kind ≠ .comment)
      (h : Alike true [e] ls') :
      Alike true [l, e] ls'

theorem Alike.exists_cons {flag : Bool} {l : Lexeme} {ls ms : List Lexeme}
    (h : Alike flag (l :: ls) ms) (hl : l.kind ≠ .html) : ∃ l' ms', ms = l' :: ms' ∧ l.Same l' := by
  cases h with
  | cons h _ _ => exact ⟨_, _, rfl, h⟩
  | gone hhtml => exact absurd hhtml hl

end Lexeme

namespace Scan

variable {follow d x out : List Char} {kind : TokenKind} {b mid : Bool}

section Tokens

/-- Blanks behind a token that is moved left do not begin a line. -/
theorem IsToken.state (h : IsToken kind x d)
    (hmoved : MovedLeft follow b (x.map (·, kind.isLiteral)) out mid) :
    mid = false := by
  obtain ⟨c, t, rfl, hc, hl⟩ := h
  rw [List.map_cons] at hmoved
  obtain ⟨out, rfl, hrest⟩ := hmoved.of_cons hc
  cases hkind : kind.spansLines with
  | false =>
    have hplain := (cutsOff_codeLexeme (hl .start) hkind).plain
    rw [List.take_left] at hplain
    exact (hrest.eq_of_plain hplain).2
  | true =>
    obtain ⟨t', d', hr, hn, hspans⟩ := spans_of_codeLexeme (hl .start) hkind
    obtain ⟨rfl, rfl⟩ := List.append_inj hr hn
    exact hspans.state hrest

/-- What is left of a token is one of the same kind. -/
theorem IsToken.movedLeft (h : IsToken kind x d)
    (hmoved : MovedLeft follow b (x.map (·, kind.isLiteral)) out mid)
    (hahead : Ahead kind d follow) :
    IsToken kind out follow ∧ (kind.spansLines = false → out = x) := by
  obtain ⟨c, t, rfl, hc, hl⟩ := h
  rw [List.map_cons] at hmoved
  obtain ⟨out, rfl, hrest⟩ := hmoved.of_cons hc
  cases hkind : kind.spansLines with
  | false =>
    have hcuts := cutsOff_codeLexeme (hl .start) hkind
    have hplain := hcuts.plain
    rw [List.take_left] at hplain
    obtain ⟨rfl, -⟩ := hrest.eq_of_plain hplain
    exact ⟨⟨c, out, rfl, hc, hcuts.same (hahead.sameBefore out)⟩, fun _ => rfl⟩
  | true =>
    obtain ⟨t', d', hr, hn, hspans⟩ := spans_of_codeLexeme (hl .start) hkind
    obtain ⟨rfl, rfl⟩ := List.append_inj hr hn
    obtain rfl := hspans.state hrest
    exact ⟨⟨c, out, rfl, hc, (hspans.movedLeft hrest hahead).codeLexeme⟩, nofun⟩

end Tokens

section Tags

theorem toLower_of_isBlank {c : Char} (h : isBlank c = true) : c.toLower = c := by
  unfold Char.toLower
  split
  next hc =>
    have hlower : 65 ≤ c.toNat := hc.1
    have hupper : c.toNat ≤ 90 := hc.2
    simp [isBlank] at h
    omega
  next => rfl

theorem isBlank_of_openTag {cs : List Char} (h : atOpenTag cs = true) :
    ∀ c ∈ cs.take 5, isBlank c = false := by
  intro c hc
  have hmem := List.mem_map_of_mem (f := Char.toLower) hc
  rw [eq_of_beq (Bool.and_eq_true_iff.1 h).1] at hmem
  cases hblank : isBlank c with
  | false => rfl
  | true =>
    rw [toLower_of_isBlank hblank] at hmem
    have hletters : ∀ d ∈ "<?php".toList, isBlank d = false := by simp [isBlank]
    exact hblank.symm.trans (hletters c hmem)

theorem atOpenTag_append (hx : x.length = 5) (d : List Char) :
    atOpenTag (x ++ d) = (x.map Char.toLower == "<?php".toList && d.head?.all isBlank) := by
  have htake : (x ++ d).take 5 = x := hx ▸ List.take_left
  have hnext : (x ++ d)[5]? = d.head? := by
    rw [← hx, List.getElem?_append_right (Nat.le_refl _), Nat.sub_self, List.head?_eq_getElem?]
  rw [atOpenTag, htake, hnext]

theorem not_atLineEnd_of_atOpenTag {cs : List Char} (h : atOpenTag cs = true) : ¬AtLineEnd cs := by
  intro hend
  cases cs with
  | nil => cases h
  | cons c cs =>
    obtain rfl := hend c rfl
    cases isBlank_of_openTag h _ (List.mem_cons_self)

/-- An opening tag loses nothing. -/
theorem eq_of_movedLeft_openTag (hx : x.length = 5) (h : atOpenTag (x ++ d) = true)
    (hmoved : MovedLeft follow b (x.map (·, false)) out mid) : out = x ∧ mid = false := by
  have hblank := isBlank_of_openTag h
  rw [show (x ++ d).take 5 = x from hx ▸ List.take_left] at hblank
  obtain ⟨c, t, rfl⟩ := List.exists_cons_of_length_eq_add_one hx
  obtain ⟨hc, ht⟩ := List.forall_mem_cons.1 hblank
  obtain ⟨out, rfl, hrest⟩ := hmoved.of_cons hc
  have hplain : ∀ c ∈ t, c ≠ '\r' ∧ c ≠ '\n' := by
    intro c hc
    have hne := ht c hc
    constructor <;>
    · rintro rfl
      cases hne
  obtain ⟨rfl, hmid⟩ := hrest.eq_of_plain hplain
  exact ⟨rfl, hmid⟩

end Tags

namespace Begins

variable {mode : Mode}

/-- Behind a lexeme that is no text outside of the tags no line begins. -/
theorem state (h : Begins mode kind x d) (hkind : mode = .html → kind ≠ .html)
    (hmoved : MovedLeft follow b (x.map (·, kind.isLiteral)) out mid) : mid = false := by
  cases mode with
  | code => exact (begins_code_iff.1 h).state hmoved
  | html =>
    rcases begins_html_iff.1 h with ⟨rfl, hlength, htag⟩ | ⟨hhtml, -⟩
    · exact (eq_of_movedLeft_openTag hlength htag hmoved).2
    · exact absurd hhtml (hkind rfl)

/-- What begins a text begins it still when it is moved left, and it is the same if it stays on its
line. -/
theorem movedLeft (h : Begins mode kind x d) (hkind : mode = .html → kind ≠ .html)
    (hmoved : MovedLeft follow b (x.map (·, kind.isLiteral)) out mid)
    (hahead : Ahead kind d follow) :
    Begins mode kind out follow ∧ (kind.spansLines = false → out = x) := by
  cases mode with
  | code =>
    obtain ⟨htoken, htext⟩ := (begins_code_iff.1 h).movedLeft hmoved hahead
    exact ⟨begins_code_iff.2 htoken, htext⟩
  | html =>
    rcases begins_html_iff.1 h with ⟨rfl, hlength, htag⟩ | ⟨hhtml, -⟩
    · obtain ⟨rfl, -⟩ := eq_of_movedLeft_openTag hlength htag hmoved
      refine ⟨begins_html_iff.2 (.inl ⟨rfl, hlength, ?_⟩), fun _ => rfl⟩
      rw [atOpenTag_append hlength] at htag ⊢
      rcases hahead.head?_eq with hend | hsame
      · refine Bool.and_eq_true_iff.2 ⟨(Bool.and_eq_true_iff.1 htag).1, ?_⟩
        cases hfollow : follow.head? with
        | none => rfl
        | some c =>
          rw [hend c hfollow]
          rfl
      · rw [hsame]
        exact htag
    · exact absurd hhtml (hkind rfl)

end Begins

/-- Lexemes before others, and the lexemes that a text with the same beginning is cut into. -/
structure Again (flag : Bool) (ls behind : List Lexeme) (cs : List Char)
    (ls' behind' : List Lexeme) : Prop where
  alike : Lexeme.Alike flag (ls ++ behind) (ls' ++ behind')
  literals : List.Forall₂ LosesReturns (Lexeme.literals ls) (Lexeme.literals ls')
  source : ls'.flatMap Lexeme.source = cs
  length : ls'.length = ls.length ∨ behind.length = 1

/-- Where a part of a source can end that is moved left before `follow`. -/
structure Boundary (follow : List Char) (last : Lexeme) (behind : List Lexeme) : Prop where
  outside : modeAfter last.kind = .html → behind.length = 1 ∧ follow = []
  group : last.kind = .word → ∀ l ∈ behind.head?, l.kind ≠ .leftBrace

section Ahead

variable {p : Position} {l : Lexeme} {ls behind : List Lexeme} {right : List Char} {b' : Bool}

theorem head?_ne_leftBrace (h : Scanned .code p d (l :: ls)) (hl : l.kind ≠ .leftBrace) :
    d.head? ≠ some '\x7b' := by
  intro hd
  obtain ⟨d, rfl⟩ := List.head?_eq_some_iff.1 hd
  exact hl (Scanned.eq_of_isToken h (isToken_leftBrace d)).1

theorem Boundary.ahead (h : Boundary follow l behind)
    (hbehind : Scanned (modeAfter l.kind) p d behind) (hfollow : AtLineEnd follow) :
    Ahead l.kind d follow where
  line := by
    refine ⟨[], d, follow, rfl, rfl, hfollow, fun hkind _ => ?_⟩
    obtain ⟨l', ls, rfl⟩ := List.exists_cons_of_ne_nil hbehind.ne_nil
    rw [hkind] at hbehind
    exact head?_ne_leftBrace hbehind (h.group hkind l' rfl)
  tag _ _ := .inl hfollow

theorem startsWith_of_sameLine {line e : List Char} (hline : startsWith "?>" (line ++ e) = true)
    (he : AtBreak e) (e' : List Char) : line = [] ∨ startsWith "?>" (line ++ e') = true := by
  have hbreak (c : Char) (hc : e.head? = some c) : c ≠ '?' ∧ c ≠ '>' := by
    rcases he c hc with rfl | rfl <;> decide
  obtain ⟨t, ht⟩ := List.isPrefixOf_iff_prefix.1 hline
  have htag : '?' :: '>' :: t = line ++ e := ht
  rcases line with - | ⟨c, - | ⟨c', line⟩⟩
  · exact .inl rfl
  · obtain rfl : '>' :: t = e := (List.cons.inj htag).2
    exact absurd rfl (hbreak '>' rfl).2
  · obtain ⟨rfl, hrest⟩ := List.cons.inj htag
    obtain ⟨rfl, -⟩ := List.cons.inj hrest
    exact .inr rfl

/-- What is behind a lexeme inside of a part is moved left with it. -/
theorem ahead_of_movedLeft (h : Scanned (modeAfter kind) p d (l :: ls ++ behind))
    (hbehind : behind ≠ []) (hmoved : MovedLeft follow false ((l :: ls).flatMap Lexeme.markedSource)
      right b') (hfollow : AtLineEnd follow) :
    Ahead kind d (right ++ follow) := by
  obtain ⟨line, e, e', hpart, rfl, -, hbreak, hnil, hend⟩ := hmoved.sameLine
  rw [Lexeme.map_fst_markedSource] at hpart
  have hsource := h.source
  rw [List.flatMap_append, hpart, List.append_assoc] at hsource
  have hrest : AtLineEnd (e' ++ follow) := by
    by_cases he : e = []
    · rw [hnil he]
      exact hfollow
    · exact hend he
  obtain ⟨-, -, -, ⟨c, t, htext, -⟩, -⟩ := h.uncons (by simp [hbehind])
  refine ⟨⟨line, _, _, hsource.symm, List.append_assoc _ _ _, hrest, fun _ hline => ?_⟩,
    fun hkind htag => ?_⟩
  · have hne : e ≠ [] := by
      rintro rfl
      rw [hline] at hpart
      simp [Lexeme.source, htext] at hpart
    rw [← hsource, hline]
    intro hbrace
    rcases hbreak.append hne _ _ hbrace with heq | heq <;> cases heq
  · rw [hkind] at h
    obtain ⟨t, rfl⟩ := List.isPrefixOf_iff_prefix.1 htag
    have htoken : IsToken .closeTag "?>".toList t := ⟨'?', ['>'], rfl, rfl, fun _ => rfl⟩
    obtain ⟨-, hl⟩ := h.eq_of_isToken htoken
    rw [List.flatMap_cons, hl] at hpart
    have hstarts : startsWith "?>" (line ++ e) = true := by
      rw [← hpart]
      exact List.isPrefixOf_iff_prefix.2 (List.prefix_append _ _)
    rcases startsWith_of_sameLine hstarts hbreak (e' ++ follow) with hline | hline
    · rw [hline]
      exact .inl hrest
    · rw [List.append_assoc]
      exact .inr hline

end Ahead

/-- A text is cut into lexemes like the given ones, and behind them into good ones, wherever it
stands. -/
def Relexes (mode : Mode) (flag : Bool) (ls behind : List Lexeme) (cs follow : List Char)
    (good : List Lexeme → Prop) : Prop :=
  ∀ p, ∃ ls' behind', Scanned mode p (cs ++ follow) (ls' ++ behind') ∧
    Again flag ls behind cs ls' behind' ∧
    good behind'

section Relexes

variable {mode : Mode} {flag : Bool} {p : Position} {l l₂ : Lexeme} {ls behind : List Lexeme}
  {cs gap left right : List Char} {b' : Bool} {good : List Lexeme → Prop}

/-- A lexeme before others that are found again is found again too. -/
theorem Relexes.push (hgap : IsGap mode gap) (hline : flag = true → l.kind = .comment →
    ('\n' ∈ gap ↔ '\n' ∈ l.gap)) (hbegins : Begins mode l.kind left (right ++ follow)) (htext :
      l.kind.spansLines = false → left = l.text)
    (hliteral : l.kind.isLiteral = true → LosesReturns l.text left)
    (htail : Relexes (modeAfter l.kind) (l.kind != .comment) ls behind right follow good) :
    Relexes mode flag (l :: ls) behind (gap ++ (left ++ right)) follow good := by
  intro p
  obtain ⟨ls', behind', hscanned, hagain, hgood⟩ := htail ((p.after gap).after left)
  refine ⟨⟨gap, l.kind, left, p.after gap⟩ :: ls', behind', ?_, ⟨?_, ?_, ?_, ?_⟩, hgood⟩
  · rw [List.append_assoc, List.append_assoc]
    exact .cons hgap hbegins hscanned
  · refine .cons ⟨rfl, htext⟩ (fun hflag hkind => ?_) hagain.alike
    rw [Lexeme.isOnNewLine, Lexeme.isOnNewLine, Bool.eq_iff_iff, List.contains_iff_mem,
      List.contains_iff_mem]
    exact hline hflag hkind
  · rw [Lexeme.literals_cons, Lexeme.literals_cons]
    split
    next hkind => exact .cons (hliteral hkind) hagain.literals
    next => exact hagain.literals
  · rw [List.flatMap_cons, hagain.source, Lexeme.source, List.append_assoc]
  · exact hagain.length.imp_left (congrArg (· + 1))

/-- Behind text outside of the tags comes an opening tag. -/
theorem openTag_of_html {x d : List Char} (hx : Begins .html .html x d)
    (h : Scanned .html p d (l :: ls)) (hne : ls ≠ []) :
    l.kind = .openTag ∧ l.text.length = 5 ∧ ∃ d', d = l.text ++ d' := by
  obtain ⟨d', rfl, hgap, hl, -⟩ := h.uncons hne
  rw [show l.gap = [] from hgap, List.nil_append] at hx ⊢
  rcases begins_html_iff.1 hl with ⟨hkind, hlength, -⟩ | ⟨-, htext, hhtml⟩
  · exact ⟨hkind, hlength, d', rfl⟩
  · obtain ⟨c, t, ht⟩ := List.exists_cons_of_ne_nil htext
    rw [ht] at hx hhtml
    rcases begins_html_iff.1 hx with ⟨hopen, -⟩ | ⟨-, -, hends⟩
    · cases hopen
    · rcases ends_of_htmlLength hends with hnil | htag
      · cases hnil
      · rw [List.cons_append, htmlLength, ← List.cons_append, if_pos htag] at hhtml
        cases hhtml

/-- A lexeme that is moved left, before others. -/
theorem Relexes.cons (hx : Begins mode l.kind l.text d)
    (hd : Scanned (modeAfter l.kind) p d (ls ++ behind)) (hbehind : behind ≠ [])
    (hflag : mode = .html → flag = true) (hgap : IsGap mode gap)
    (hline : flag = true → l.kind = .comment → ('\n' ∈ gap ↔ '\n' ∈ l.gap))
    (hb : mode = .html → l.kind = .html → b = false)
    (hleft : MovedLeft (right ++ follow) b l.marked left mid)
    (hahead : mid = false → Ahead l.kind d (right ++ follow))
    (hends : mode = .html → l.kind = .html → Outside d (right ++ follow))
    (htail : Relexes (modeAfter l.kind) (l.kind != .comment) ls behind right follow good) :
    Relexes mode flag (l :: ls) behind (gap ++ (left ++ right)) follow good := by
  by_cases hhtml : mode = .html ∧ l.kind = .html
  · obtain ⟨rfl, hkind⟩ := hhtml
    obtain rfl := hb rfl hkind
    obtain rfl := hflag rfl
    have hends := hends rfl hkind
    rw [Lexeme.marked, hkind] at hleft
    rw [hkind] at hx
    rcases begins_html_iff.1 hx with ⟨hopen, -⟩ | ⟨-, htext, hlength⟩
    · cases hopen
    by_cases hgone : left = []
    · subst hgone
      obtain rfl : gap = [] := hgap
      generalize hrest : right ++ follow = rest at hends hleft
      cases hends with
      | eof =>
        obtain ⟨e, hone, heof⟩ := hd.eq_of_nil
        obtain ⟨rfl, rfl⟩ : ls = [] ∧ behind = [e] := by
          rcases List.append_eq_singleton_iff.1 hone with hparts | ⟨-, hnil⟩
          · exact hparts
          · exact absurd hnil hbehind
        have he : e.kind ≠ .comment := by rw [heof]; decide
        have hliterals : Lexeme.literals [l] = [] :=
          Lexeme.literals_of_plain (by simp [hkind, TokenKind.isLiteral])
        intro p
        obtain ⟨ls', behind', hscanned, hagain, hgood⟩ := htail p
        rw [hkind] at hscanned hagain
        exact ⟨ls', behind', hscanned, ⟨.gone hkind he hagain.alike, hliterals ▸ hagain.literals,
          hagain.source, .inr rfl⟩, hgood⟩
      | tag _ htag =>
        obtain ⟨c, t, ht⟩ := List.exists_cons_of_ne_nil htext
        rw [ht, List.map_cons] at hleft
        cases hleft with
        | trim hend => exact absurd hend (not_atLineEnd_of_atOpenTag htag)
    · have hbegins : Begins .html l.kind left (right ++ follow) := begins_html_iff.2
        (.inr ⟨hkind, hgone, htmlLength_movedLeft hleft hlength hends⟩)
      refine .push hgap hline hbegins (fun hspans => ?_) (fun hliteral => ?_) htail
      · rw [hkind] at hspans
        cases hspans
      · rw [hkind] at hliteral
        cases hliteral
  · rw [not_and] at hhtml
    obtain rfl := hx.state hhtml hleft
    obtain ⟨hbegins, htext⟩ := hx.movedLeft hhtml hleft (hahead rfl)
    refine .push hgap hline hbegins htext (fun hliteral => ?_) htail
    rw [Lexeme.marked, hliteral] at hleft
    exact hx.losesReturns hliteral hleft

/-- What is left of a part of a source is cut into the same lexemes, where it stands
before a text that is. -/
theorem relexes_movedLeft (h : Scanned mode p cs (l :: ls ++ behind)) (hbehind : behind ≠ [])
    (hlast : ∀ last ∈ (l :: ls).getLast?, Boundary follow last behind ∧
      Relexes (modeAfter last.kind) (last.kind != .comment) [] behind [] follow good)
    (hfollow : AtLineEnd follow) (hflag : mode = .html → flag = true) (hgap : IsGap mode gap)
    (hline : flag = true → l.kind = .comment → ('\n' ∈ gap ↔ '\n' ∈ l.gap))
    (hb : mode = .html → l.kind = .html → b = false)
    (hmoved : MovedLeft follow b (l.marked ++ ls.flatMap Lexeme.markedSource) out b') :
    Relexes mode flag (l :: ls) behind (gap ++ out) follow good := by
  induction ls generalizing mode flag p cs l gap b out with
  | nil =>
    obtain ⟨hboundary, hrest⟩ := hlast l rfl
    obtain ⟨d, -, -, hx, hd⟩ := h.uncons hbehind
    rw [List.flatMap_nil, List.append_nil] at hmoved
    rw [← List.append_nil out]
    have hends (hmode : mode = .html) (hkind : l.kind = .html) : Outside d follow := by
      rw [hkind] at hd
      obtain ⟨hone, rfl⟩ := hboundary.outside (by rw [hkind]; rfl)
      obtain ⟨e, rfl⟩ := List.length_eq_one_iff.1 hone
      cases hd with
      | eof _ hgap =>
        obtain rfl : d = [] := hgap
        exact .eof
      | cons _ _ hd => exact absurd rfl hd.ne_nil
    exact .cons hx hd hbehind hflag hgap hline hb hmoved (fun _ => hboundary.ahead hd hfollow)
      hends hrest
  | cons l₂ ls ih =>
    obtain ⟨d, -, -, hx, hd⟩ := h.uncons (by simp)
    obtain ⟨left, right, mid, rfl, hleft, hright⟩ := hmoved.of_append
    have hparts : (l₂ :: ls).flatMap Lexeme.markedSource =
        l₂.gap.map (·, false) ++ (l₂.marked ++ ls.flatMap Lexeme.markedSource) := by
      rw [List.flatMap_cons, Lexeme.markedSource, List.append_assoc]
    have hsecond := hright
    rw [hparts] at hsecond
    obtain ⟨gap₂, out₂, b₂, rfl, hgap₂, hout₂⟩ := hsecond.of_append
    obtain ⟨d₂, -, hblank, -, -⟩ := hd.uncons (by simp [hbehind])
    have htag (hmode : mode = .html) (hkind : l.kind = .html) := by
      rw [hmode, hkind] at hx
      rw [hkind] at hd
      exact openTag_of_html hx hd (by simp [hbehind])
    have hstate : modeAfter l.kind = .html → l₂.kind = .html → b₂ = false := by
      intro hmode hkind
      by_cases hhtml : mode = .html ∧ l.kind = .html
      · obtain ⟨hopen, -⟩ := htag hhtml.1 hhtml.2
        cases hopen.symm.trans hkind
      · rw [not_and] at hhtml
        rw [hmode] at hblank
        rw [show l₂.gap = [] from hblank] at hgap₂
        cases hgap₂
        exact hx.state hhtml hleft
    have hflag₂ : modeAfter l.kind = .html → (l.kind != .comment) = true := by
      cases hkind : l.kind <;> simp [modeAfter]
    have hgapLeft : IsGap (modeAfter l.kind) gap₂ := by
      have hsublist := hgap₂.sublist
      rw [List.map_map, Function.comp_def, List.map_id'] at hsublist
      exact hblank.sublist hsublist
    have hnewline : '\n' ∈ gap₂ ↔ '\n' ∈ l₂.gap := by
      have hmem := hgap₂.mem_newline_iff
      simpa [Function.comp_def] using hmem
    have htail : Relexes (modeAfter l.kind) (l.kind != .comment) (l₂ :: ls) behind
        (gap₂ ++ out₂) follow good :=
      ih hd hlast hflag₂ hgapLeft (fun _ _ => hnewline) hstate hout₂
    refine .cons hx hd hbehind hflag hgap hline hb hleft (fun hmid => ?_)
      (fun hmode hkind => ?_) htail
    · subst hmid
      exact ahead_of_movedLeft hd hbehind hright hfollow
    · obtain ⟨hopen, hlength, d', rfl⟩ := htag hmode hkind
      obtain ⟨ls', behind', hscanned, hagain, -⟩ := htail .start
      obtain ⟨l', ms, hms, hsame⟩ := hagain.alike.exists_cons (by rw [hopen]; decide)
      rw [hms, hkind] at hscanned
      obtain ⟨hatTag, d₃, hrest⟩ := hscanned.openTag (hsame.kind.trans hopen)
      rw [hsame.text (by rw [hopen]; rfl)] at hrest
      rw [hrest] at hatTag ⊢
      exact .tag hlength hatTag

end Relexes

end Scan

end ClassEdit
