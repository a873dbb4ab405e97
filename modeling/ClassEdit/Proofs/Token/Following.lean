import ClassEdit.Proofs.Token.Relexing

/-!
Code with other code behind it. What a lexeme is depends on the text behind it up to the end of its
line only, and what of a lexeme goes into the text of a part does not depend on the lines before.
Main statement: code that ends with a line has the same lexemes before other code, and the lexemes
of that code come behind them.
-/

namespace ClassEdit

/-- A text need not be moved. -/
theorem MovedLeft.self (follow : List Char) (cs : List MarkedChar) :
    MovedLeft follow false cs (cs.map (·.1)) false := by
  induction cs with
  | nil => exact .nil false
  | cons x cs ih =>
    obtain ⟨c, mark⟩ := x
    by_cases hc : c = '\n'
    · subst hc
      have hmark : false = true → mark = false := nofun
      exact .newline hmark ih
    · exact .keep hc ih

theorem MovedLeft.refl (follow t : List Char) (mark : Bool) :
    MovedLeft follow false (t.map (·, mark)) t false := by
  have hself := MovedLeft.self follow (t.map (·, mark))
  rwa [List.map_map, Function.comp_def, List.map_id'] at hself

theorem TokenKind.spansLines_eq (k : TokenKind) :
    k.spansLines = (k == .html || k == .comment || k.isLiteral) := by
  cases k <;> rfl

namespace Scan

variable {d d' x : List Char} {kind : TokenKind} {mode : Mode}

/-- Two texts that are the same up to the end of a line. -/
def SameLine (d d' : List Char) : Prop :=
  ∃ line e e', d = line ++ e ∧ d' = line ++ e' ∧ AtLineEnd e ∧ AtLineEnd e' ∧ (e = [] → e' = [])

namespace SameLine

theorem of_mem (h : '\n' ∈ d) (ds : List Char) : SameLine d (d ++ ds) := by
  obtain ⟨line, e, rfl⟩ := List.append_of_mem h
  refine ⟨line, '\n' :: e, '\n' :: e ++ ds, rfl, List.append_assoc _ _ _, ?_, ?_, nofun⟩
  · exact fun c hc => (Option.some.inj hc).symm
  · exact fun c hc => (Option.some.inj hc).symm

theorem ahead (h : SameLine d d') (kind : TokenKind) : Ahead kind d d' := by
  obtain ⟨line, e, e', rfl, rfl, he, he', -⟩ := h
  refine ⟨⟨line, e, e', rfl, rfl, he', fun _ hline => ?_⟩, fun _ htag => ?_⟩
  · rw [hline]
    intro hbrace
    cases he _ hbrace
  · rcases startsWith_of_sameLine htag he.atBreak e' with rfl | hsame
    · exact .inl he'
    · exact .inr hsame

/-- An opening tag does not go over the end of a line. -/
theorem atOpenTag (h : SameLine d d') (x : List Char) :
    Scan.atOpenTag (x ++ d') = Scan.atOpenTag (x ++ d) := by
  obtain ⟨line, e, e', rfl, rfl, he, he', -⟩ := h
  rw [← List.append_assoc, ← List.append_assoc, atOpenTag_append_atBreak he.atBreak,
    atOpenTag_append_atBreak he'.atBreak]

theorem eq_nil (h : SameLine [] d') : d' = [] := by
  obtain ⟨line, e, e', hd, rfl, -, -, hnil⟩ := h
  obtain ⟨rfl, rfl⟩ := List.append_eq_nil_iff.1 hd.symm
  exact hnil rfl

/-- Text outside of the tags goes up to the same tag, or up to the end. -/
theorem htmlLength (h : SameLine d d') (hx : Scan.htmlLength (x ++ d) = x.length) :
    Scan.htmlLength (x ++ d') = x.length := by
  induction x with
  | nil =>
    rcases ends_of_htmlLength hx with rfl | htag
    · rw [h.eq_nil]
      rfl
    · have htag' : Scan.atOpenTag d' = true := (h.atOpenTag []).trans htag
      cases d' with
      | nil => rfl
      | cons c d' => exact if_pos htag'
  | cons c x ih =>
    obtain ⟨htag, hrest⟩ := htmlLength_eq_succ.1 hx
    exact htmlLength_eq_succ.2 ⟨(h.atOpenTag (c :: x)).trans htag, ih hrest⟩

end SameLine

/-- A lexeme begins a text still, if what is behind it is the same up to the end of a line. -/
theorem Begins.follow (h : Begins mode kind x d) (hd : SameLine d d') : Begins mode kind x d' := by
  by_cases hhtml : mode = .html ∧ kind = .html
  · obtain ⟨rfl, rfl⟩ := hhtml
    rcases begins_html_iff.1 h with ⟨hopen, -⟩ | ⟨hkind, hne, hlength⟩
    · cases hopen
    · exact begins_html_iff.2 (.inr ⟨hkind, hne, hd.htmlLength hlength⟩)
  · rw [not_and] at hhtml
    exact (h.movedLeft hhtml (MovedLeft.refl d' x kind.isLiteral) (hd.ahead kind)).1

theorem IsToken.not_mem (h : IsToken kind x d) (hkind : kind.spansLines = false) : '\n' ∉ x := by
  obtain ⟨c, t, rfl, hc, hl⟩ := h
  have hplain := (cutsOff_codeLexeme (hl .start) hkind).plain
  rw [List.take_left] at hplain
  rw [List.mem_cons, not_or]
  constructor
  · rintro rfl
    cases hc
  · exact fun hmem => (hplain _ hmem).2 rfl

/-- Nothing but a literal and text outside of the tags can end with the end of a line. -/
theorem Begins.getLast?_ne (h : Begins mode kind x d) (hkind : kind ≠ .html)
    (hliteral : kind.isLiteral = false) :
    x.getLast? ≠ some '\n' := by
  have hnot (hmem : '\n' ∉ x) : x.getLast? ≠ some '\n' :=
    fun hlast => hmem (List.mem_of_getLast? hlast)
  cases mode with
  | html =>
    rcases begins_html_iff.1 h with ⟨-, hlength, htag⟩ | ⟨hhtml, -⟩
    · refine hnot fun hmem => ?_
      have hblank := isBlank_of_openTag htag
      rw [show (x ++ d).take 5 = x from hlength ▸ List.take_left] at hblank
      cases hblank _ hmem
    · exact absurd hhtml hkind
  | code =>
    have htoken := begins_code_iff.1 h
    cases hspans : kind.spansLines with
    | false => exact hnot (htoken.not_mem hspans)
    | true =>
      obtain ⟨c, t, rfl, hc, hl⟩ := htoken
      obtain ⟨t', e, hr, hn, hspans⟩ := spans_of_codeLexeme (hl .start) hspans
      obtain ⟨rfl, rfl⟩ := List.append_inj hr hn
      cases hspans with
      | line _ ht =>
        refine hnot fun hmem => ?_
        rcases List.mem_cons.1 hmem with rfl | hmem
        · cases hc
        · exact not_mem_of_lineCommentLength ht hmem
      | block ht =>
        obtain ⟨t, rfl⟩ := ends_of_blockCommentLength? ht
        rw [← List.cons_append, ← List.cons_append, List.getLast?_concat]
        nofun
      | heredoc => cases hliteral
      | quoted => cases hliteral

end Scan

namespace Position

structure SameMargin (p q : Position) : Prop where
  margin : q.margin = p.margin
  inMargin : q.inMargin = p.inMargin

namespace SameMargin

variable {p q : Position}

/-- Positions with the same margin have the same margin behind a character. -/
theorem step (h : SameMargin p q) (c : Char) : SameMargin (p.step c) (q.step c) := by
  unfold Position.step
  split
  next => exact ⟨rfl, rfl⟩
  next =>
    constructor
    · dsimp only
      rw [h.margin, h.inMargin]
    · dsimp only
      rw [h.inMargin]

theorem after (h : SameMargin p q) (cs : List Char) : SameMargin (p.after cs) (q.after cs) := by
  induction cs generalizing p q with
  | nil => exact h
  | cons c cs ih => exact ih (h.step c)

/-- A line begins behind a newline as a source begins. -/
theorem of_newline {cs : List Char} (h : cs.getLast? = some '\n') (p : Position) :
    SameMargin .start (p.after cs) := by
  obtain ⟨cs, rfl⟩ := List.getLast?_eq_some_iff.1 h
  rw [after_append]
  exact ⟨rfl, rfl⟩

end SameMargin

end Position

namespace Lexeme

def content (l : Lexeme) : List Char × TokenKind × List Char × Nat :=
  (l.gap, l.kind, l.text, l.start.margin)

theorem same_of_content {l l' : Lexeme} (h : l'.content = l.content) : l.Same l' := by
  simp only [content, Prod.mk.injEq] at h
  exact ⟨h.2.1, fun _ => h.2.2.1⟩

theorem alike_of_content {ls ls' : List Lexeme} (h : ls'.map content = ls.map content)
    (flag : Bool) :
    Alike flag ls ls' := by
  induction ls generalizing ls' flag with
  | nil =>
    obtain rfl := List.map_eq_nil_iff.1 h
    exact .nil flag
  | cons l ls ih =>
    obtain ⟨l', ls', rfl, hl, hls⟩ := List.map_eq_cons_iff.1 h
    refine .cons (same_of_content hl) (fun _ _ => ?_) (ih hls _)
    rw [isOnNewLine, isOnNewLine, show l'.gap = l.gap from congrArg Prod.fst hl]

/-- The text of a part does not depend on the white space before it. -/
theorem excerpt_congr {l l' : Lexeme} {ls ls' : List Lexeme} (hl : l'.content.2 = l.content.2)
    (hls : ls'.map content = ls.map content) : excerpt (l' :: ls') = excerpt (l :: ls) := by
  simp only [content, Prod.mk.injEq] at hl
  obtain ⟨hkind, htext, hmargin⟩ := hl
  have hsource (ls : List Lexeme) : ls.flatMap markedSource = (ls.map content).flatMap fun x =>
      x.1.map (·, false) ++ x.2.2.1.map (·, x.2.1.isLiteral) := by
    rw [List.flatMap_map]
    rfl
  rw [excerpt, excerpt, hsource, hls, ← hsource, hmargin, marked, marked, hkind, htext]

def behindGap (gap : List Char) (l : Lexeme) : Lexeme := { l with gap := gap ++ l.gap }

end Lexeme

namespace Scan

open Lexeme (content behindGap)
open Position (SameMargin)

namespace Scanned

variable {mode : Mode} {p q : Position} {cs ds gap : List Char} {e l : Lexeme} {ls ms : List Lexeme}

/-- A text that stands elsewhere has the same lexemes. -/
theorem exists_at (h : Scanned mode p cs ls) (hpq : SameMargin p q) :
    ∃ ls', Scanned mode q cs ls' ∧ ls'.map content = ls.map content := by
  induction h generalizing q with
  | @eof mode gap p hgap =>
    refine ⟨_, .eof q hgap, ?_⟩
    simp [content, (hpq.after gap).margin]
  | @cons mode p gap x cs kind ls hgap hx _ ih =>
    obtain ⟨ls', hls', hsame⟩ := ih ((hpq.after gap).after x)
    refine ⟨_, .cons hgap hx hls', ?_⟩
    simp [content, (hpq.after gap).margin, hsame]

/-- White space before code goes to the first lexeme. -/
theorem behindGap (h : Scanned .code (p.after gap) cs (l :: ls)) (hgap : IsGap .code gap) :
    Scanned .code p (gap ++ cs) (l.behindGap gap :: ls) := by
  have hboth {gap' : List Char} (hgap' : IsGap .code gap') : IsGap .code (gap ++ gap') :=
    fun c hc => (List.mem_append.1 hc).elim (hgap c) (hgap' c)
  cases h with
  | eof _ hgap' =>
    rw [Lexeme.behindGap, ← Position.after_append]
    exact .eof p (hboth hgap')
  | cons hgap' hx hls =>
    rw [← Position.after_append p gap] at hls
    rw [Lexeme.behindGap, ← Position.after_append, ← List.append_assoc]
    exact .cons (hboth hgap') hx hls

/-- The end of a last line stands behind the last lexeme, if that cannot hold it. -/
theorem newline_mem_gap (h : Scanned mode p cs (ls ++ [e])) (hcs : cs.getLast? = some '\n')
    (hlast : ∀ last ∈ ls.getLast?, last.kind ≠ .html ∧ last.kind.isLiteral = false) :
    '\n' ∈ e.gap := by
  have hends (xs : List Char) {ys : List Char} (hys : ys ≠ []) :
      (xs ++ ys).getLast? = ys.getLast? := by
    rw [List.getLast?_append, List.getLast?_eq_some_getLast hys, Option.some_or]
  induction ls generalizing mode p cs with
  | nil =>
    cases h with
    | eof => exact List.mem_of_getLast? hcs
    | cons _ _ hnil => exact absurd rfl hnil.ne_nil
  | cons l ls ih =>
    obtain ⟨d, rfl, -, hl, hd⟩ := h.uncons (by simp)
    by_cases hnil : d = []
    · subst hnil
      obtain ⟨e', hls, -⟩ := hd.eq_of_nil
      obtain ⟨rfl, -⟩ : ls = [] ∧ [e] = [e'] := by
        rcases List.append_eq_singleton_iff.1 hls with hparts | ⟨-, hnil⟩
        · exact hparts
        · cases hnil
      obtain ⟨hkind, hliteral⟩ := hlast l rfl
      have htext : l.text ≠ [] := by
        obtain ⟨c, t, htext, -⟩ := hl
        rw [htext]
        exact List.cons_ne_nil _ _
      rw [List.append_nil, hends l.gap htext] at hcs
      exact absurd hcs (hl.getLast?_ne hkind hliteral)
    · rw [hends l.gap (by simp [hnil]), hends l.text hnil] at hcs
      refine ih hd hcs fun last hl => hlast last ?_
      rw [List.getLast?_cons, Option.mem_def.1 hl]
      rfl

/-- Code that ends with a line has the same lexemes before other code. -/
theorem append (h : Scanned mode p cs (ls ++ [e])) (hls : Scanned .code (p.after cs) ds (l :: ms))
    (hlast : ∀ last ∈ ls.getLast?, modeAfter last.kind = .code) (hmode : ls = [] → mode = .code)
    (hline : '\n' ∈ e.gap) : Scanned mode p (cs ++ ds) (ls ++ l.behindGap e.gap :: ms) := by
  induction ls generalizing mode p cs with
  | nil =>
    obtain rfl := hmode rfl
    cases h with
    | eof _ hgap => exact hls.behindGap hgap
    | cons _ _ hnil => exact absurd rfl hnil.ne_nil
  | cons m ls ih =>
    generalize htail : ls ++ [e] = tail at ih h
    rw [List.cons_append, htail] at h
    cases h with
    | eof => simp at htail
    | @cons _ _ gap x d kind _ hgap hx hd =>
      -- the newline is behind this lexeme, which sees nothing of the code behind that
      have hmem : '\n' ∈ d := by
        rw [← hd.source, ← htail]
        simp [Lexeme.source, hline]
      rw [List.append_assoc, List.append_assoc]
      rw [Position.after_append, Position.after_append] at hls
      refine .cons hgap (hx.follow (.of_mem hmem ds))
        (ih hd hls (fun last hl => ?_) (fun hnil => ?_))
      · refine hlast last ?_
        rw [List.getLast?_cons, Option.mem_def.1 hl]
        rfl
      · subst hnil
        exact hlast _ rfl

end Scanned

end Scan

end ClassEdit
