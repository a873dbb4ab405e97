import ClassEdit.Proofs.Fragment.Parts
import ClassEdit.Proofs.Token.Relexing

/-!
The texts of the parts of a source, put on lines of their own and cut into lexemes again. Main
statement: the lexemes make parts with the same texts, cut where the first ones are.
-/

namespace ClassEdit

/-- Lists that are cut at the same places, wherever the last of them ends. -/
inductive SameCuts {α : Type} : List (List α) → List (List α) → Prop where
  | nil : SameCuts [] []
  | last (x y : List α) : SameCuts [x] [y]
  | cons {x y : List α} {xs ys : List (List α)} (h : x.length = y.length) (hs : SameCuts xs ys) :
      SameCuts (x :: xs) (y :: ys)

namespace SameCuts

variable {α : Type} {xs ys zs : List (List α)}

/-- Cuts that agree with the same cuts agree with each other. -/
theorem trans (h : SameCuts xs ys) (h' : SameCuts xs zs) : SameCuts ys zs := by
  induction h generalizing zs with
  | nil =>
    cases h'
    exact .nil
  | last x y =>
    cases h' with
    | last => exact .last _ _
    | cons _ hs =>
      cases hs
      exact .last _ _
  | cons h hs ih =>
    cases h' with
    | last =>
      cases hs
      exact .last _ _
    | cons h' hs' => exact .cons (h.symm.trans h') (ih hs')

theorem eq_of_flatten (h : SameCuts xs ys) (hflatten : xs.flatten = ys.flatten) : xs = ys := by
  induction h with
  | nil => rfl
  | last => simpa using hflatten
  | cons h _ ih =>
    rw [List.flatten_cons, List.flatten_cons] at hflatten
    obtain ⟨rfl, hrest⟩ := List.append_inj hflatten h
    rw [ih hrest]

end SameCuts

namespace Scan

/-- Behind the last of some lexemes the others are still cut off the text that is left. -/
theorem Scanned.behind {mode : Mode} {p : Position} {cs : List Char} {last : Lexeme}
    {ls behind : List Lexeme} (h : Scanned mode p cs (ls ++ behind)) (hbehind : behind ≠ [])
    (hlast : last ∈ ls.getLast?) :
    ∃ p d, Scanned (modeAfter last.kind) p d behind := by
  induction ls generalizing mode p cs with
  | nil => cases hlast
  | cons l ls ih =>
    obtain ⟨d, -, -, -, hd⟩ := h.uncons (by simp [hbehind])
    cases ls with
    | nil =>
      obtain rfl := Option.some.inj hlast
      exact ⟨_, _, hd⟩
    | cons l₂ ls => exact ih hd hlast

end Scan

namespace Fragment

open Scan (Scanned Relexes IsGap Boundary modeAfter)

/-- Where a part of a source can end, before the lexemes behind it. -/
structure Cut (last : Lexeme) (behind : List Lexeme) : Prop where
  outside : modeAfter last.kind = .html → behind.length = 1
  group : last.kind = .word → ∀ l ∈ behind.head?, l.kind ≠ .leftBrace
  line : last.kind ≠ .comment → ∀ l ∈ behind.head?, l.kind = .comment → l.isOnNewLine = true

/-- Parts of a source before its end. -/
inductive Divided (eof : Lexeme) : List (List Lexeme) → Prop where
  | nil : Divided eof []
  | cons {l : Lexeme} {ls : List Lexeme} {parts : List (List Lexeme)}
      (hlast : ∀ last ∈ (l :: ls).getLast?, Cut last (parts.flatten ++ [eof]))
      (h : Divided eof parts) :
      Divided eof ((l :: ls) :: parts)

theorem Divided.eq_nil_of_length {eof : Lexeme} {parts : List (List Lexeme)} (h : Divided eof parts)
    (hlength : (parts.flatten ++ [eof]).length = 1) : parts = [] := by
  cases h with
  | nil => rfl
  | cons => simp at hlength

/-- The texts of parts with newlines between them, and something before the first. -/
def joined (gap : List Char) : List (List Lexeme) → List Char
  | [] => []
  | part :: parts => gap ++ (excerpt part ++ joined ['\n'] parts)

theorem join_map_excerpt (parts : List (List Lexeme)) :
    Line.join (parts.map excerpt) = joined [] parts := by
  induction parts with
  | nil => rfl
  | cons part parts ih =>
    cases parts with
    | nil => simp [joined, Line.join]
    | cons part' parts =>
      rw [List.map_cons, Line.join_cons (by simp), ih]
      rfl

/-- The lexemes make parts with the same texts, cut at the same places. -/
def Restores (parts : List (List Lexeme)) (ls : List Lexeme) : Prop :=
  ∃ parts' eof, ls = parts'.flatten ++ [eof] ∧ parts'.map excerpt = parts.map excerpt ∧
    SameCuts parts parts'

variable {eof l : Lexeme} {ls ls' behind' : List Lexeme} {parts : List (List Lexeme)} {p : Position}
  {cs gap follow : List Char} {mode : Mode} {flag : Bool}

theorem atLineEnd_joined (parts : List (List Lexeme)) : AtLineEnd (joined ['\n'] parts) := by
  cases parts with
  | nil => exact fun c hc => by cases hc
  | cons part parts => exact fun c hc => (Option.some.inj hc).symm

/-- The text of a part of code begins with its first lexeme. -/
theorem exists_excerpt_eq_cons (h : Scanned .code p cs (l :: ls ++ behind'))
    (hbehind : behind' ≠ []) :
    ∃ c r, excerpt (l :: ls) = c :: r ∧ isBlank c = false := by
  obtain ⟨d, -, -, ⟨c, t, htext, hc, -⟩, -⟩ := h.uncons (by simp [hbehind])
  obtain ⟨b, hmoved⟩ :=
    MovedLeft.dedent (atLineEnd_joined []) l.start.margin
      (l.marked ++ ls.flatMap Lexeme.markedSource)
  have hmarked : l.marked = (c, l.kind.isLiteral) :: t.map (·, l.kind.isLiteral) := by
    rw [Lexeme.marked, htext]; rfl
  rw [hmarked, List.cons_append] at hmoved
  obtain ⟨out, hout, -⟩ := hmoved.of_cons (hc rfl)
  refine ⟨c, out, ?_, hc rfl⟩
  rw [← hout, excerpt, hmarked]
  rfl

/-- The lexemes of the text of a part have that text. -/
theorem excerpt_of_scanned {c : Char} {r : List Char}
    (h : Scanned .code p (gap ++ (excerpt (l :: ls) ++ follow)) (ls' ++ behind'))
    (hsource : ls'.flatMap Lexeme.source = gap ++ excerpt (l :: ls)) (hgap : IsGap .code gap)
    (hmargin : (p.after gap).margin = 0) (hfirst : excerpt (l :: ls) = c :: r)
    (hc : isBlank c = false) :
    excerpt ls' = excerpt (l :: ls) := by
  cases ls' with
  | nil =>
    rw [hfirst] at hsource
    simp at hsource
  | cons l' ls' =>
    have hhead : ∀ d ∈ (excerpt (l :: ls) ++ follow).head?, isBlank d = false := by
      rw [hfirst]
      intro d hd
      rw [← Option.some.inj hd]
      exact hc
    obtain ⟨hgap', hstart⟩ := Scanned.gap_eq h hgap hhead
    rw [List.flatMap_cons, Lexeme.source, hgap', List.append_assoc, List.append_cancel_left_eq]
      at hsource
    rw [excerpt, hstart, hmargin]
    have hmoved : (l'.marked ++ ls'.flatMap Lexeme.markedSource).map (·.1) =
        dedent l.start.margin (l.marked ++ ls.flatMap Lexeme.markedSource) := by
      rw [List.map_append, Lexeme.map_fst_marked, Lexeme.map_fst_markedSource, hsource]
      rfl
    exact dedent_dedent hmoved

theorem Restores.cons (h : Restores parts behind') (htext : excerpt ls' = excerpt (l :: ls))
    (hlength : ls'.length = (l :: ls).length ∨ parts = []) :
    Restores ((l :: ls) :: parts) (ls' ++ behind') := by
  obtain ⟨parts', eof', rfl, htexts, hcuts⟩ := h
  refine ⟨ls' :: parts', eof', by simp, by rw [List.map_cons, List.map_cons, htext, htexts], ?_⟩
  rcases hlength with hlength | rfl
  · exact .cons hlength.symm hcuts
  · cases hcuts
    exact .last _ _

/-- The text of a part is cut into lexemes like those of the part, if what comes behind it is. -/
theorem relexes_part (hd : Divided eof ((l :: ls) :: parts))
    (h : Scanned .code p cs (l :: ls ++ (parts.flatten ++ [eof])))
    (hrest : ∀ last ∈ (l :: ls).getLast?, Relexes (modeAfter last.kind) (last.kind != .comment) []
      (parts.flatten ++ [eof]) [] (joined ['\n'] parts) (Restores parts))
    (hgap : IsGap .code gap) (hline : flag = true → l.kind = .comment →
      ('\n' ∈ gap ↔ '\n' ∈ l.gap)) :
    Relexes .code flag (l :: ls) (parts.flatten ++ [eof]) (gap ++ excerpt (l :: ls))
      (joined ['\n'] parts)
      (Restores parts) := by
  cases hd with
  | cons hlast hparts =>
    have hfollow := atLineEnd_joined parts
    obtain ⟨b', hmoved⟩ :=
      MovedLeft.dedent hfollow l.start.margin (l.marked ++ ls.flatMap Lexeme.markedSource)
    have hboundary (last : Lexeme) (hmem : last ∈ (l :: ls).getLast?) :
        Boundary (joined ['\n'] parts) last (parts.flatten ++ [eof]) := by
      refine ⟨fun hhtml => ?_, (hlast last hmem).group⟩
      have hone := (hlast last hmem).outside hhtml
      refine ⟨hone, ?_⟩
      rw [hparts.eq_nil_of_length hone]
      rfl
    exact Scan.relexes_movedLeft h (by simp)
      (fun last hmem => ⟨hboundary last hmem, hrest last hmem⟩) hfollow nofun
      hgap hline nofun hmoved

/-- The texts of parts with newlines between them are cut into lexemes that make the same parts. -/
theorem exists_restores (hd : Divided eof parts) (h : Scanned mode p cs (parts.flatten ++ [eof]))
    (hmode : mode = .html → parts = []) (hgap : IsGap .code gap) {q : Position}
    (hmargin : (q.after gap).margin = 0) (hline : flag = true → '\n' ∈ gap ∧
      ∀ l ∈ (parts.flatten ++ [eof]).head?, l.kind = .comment → l.isOnNewLine = true) :
    ∃ ms, Scanned mode q (joined gap parts) ms ∧ Lexeme.Alike flag (parts.flatten ++ [eof]) ms ∧
      Restores parts ms := by
  induction hd generalizing mode flag p q cs gap with
  | nil =>
    have hkind : eof.kind = .eof ∧ eof.text = [] := by
      cases h with
      | eof => exact ⟨rfl, rfl⟩
      | cons _ _ hnil => exact absurd rfl hnil.ne_nil
    refine ⟨[⟨[], .eof, [], q.after []⟩], .eof q (Scan.isGap_nil mode), ?_, [], _, rfl, rfl, .nil⟩
    refine .cons ⟨hkind.1.symm, fun _ => hkind.2.symm⟩ (fun _ hcomment => ?_) (.nil _)
    rw [hkind.1] at hcomment
    cases hcomment
  | @cons l ls parts hlast hparts ih =>
    obtain rfl : mode = .code := by
      cases mode with
      | html => cases hmode rfl
      | code => rfl
    rw [List.flatten_cons, List.append_assoc] at h hline ⊢
    have hrest (last : Lexeme) (hmem : last ∈ (l :: ls).getLast?) : Relexes (modeAfter last.kind)
        (last.kind != .comment) [] (parts.flatten ++ [eof]) [] (joined ['\n'] parts)
          (Restores parts) := by
      obtain ⟨q, d, hbehind⟩ := h.behind (by simp) hmem
      have hcut := hlast last hmem
      intro r
      obtain ⟨ms, hscanned, halike, hgood⟩ :=
        ih hbehind (fun hhtml => hparts.eq_nil_of_length (hcut.outside hhtml))
        (List.forall_mem_singleton.2 rfl) (q := r) rfl
        fun hflag => ⟨List.mem_cons_self, hcut.line (bne_iff_ne.1 hflag)⟩
      exact ⟨[], ms, hscanned, ⟨halike, .nil, rfl, .inl rfl⟩, hgood⟩
    have hnewline : flag = true → l.kind = .comment → ('\n' ∈ gap ↔ '\n' ∈ l.gap) := by
      intro hflag hkind
      obtain ⟨hmem, hhead⟩ := hline hflag
      have hl := hhead l rfl hkind
      rw [Lexeme.isOnNewLine, List.contains_iff_mem] at hl
      exact iff_of_true hmem hl
    obtain ⟨c, r, hfirst, hc⟩ := exists_excerpt_eq_cons h (by simp)
    obtain ⟨ls', behind', hscanned, hagain, hgood⟩ :=
      relexes_part (.cons hlast hparts) h hrest hgap hnewline q
    rw [List.append_assoc] at hscanned
    have htext := excerpt_of_scanned hscanned hagain.source hgap hmargin hfirst hc
    exact ⟨_, hscanned, hagain.alike,
      hgood.cons htext (hagain.length.imp_right hparts.eq_nil_of_length)⟩

end Fragment

end ClassEdit
