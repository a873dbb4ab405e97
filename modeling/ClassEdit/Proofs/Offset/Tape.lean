import ClassEdit.Proofs.Offset.Scanning
import ClassEdit.Proofs.Token.Comments

/-!
A source with its tokens and its comments as two lists in order. Comments are looked for between two
offsets, and a part of the source is cut out and moved left by the margin of its first line. Main
statements: the comments between two places are found, and what is cut out from the beginning of a
lexeme to the end of another is their excerpt.
-/

namespace ClassEdit

open Halt (orFault orFault_some)
open Scan (Scanned)

/-- A source, with its comments apart from the other lexemes. -/
structure Tape where
  source : List Char
  tokens : List Lexeme
  comments : List Lexeme

section Tables

variable {α : Type}

/-- How many elements pass a test, if they stand before all others. -/
def partitionPoint? (p : α → Bool) (xs : List α) : Option Nat :=
  if (xs.dropWhile p).any p then none else some (xs.takeWhile p).length

/-- The elements from one number to another, if the numbers are in order and in the list. -/
def range? (xs : List α) (first behind : Nat) : Option (List α) :=
  if first ≤ behind ∧ behind ≤ xs.length then some ((xs.take behind).drop first) else none

/-- A difference that is not negative. -/
def sub? (n k : Nat) : Option Nat :=
  if k ≤ n then some (n - k) else none

end Tables

namespace Tape

def ofLexemes (ls : List Lexeme) : Tape :=
  ⟨ls.flatMap Lexeme.source, ls.filter (·.kind != .comment), ls.filter (·.kind == .comment)⟩

/-- The comments that lie between two offsets. -/
def commentsBetween? (t : Tape) (start stop : Nat) : Option (List Lexeme) := do
  let first ← partitionPoint? (·.span.start < start) t.comments
  let behind ← partitionPoint? (·.span.stop ≤ stop) t.comments
  if first < behind then range? t.comments first behind else return []

/-- The tokens that lie between two offsets or across one of them. -/
def tokensBetween? (t : Tape) (start stop : Nat) : Option (List Lexeme) := do
  let first ← partitionPoint? (·.span.stop ≤ start) t.tokens
  let behind ← partitionPoint? (·.span.start < stop) t.tokens
  range? t.tokens first (max behind first)

/-- The text between two offsets, moved left by the margin of the line on which it begins. -/
def excerpt? (t : Tape) (start stop : Nat) : Option (List Char) := do
  let lines ← literalLines? t.source (← t.tokensBetween? start stop)
  let offsets ← (lines.filter fun x => start < x ∧ x < stop).mapM (sub? · start)
  let text ← cut? t.source start stop
  let width ← marginAt? t.source start
  return dedent width (markLines offsets 0 text)

/-- The newlines between two offsets, none if these are not in order. -/
def newlines? (t : Tape) (start stop : Nat) : Option Nat :=
  if start ≤ stop then (·.count '\n') <$> cut? t.source start stop else some 0

end Tape

section Tables

variable {α : Type} {p : α → Bool} {a b : List α}

/-- The search finds the place where the elements cease to hold. -/
theorem partitionPoint?_append (ha : ∀ x ∈ a, p x = true) (hb : ∀ x ∈ b, p x = false) :
    partitionPoint? p (a ++ b) = some a.length := by
  have hnone : b.takeWhile p = [] := by
    cases b with
    | nil => rfl
    | cons x b => rw [List.takeWhile_cons, hb x List.mem_cons_self]; rfl
  have hdrop : (a ++ b).dropWhile p = b := by
    rw [List.dropWhile_append_of_pos ha]
    cases b with
    | nil => rfl
    | cons x b => rw [List.dropWhile_cons, hb x List.mem_cons_self]; rfl
  have hany : b.any p = false := List.any_eq_false.2 fun x hx => Bool.eq_false_iff.1 (hb x hx)
  rw [partitionPoint?, hdrop, hany, List.takeWhile_append_of_pos ha, hnone, List.append_nil]
  rfl

theorem range?_append (a b d : List α) :
    range? (a ++ (b ++ d)) a.length (a ++ b).length = some b := by
  have hlength : (a ++ b).length ≤ (a ++ (b ++ d)).length := by simp
  rw [range?, if_pos ⟨by simp, hlength⟩, ← List.append_assoc, List.take_left, List.drop_left]

theorem mapM_sub? {k : Nat} {xs : List Nat} (h : ∀ x ∈ xs, k ≤ x) :
    xs.mapM (sub? · k) = some (xs.map (· - k)) := by
  induction xs with
  | nil => rfl
  | cons x xs ih =>
    obtain ⟨hx, hxs⟩ := List.forall_mem_cons.1 h
    rw [List.mapM_cons, sub?, if_pos hx, ih hxs]
    rfl

end Tables

def Lexeme.extent (ls : List Lexeme) : Nat :=
  byteSize (ls.flatMap Lexeme.source)

open Lexeme (extent)

/-- All lexemes of a source. -/
def IsWhole (ls : List Lexeme) : Prop :=
  ∃ mode, Scanned mode .start (ls.flatMap Lexeme.source) ls

section Extent

variable {ls a b : List Lexeme} {l : Lexeme}

@[simp] theorem extent_nil : extent [] = 0 := rfl

@[simp] theorem extent_append (a b : List Lexeme) : extent (a ++ b) = extent a + extent b := by
  rw [extent, List.flatMap_append, byteSize_append]
  rfl

@[simp] theorem extent_cons (l : Lexeme) (a : List Lexeme) :
    extent (l :: a) = byteSize l.source + extent a := by
  rw [extent, List.flatMap_cons, byteSize_append]
  rfl

theorem Scan.Scanned.of_append {mode : Mode} {p : Position} {cs : List Char}
    (h : Scanned mode p cs (a ++ b)) (hb : b ≠ []) :
    ∃ mode', Scanned mode' (p.after (a.flatMap Lexeme.source)) (b.flatMap Lexeme.source) b := by
  induction a generalizing mode p cs with
  | nil => exact ⟨mode, by rw [← h.source] at h; exact h⟩
  | cons l a ih =>
    obtain ⟨d, -, -, -, hrest⟩ := h.uncons (List.append_ne_nil_of_right_ne_nil a hb)
    obtain ⟨mode', hmode'⟩ := ih hrest
    rw [← Position.after_append, ← Position.after_append, ← List.append_assoc] at hmode'
    exact ⟨mode', hmode'⟩

/-- Only the last lexeme is the end of the source, and only that is without a text. -/
theorem Scan.Scanned.head {mode : Mode} {p : Position} {cs : List Char}
    (h : Scanned mode p cs (l :: b)) :
    l.start = p.after l.gap ∧ (l.kind = .eof ∧ b = [] ∨ l.kind ≠ .eof ∧ l.text ≠ [] ∧ b ≠ []) := by
  cases h with
  | eof => exact ⟨rfl, .inl ⟨rfl, rfl⟩⟩
  | cons hgap hx h =>
    obtain ⟨c, t, rfl, -, hbegins⟩ := hx
    exact ⟨rfl, .inr ⟨(Scan.cuts_lexeme _ .start _ _).of_ok (hbegins .start),
      List.cons_ne_nil _ _, h.ne_nil⟩⟩

namespace IsWhole

theorem of_lexemes {mode : Mode} {source : List Char}
    (h : Scan.lexemes mode .start source = .ok ls) :
    IsWhole ls ∧ source = (Tape.ofLexemes ls).source := by
  have hscanned := Scan.scanned_of_lexemes h
  have hsource := hscanned.source
  rw [← hsource] at hscanned
  exact ⟨⟨mode, hscanned⟩, hsource.symm⟩

variable (h : IsWhole ls)
include h

theorem head (hls : ls = a ++ l :: b) :
    l.start = Position.start.after (a.flatMap Lexeme.source ++ l.gap) ∧
    (l.kind = .eof ∧ b = [] ∨ l.kind ≠ .eof ∧ l.text ≠ [] ∧ b ≠ []) := by
  obtain ⟨mode, h⟩ := h
  rw [hls] at h
  obtain ⟨mode', h⟩ := h.of_append (List.cons_ne_nil _ _)
  rw [Position.after_append]
  exact h.head

theorem start_eq (hls : ls = a ++ l :: b) :
    l.start = Position.start.after (a.flatMap Lexeme.source ++ l.gap) :=
  (h.head hls).1

theorem kind_ne_eof (hls : ls = a ++ l :: b) (hb : b ≠ []) : l.kind ≠ .eof := by
  rcases (h.head hls).2 with ⟨-, hnil⟩ | ⟨hkind, -⟩
  · exact absurd hnil hb
  · exact hkind

theorem kind_ne_eof_of_mem (hls : ls = a ++ b) (hb : b ≠ []) (hl : l ∈ a) : l.kind ≠ .eof := by
  obtain ⟨a₁, a₂, rfl⟩ := List.append_of_mem hl
  exact h.kind_ne_eof (a := a₁) (b := a₂ ++ b) (by simp [hls])
    (List.append_ne_nil_of_right_ne_nil _ hb)

theorem text_ne_nil (hls : ls = a ++ l :: b) (hl : l.kind ≠ .eof) : l.text ≠ [] := by
  rcases (h.head hls).2 with ⟨hkind, -⟩ | ⟨-, htext, -⟩
  · exact absurd hkind hl
  · exact htext

theorem span_start (hls : ls = a ++ l :: b) : l.span.start = extent a + byteSize l.gap := by
  rw [Lexeme.span, Span.covering, h.start_eq hls]
  exact (Position.byte_after_start _).trans (byteSize_append _ _)

theorem span_stop (hls : ls = a ++ l :: b) : l.span.stop = extent a + byteSize l.source := by
  rw [Lexeme.span, Span.covering, h.start_eq hls, ← Position.after_append, List.append_assoc]
  exact (Position.byte_after_start _).trans (byteSize_append _ _)

/-- The text of a lexeme lies between the offsets of its span. -/
theorem cut?_span (hl : l ∈ ls) :
    cut? (Tape.ofLexemes ls).source l.span.start l.span.stop = some l.text := by
  obtain ⟨a, b, hls⟩ := List.append_of_mem hl
  have hsource : (Tape.ofLexemes ls).source =
      (a.flatMap Lexeme.source ++ l.gap) ++ (l.text ++ b.flatMap Lexeme.source) := by
    simp [Tape.ofLexemes, hls, Lexeme.source]
  have hcut := cut?_append (a.flatMap Lexeme.source ++ l.gap) l.text (b.flatMap Lexeme.source)
  have hsize : byteSize l.source = byteSize l.gap + byteSize l.text := byteSize_append _ _
  rw [← hsource, byteSize_append] at hcut
  rw [h.span_start hls, h.span_stop hls, hsize, ← Nat.add_assoc]
  exact hcut

theorem span_start_le (hl : l ∈ ls) : l.span.start ≤ l.span.stop := by
  obtain ⟨a, b, hls⟩ := List.append_of_mem hl
  rw [h.span_start hls, h.span_stop hls, Lexeme.source, byteSize_append]
  omega

theorem span_start_lt (hl : l ∈ ls) (hkind : l.kind ≠ .eof) : l.span.start < l.span.stop := by
  obtain ⟨a, b, hls⟩ := List.append_of_mem hl
  have hpos := byteSize_pos (h.text_ne_nil hls hkind)
  rw [h.span_start hls, h.span_stop hls, Lexeme.source, byteSize_append]
  omega

theorem span_stop_le (hls : ls = a ++ b) (hl : l ∈ a) : l.span.stop ≤ extent a := by
  obtain ⟨a₁, a₂, rfl⟩ := List.append_of_mem hl
  rw [List.append_assoc] at hls
  rw [h.span_stop hls, extent_append, extent_cons]
  omega

theorem le_span_start (hls : ls = a ++ b) (hl : l ∈ b) : extent a ≤ l.span.start := by
  obtain ⟨b₁, b₂, rfl⟩ := List.append_of_mem hl
  rw [← List.append_assoc] at hls
  rw [h.span_start hls, extent_append]
  omega

end IsWhole

end Extent

section Comments

variable {ls front mid back : List Lexeme} {l : Lexeme}

/-- The comments between what ends at an offset and a token are those among the lexemes between
them. -/
theorem commentsBetween?_eq (h : IsWhole ls) (hls : ls = front ++ (mid ++ l :: back))
    (hl : l.kind ≠ .comment) :
    (Tape.ofLexemes ls).commentsBetween? (extent front) l.span.start =
      some (mid.filter (·.kind == .comment)) := by
  have hcomment {x : Lexeme} {xs : List Lexeme} (hx : x ∈ xs.filter (·.kind == .comment)) :
      x ∈ xs ∧ x.kind ≠ .eof := by
    obtain ⟨hmem, hkind⟩ := List.mem_filter.1 hx
    exact ⟨hmem, by rw [eq_of_beq hkind]; decide⟩
  have hsplit : (Tape.ofLexemes ls).comments =
      front.filter (·.kind == .comment) ++
        (mid.filter (·.kind == .comment) ++ back.filter (·.kind == .comment)) := by
    simp [Tape.ofLexemes, hls, hl]
  have hls' : ls = (front ++ mid) ++ l :: back := by rw [hls, List.append_assoc]
  have hls'' : ls = (front ++ mid ++ [l]) ++ back := by simp [hls]
  have hstart := h.span_start hls'
  have hfirst : partitionPoint? (fun x : Lexeme => decide (x.span.start < extent front))
      (Tape.ofLexemes ls).comments =
      some (front.filter (·.kind == .comment)).length := by
    rw [hsplit]
    refine partitionPoint?_append (fun x hx => ?_) fun x hx => ?_
    · obtain ⟨hmem, hkind⟩ := hcomment hx
      have hlt := h.span_start_lt (hls ▸ List.mem_append_left _ hmem) hkind
      exact decide_eq_true (Nat.lt_of_lt_of_le hlt (h.span_stop_le hls hmem))
    · rw [← List.filter_append] at hx
      have hmem : x ∈ mid ++ l :: back := by
        have := (hcomment hx).1
        simp only [List.mem_append, List.mem_cons] at this ⊢
        tauto
      exact decide_eq_false (Nat.not_lt.2 (h.le_span_start hls hmem))
  have hbehind : partitionPoint? (fun x : Lexeme => decide (x.span.stop ≤ l.span.start))
      (Tape.ofLexemes ls).comments =
      some (front.filter (·.kind == .comment) ++ mid.filter (·.kind == .comment)).length := by
    rw [hsplit, ← List.append_assoc]
    refine partitionPoint?_append (fun x hx => ?_) fun x hx => ?_
    · rw [← List.filter_append] at hx
      have hle := h.span_stop_le hls' (hcomment hx).1
      exact decide_eq_true (by omega)
    · obtain ⟨hmem, hkind⟩ := hcomment hx
      have hlt := h.span_start_lt (hls'' ▸ List.mem_append_right _ hmem) hkind
      have hle := h.le_span_start hls'' hmem
      have hl := h.span_stop hls'
      have hsize : byteSize l.source = byteSize l.gap + byteSize l.text := byteSize_append _ _
      rw [extent_append, extent_cons, extent_nil] at hle
      exact decide_eq_false (by omega)
  rw [Tape.commentsBetween?, hfirst, hbehind]
  simp only [Option.bind_eq_bind, Option.bind_some]
  split
  next => rw [hsplit, range?_append]
  next hle =>
    rw [List.length_append, Nat.lt_add_right_iff_pos, Nat.not_lt, Nat.le_zero] at hle
    rw [List.eq_nil_of_length_eq_zero hle]
    rfl

end Comments

section Excerpts

variable {ls a run b : List Lexeme} {l : Lexeme}

/-- The lines that begin in the literals of a run are found by the offsets of its tokens. -/
theorem literalLines?_eq (h : IsWhole ls) (hls : ls = a ++ (run ++ b)) :
    literalLines? (Tape.ofLexemes ls).source (run.filter (·.kind != .comment)) =
      some (dataEnds (extent a) (run.flatMap Lexeme.markedSource)) := by
  induction run generalizing a with
  | nil => rfl
  | cons l run ih =>
    have hls' : ls = a ++ l :: (run ++ b) := hls
    have hrest := ih (a := a ++ [l]) (by simp [hls])
    have hmarked : (l.markedSource.map (·.1)) = l.source := by
      simpa using Lexeme.map_fst_markedSource [l]
    have hends : dataEnds (extent a) l.markedSource =
        if l.kind.isLiteral then newlineEnds (extent a + byteSize l.gap) l.text else [] := by
      rw [Lexeme.markedSource, dataEnds_append, dataEnds_map, List.map_map]
      simp only [Lexeme.marked, dataEnds_map]
      simp [Function.comp_def]
    rw [List.flatMap_cons, dataEnds_append, hmarked, hends]
    rw [extent_append, extent_cons, extent_nil, Nat.add_zero] at hrest
    cases hliteral : l.kind.isLiteral with
    | false =>
      by_cases hkind : l.kind = .comment
      · simpa [hkind] using hrest
      · simpa [hkind, literalLines?, hliteral] using hrest
    | true =>
      have hkind : l.kind ≠ .comment := by
        intro hkind
        rw [hkind] at hliteral
        cases hliteral
      have hcut := h.cut?_span (l := l) (by rw [hls']; simp)
      rw [List.filter_cons_of_pos (by simpa using hkind), literalLines?, if_pos hliteral, hcut,
        h.span_start hls', hrest]
      rfl

/-- The tokens between two offsets are those of the run that stands there. -/
theorem tokensBetween?_eq (h : IsWhole ls) (hls : ls = a ++ (l :: run ++ b)) (hb : b ≠ []) :
    (Tape.ofLexemes ls).tokensBetween? l.span.start (extent (a ++ l :: run)) =
      some ((l :: run).filter (·.kind != .comment)) := by
  have hls' : ls = a ++ l :: (run ++ b) := hls
  have hls'' : ls = (a ++ l :: run) ++ b := by rw [hls, List.append_assoc]
  have hkind (x : Lexeme) (hx : x ∈ l :: run) : x.kind ≠ .eof :=
    h.kind_ne_eof_of_mem hls'' hb (List.mem_append_right _ hx)
  have hmem {x : Lexeme} {xs : List Lexeme} (hx : x ∈ xs.filter (·.kind != .comment)) : x ∈ xs :=
    (List.mem_filter.1 hx).1
  have hsplit : (Tape.ofLexemes ls).tokens = a.filter (·.kind != .comment) ++
      ((l :: run).filter (·.kind != .comment) ++ b.filter (·.kind != .comment)) := by
    rw [hls, Tape.ofLexemes, List.filter_append, List.filter_append]
  have hstart := h.span_start hls'
  have hstop := h.span_stop hls'
  have hrun (x : Lexeme) (hx : x ∈ l :: run) : l.span.start < x.span.stop ∧
      x.span.start < extent (a ++ l :: run) := by
    have hlt := h.span_start_lt (hls'' ▸ List.mem_append_left _ (List.mem_append_right _ hx))
      (hkind x hx)
    refine ⟨?_, Nat.lt_of_lt_of_le hlt (h.span_stop_le hls'' (List.mem_append_right _ hx))⟩
    rcases List.mem_cons.1 hx with rfl | hx
    · exact hlt
    · have hle := h.le_span_start (a := a ++ [l]) (b := run ++ b) (by simp [hls])
        (List.mem_append_left _ hx)
      have hl := h.span_start_lt (hls' ▸ by simp) (hkind l List.mem_cons_self)
      rw [extent_append, extent_cons, extent_nil] at hle
      omega
  have hfirst : partitionPoint? (fun x : Lexeme => decide (x.span.stop ≤ l.span.start))
      (Tape.ofLexemes ls).tokens =
      some (a.filter (·.kind != .comment)).length := by
    rw [hsplit]
    refine partitionPoint?_append (fun x hx => decide_eq_true ?_) fun x hx => decide_eq_false ?_
    · have hle := h.span_stop_le hls' (hmem hx)
      omega
    · refine Nat.not_le.2 ?_
      rcases List.mem_append.1 hx with hx | hx
      · exact (hrun x (hmem hx)).1
      · have hl := (hrun l List.mem_cons_self).2
        have hle := h.le_span_start hls'' (hmem hx)
        have hx := h.span_start_le (hls'' ▸ List.mem_append_right _ (hmem hx))
        omega
  have hbehind : partitionPoint? (fun x : Lexeme => decide (x.span.start < extent (a ++ l :: run)))
      (Tape.ofLexemes ls).tokens =
        some (a.filter (·.kind != .comment) ++ (l :: run).filter (·.kind != .comment)).length := by
    rw [hsplit, ← List.append_assoc]
    refine partitionPoint?_append (fun x hx => decide_eq_true ?_) fun x hx => decide_eq_false ?_
    · rw [← List.filter_append] at hx
      rcases List.mem_append.1 (hmem hx) with hx | hx
      · have hle := h.span_stop_le hls' hx
        have hx := h.span_start_le (hls' ▸ List.mem_append_left _ hx)
        have hl := (hrun l List.mem_cons_self).2
        omega
      · exact (hrun x hx).2
    · exact Nat.not_lt.2 (h.le_span_start hls'' (hmem hx))
  rw [Tape.tokensBetween?, hfirst, hbehind]
  simp only [Option.bind_eq_bind, Option.bind_some]
  rw [Nat.max_eq_left (by simp), hsplit, range?_append]

/-- What is cut out from the beginning of a lexeme to the end of another is their excerpt. -/
theorem excerpt?_eq (h : IsWhole ls) (hls : ls = a ++ (l :: run ++ b)) (hb : b ≠ []) :
    (Tape.ofLexemes ls).excerpt? l.span.start (extent (a ++ l :: run)) =
      some (excerpt (l :: run)) := by
  have hls' : ls = a ++ l :: (run ++ b) := hls
  have hstart := h.span_start hls'
  have hlines := literalLines?_eq h hls
  -- no line of data begins before the text of the first lexeme
  have hends : dataEnds (extent a) ((l :: run).flatMap Lexeme.markedSource) =
      dataEnds l.span.start (l.marked ++ run.flatMap Lexeme.markedSource) := by
    rw [List.flatMap_cons, Lexeme.markedSource, List.append_assoc, dataEnds_append, dataEnds_map,
      List.map_map, hstart]
    simp [Function.comp_def]
  have hfst : (l.marked ++ run.flatMap Lexeme.markedSource).map (·.1) = l.text ++
      run.flatMap Lexeme.source := by
    rw [List.map_append, Lexeme.map_fst_marked, Lexeme.map_fst_markedSource]
  have hsource : (Tape.ofLexemes ls).source = (a.flatMap Lexeme.source ++ l.gap) ++
      ((l.text ++ run.flatMap Lexeme.source) ++ b.flatMap Lexeme.source) := by
    simp [Tape.ofLexemes, hls, Lexeme.source]
  have hbytes : extent (a ++ l :: run) = l.span.start + byteSize
      (l.text ++ run.flatMap Lexeme.source) := by
    have hsize : byteSize l.source = byteSize l.gap + byteSize l.text := byteSize_append _ _
    have hextent : byteSize (run.flatMap Lexeme.source) = extent run := rfl
    rw [extent_append, extent_cons, byteSize_append, hstart]
    omega
  have hplace : l.span.start = byteSize (a.flatMap Lexeme.source ++ l.gap) :=
    hstart.trans (byteSize_append _ _).symm
  have htext := cut?_append (a.flatMap Lexeme.source ++ l.gap) (l.text ++ run.flatMap Lexeme.source)
    (b.flatMap Lexeme.source)
  have hmargin := marginAt?_append (a.flatMap Lexeme.source ++ l.gap)
    ((l.text ++ run.flatMap Lexeme.source) ++ b.flatMap Lexeme.source)
  rw [← hsource, ← hplace, ← h.start_eq hls'] at hmargin
  rw [← hsource, ← hplace, ← hbytes] at htext
  have hdata := isDataOf_between l.span.start (l.marked ++ run.flatMap Lexeme.markedSource)
  rw [hfst, ← hbytes] at hdata
  have hdedent := dedent_markLines hdata l.start.margin
  rw [hfst] at hdedent
  rw [Tape.excerpt?, tokensBetween?_eq h hls hb]
  simp only [Option.bind_eq_bind, Option.bind_some]
  rw [hlines, hends, Option.bind_some, mapM_sub?, Option.bind_some, htext, Option.bind_some,
    hmargin, Option.bind_some, hdedent]
  · rfl
  · intro x hx
    have hx := (List.mem_filter.1 hx).2
    simp only [Bool.decide_and, Bool.and_eq_true, decide_eq_true_eq] at hx
    omega

end Excerpts

section Newlines

variable {ls a run b : List Lexeme} {l : Lexeme}

theorem newlines?_append {t : Tape} {x y z : List Char} (h : t.source = x ++ (y ++ z)) :
    t.newlines? (byteSize x) (byteSize x + byteSize y) = some (y.count '\n') := by
  rw [Tape.newlines?, if_pos (Nat.le_add_right _ _), h, cut?_append]
  rfl

/-- The newlines from the end of a lexeme to the beginning of another. -/
theorem newlines?_before (h : IsWhole ls) (hls : ls = a ++ (run ++ l :: b)) :
    (Tape.ofLexemes ls).newlines? (extent a) l.span.start =
      some ((run.flatMap Lexeme.source ++ l.gap).count '\n') := by
  have hls' : ls = (a ++ run) ++ l :: b := by rw [hls, List.append_assoc]
  have hsource : (Tape.ofLexemes ls).source =
      a.flatMap Lexeme.source ++
        ((run.flatMap Lexeme.source ++ l.gap) ++ (l.text ++ b.flatMap Lexeme.source)) := by
    simp [Tape.ofLexemes, hls, Lexeme.source]
  rw [h.span_start hls', extent_append, Nat.add_assoc, ← newlines?_append hsource, byteSize_append]
  rfl

/-- The newlines from the beginning of a lexeme to the end of another. -/
theorem newlines?_across (h : IsWhole ls) (hls : ls = a ++ (l :: run ++ b)) :
    (Tape.ofLexemes ls).newlines? l.span.start (extent (a ++ l :: run)) =
      some ((l.text ++ run.flatMap Lexeme.source).count '\n') := by
  have hsource : (Tape.ofLexemes ls).source = (a.flatMap Lexeme.source ++ l.gap) ++
      ((l.text ++ run.flatMap Lexeme.source) ++ b.flatMap Lexeme.source) := by
    simp [Tape.ofLexemes, hls, Lexeme.source]
  have hstart : l.span.start = byteSize (a.flatMap Lexeme.source ++ l.gap) :=
    (h.span_start hls).trans (byteSize_append _ _).symm
  have hstop : extent (a ++ l :: run) = l.span.start + byteSize
      (l.text ++ run.flatMap Lexeme.source) := by
    rw [hstart]
    simp [extent, Lexeme.source, Nat.add_assoc]
  rw [hstop, hstart, newlines?_append hsource]

end Newlines

end ClassEdit
