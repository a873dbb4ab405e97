import ClassEdit.Proofs.Offset.Tape

/-!
The spans of the lexemes of a source. They stand behind one another in the source with nothing but
white space between them, each of them cuts out its lexeme, and the end of the source is the last of
them. Main statement: the spans of every source that can be cut into lexemes lie in this way, of
files and of code alike.
-/

namespace ClassEdit

open Lexeme (extent)

/-- A character of two texts that are put together stands in one of them. -/
theorem append_eq_append_cons {α : Type} {a b x y : List α} {c : α} (h : a ++ b = x ++ c :: y) :
    (∃ z, a = x ++ c :: z ∧ y = z ++ b) ∨ ∃ z, x = a ++ z ∧ b = z ++ c :: y := by
  rcases List.append_eq_append_iff.1 h with ⟨z, hx, hb⟩ | ⟨z, ha, hy⟩
  · exact .inr ⟨z, hx, hb⟩
  · cases z with
    | nil => exact .inr ⟨[], by simpa using ha.symm, by simpa using hy.symm⟩
    | cons d z =>
      cases hy
      exact .inl ⟨z, ha, rfl⟩

/-- The spans of the lexemes cover the source but for white space, in order and without an
overlap. -/
structure Tiles (ls : List Lexeme) (source : String) : Prop where
  /-- The last lexeme, and only that, is the end of the source, and it stands there. -/
  ended : ∃ front last, ls = front ++ [last] ∧ last.kind = .eof ∧ (∀ l ∈ front, l.kind ≠ .eof) ∧
    last.span.start = source.utf8ByteSize ∧ last.span.stop = source.utf8ByteSize
  nonempty : ∀ l ∈ ls, l.kind ≠ .eof → l.span.start < l.span.stop
  disjoint : ls.Pairwise fun l l' => l.span.stop ≤ l'.span.start
  /-- What lies in no span is white space. -/
  blank : ∀ before c behind, source.toList = before ++ c :: behind →
    (∀ l ∈ ls, byteSize before < l.span.start ∨ l.span.stop ≤ byteSize before) → isBlank c = true
  /-- The bounds lie between characters, and lines and columns are counted up to the start. -/
  placed : ∀ l ∈ ls, l.span.PointsInto source
  text : ∀ l ∈ ls, cut? source.toList l.span.start l.span.stop = some l.text

namespace IsWhole

variable {ls a b : List Lexeme} {l : Lexeme}

theorem isBlank_gap (h : IsWhole ls) (hls : ls = a ++ l :: b) {c : Char} (hc : c ∈ l.gap) :
    isBlank c = true := by
  obtain ⟨mode, h⟩ := h
  rw [hls] at h
  obtain ⟨mode', h⟩ := h.of_append (List.cons_ne_nil _ _)
  generalize (l :: b).flatMap Lexeme.source = cs at h
  cases h with
  | eof _ hgap => exact hgap.isBlank hc
  | cons hgap _ _ => exact hgap.isBlank hc

/-- What stands behind some lexemes of a source has its spans in order. -/
theorem pairwise_span (h : IsWhole ls) (hls : ls = a ++ b) :
    b.Pairwise fun l l' => l.span.stop ≤ l'.span.start := by
  induction b generalizing a with
  | nil => exact .nil
  | cons l b ih =>
    have hls' : ls = (a ++ [l]) ++ b := by rw [hls, List.append_assoc]; rfl
    refine .cons (fun l' hl' => ?_) (ih hls')
    have hstop := h.span_stop_le hls' (List.mem_append_right _ List.mem_cons_self)
    have hstart := h.le_span_start hls' hl'
    omega

/-- The end of a source is its last lexeme. -/
theorem exists_last (h : IsWhole ls) : ∃ front last, ls = front ++ [last] ∧ last.kind = .eof ∧
    ∀ l ∈ front, l.kind ≠ .eof := by
  obtain ⟨mode, hscanned⟩ := id h
  rcases List.eq_nil_or_concat ls with hnil | ⟨front, last, hls⟩
  · exact absurd hnil hscanned.ne_nil
  · rw [List.concat_eq_append] at hls
    refine ⟨front, last, hls, ?_, fun l hl => h.kind_ne_eof_of_mem hls (List.cons_ne_nil _ _) hl⟩
    rcases (h.head hls).2 with ⟨hkind, -⟩ | ⟨-, -, hne⟩
    · exact hkind
    · exact absurd rfl hne

/-- A character of the source stands in the gap or in the text of a lexeme. -/
theorem exists_of_source {before behind : List Char} {c : Char}
    (hls : ls.flatMap Lexeme.source = before ++ c :: behind) :
    ∃ a l b x y, ls = a ++ l :: b ∧ before = a.flatMap Lexeme.source ++ x ∧
      l.gap ++ l.text = x ++ c :: y := by
  induction ls generalizing before with
  | nil => exact absurd hls.symm (by simp)
  | cons l ls ih =>
    rw [List.flatMap_cons] at hls
    rcases append_eq_append_cons hls with ⟨y, hl, -⟩ | ⟨rest, rfl, hrest⟩
    · exact ⟨[], l, ls, before, y, rfl, rfl, hl⟩
    · obtain ⟨a, l', b, x, y, rfl, rfl, hl'⟩ := ih hrest
      exact ⟨l :: a, l', b, x, y, rfl, by rw [List.flatMap_cons, List.append_assoc], hl'⟩

/-- A character that lies in no span is white space. -/
theorem isBlank_of_outside (h : IsWhole ls) {before behind : List Char} {c : Char}
    (hsource : ls.flatMap Lexeme.source = before ++ c :: behind)
    (hout : ∀ l ∈ ls, byteSize before < l.span.start ∨ l.span.stop ≤ byteSize before) :
    isBlank c = true := by
  obtain ⟨a, l, b, x, y, hls, rfl, hl⟩ := exists_of_source hsource
  rcases append_eq_append_cons hl with ⟨z, hgap, -⟩ | ⟨z, rfl, htext⟩
  · exact h.isBlank_gap hls (by rw [hgap]; simp)
  · -- a character of the text lies in the span
    have hstart := h.span_start hls
    have hstop := h.span_stop hls
    have hsize : byteSize l.text = byteSize z + (c.utf8Size + byteSize y) := by
      rw [htext, byteSize_append, byteSize_cons]
    have hpos := c.utf8Size_pos
    have hoffset : byteSize (a.flatMap Lexeme.source ++ (l.gap ++ z)) =
        extent a + byteSize l.gap + byteSize z := by
      rw [byteSize_append, byteSize_append, Nat.add_assoc]
      rfl
    rw [Lexeme.source, byteSize_append] at hstop
    rcases hout l (by rw [hls]; simp) with hbefore | hbehind
    · omega
    · omega

end IsWhole

/-- The lexemes of a file, and those of code, tile their source. -/
theorem Lexeme.tiles_source {source : String} {ls : List Lexeme}
    (h : ofFile source = .ok ls ∨ ofCode source.toList = .ok ls) : Tiles ls source := by
  obtain ⟨mode, hls⟩ : ∃ mode, Scan.lexemes mode .start source.toList = .ok ls := by
    rcases h with h | h
    · exact ⟨.html, h⟩
    · exact ⟨.code, h⟩
  obtain ⟨hwhole, hsource⟩ := IsWhole.of_lexemes hls
  have hstands : ∀ l ∈ ls, l.StandsIn .start source.toList := (Scan.cuts_lexemes ..).of_ok hls
  refine ⟨?ended, fun l hl => hwhole.span_start_lt hl, hwhole.pairwise_span (a := []) rfl, ?blank,
    fun l hl => (hstands l hl).isPart.pointsInto, fun l hl => ?text⟩
  case ended =>
    obtain ⟨front, last, rfl, hlast, hfront⟩ := hwhole.exists_last
    have hspan := (hstands last (by simp)).span_of_eof hlast
    exact ⟨front, last, rfl, hlast, hfront, hspan.1, hspan.2⟩
  case blank =>
    intro before c behind hcut hout
    exact hwhole.isBlank_of_outside (hsource.symm.trans hcut) hout
  case text =>
    rw [hsource]
    exact hwhole.cut?_span hl

/-- A file with a comment, a literal of two lines and text behind the closing tag. -/
theorem Lexeme.tiles_source_file :
    ∃ source ls, source = "<?php // é\n$a = 'x\ny';\n?>\nb" ∧ ofFile source = .ok ls ∧
    ls.map (fun l => (l.kind, l.span)) = [(.openTag, ⟨0, 5, 1, 1⟩), (.comment, ⟨6, 11, 1, 7⟩),
      (.var, ⟨12, 14, 2, 1⟩),
      (.equals, ⟨15, 16, 2, 4⟩), (.quoted, ⟨17, 22, 2, 6⟩), (.semicolon, ⟨22, 23, 3, 3⟩),
        (.closeTag, ⟨24, 26, 4, 1⟩),
      (.html, ⟨26, 28, 4, 3⟩), (.eof, ⟨28, 28, 5, 2⟩)] ∧
    Tiles ls source := by
  obtain ⟨source, hsource⟩ : ∃ source, source = "<?php // é\n$a = 'x\ny';\n?>\nb" := ⟨_, rfl⟩
  have hspans : (ofFile source).toOption.map (·.map fun l => (l.kind, l.span)) =
      some [(.openTag, ⟨0, 5, 1, 1⟩), (.comment, ⟨6, 11, 1, 7⟩), (.var, ⟨12, 14, 2, 1⟩),
        (.equals, ⟨15, 16, 2, 4⟩), (.quoted, ⟨17, 22, 2, 6⟩), (.semicolon, ⟨22, 23, 3, 3⟩),
          (.closeTag, ⟨24, 26, 4, 1⟩),
        (.html, ⟨26, 28, 4, 3⟩), (.eof, ⟨28, 28, 5, 2⟩)] := by
    rw [hsource]
    decide +kernel
  cases hls : ofFile source with
  | error e =>
    rw [hls] at hspans
    cases hspans
  | ok ls =>
    rw [hls] at hspans
    exact ⟨source, ls, hsource, hls, Option.some.inj hspans, tiles_source (.inl hls)⟩

end ClassEdit
