import ClassEdit.Proofs.Token.Copying

/-!
Sources whose line endings are normalized. They are cut into the same lexemes. Main statement: of
the literals nothing but their line endings is normalized.
-/

namespace ClassEdit.Scan

variable {mode : Mode} {kind : TokenKind} {p : Position} {cs x y d : List Char}
  {ls : List Lexeme} {b : Bool}

/-- What is behind a lexeme stays the same up to the end of its line. -/
theorem ahead_normalize (kind : TokenKind) (d : List Char) :
    Ahead kind d (LineEnding.normalize d) := by
  obtain ⟨right, hright, hmoved⟩ := LineEnding.normalize_append_movedLeft false d []
  obtain rfl : LineEnding.normalize d = right := by simpa [LineEnding.normalize] using hright
  obtain ⟨line, e, e', hd, hright, -, hbreak, hnil, hend⟩ := hmoved.sameLine
  rw [List.map_map, Function.comp_def, List.map_id'] at hd
  have hrest : AtLineEnd e' := by
    by_cases he : e = []
    · rw [hnil he]
      simp [AtLineEnd]
    · have hend := hend he
      rwa [LineEnding.normalize, List.append_nil] at hend
  refine ⟨⟨line, e, e', hd, hright, hrest, fun _ hline hbrace => ?_⟩, fun _ htag => ?_⟩
  · rw [hd, hline] at hbrace
    rcases hbreak _ hbrace with heq | heq <;> cases heq
  · rw [hd] at htag
    rw [hright]
    rcases startsWith_of_sameLine htag hbreak e' with rfl | htag
    · exact .inl hrest
    · exact .inr htag

/-- Behind text outside of the tags comes the same tag, or the end. -/
theorem outside_normalize (hx : Begins .html .html x d) (hd : Scanned .html p d ls) :
    Outside d (LineEnding.normalize d) := by
  cases hd with
  | eof _ hgap =>
    obtain rfl : d = [] := hgap
    exact .eof
  | @cons _ _ gap t d _ _ hgap ht hd =>
    obtain ⟨hkind, -⟩ := openTag_of_html hx (.cons hgap ht hd) hd.ne_nil
    obtain rfl : gap = [] := hgap
    obtain rfl : _ = TokenKind.openTag := hkind
    obtain ⟨y, hy, hmoved⟩ := LineEnding.normalize_append_movedLeft false t d
    obtain ⟨hbegins, htext⟩ := ht.movedLeft nofun hmoved (ahead_normalize _ d)
    obtain rfl := htext rfl
    rcases begins_html_iff.1 hbegins with ⟨-, hlength, htag⟩ | ⟨hhtml, -⟩
    · rw [List.nil_append, hy]
      exact .tag hlength htag
    · cases hhtml

/-- What is left of a lexeme begins the normalized text. -/
theorem Begins.normalize (hx : Begins mode kind x d) (hd : Scanned (modeAfter kind) p d ls) :
    ∃ y, LineEnding.normalize (x ++ d) = y ++ LineEnding.normalize d ∧
      Begins mode kind y (LineEnding.normalize d) ∧
      (kind.isLiteral = true → y = LineEnding.normalize x) := by
  obtain ⟨y, hy, hmoved⟩ := LineEnding.normalize_append_movedLeft kind.isLiteral x d
  refine ⟨y, hy, ?_, fun hliteral => ?_⟩
  · by_cases hhtml : mode = .html ∧ kind = .html
    · obtain ⟨rfl, rfl⟩ := hhtml
      rcases begins_html_iff.1 hx with ⟨hopen, -⟩ | ⟨-, hne, hlength⟩
      · cases hopen
      have hout := outside_normalize hx hd
      refine begins_html_iff.2 (.inr ⟨rfl, ?_, htmlLength_movedLeft hmoved hlength hout⟩)
      rintro rfl
      generalize hrest : LineEnding.normalize d = rest at hout hmoved hy
      cases hout with
      | eof =>
        have hnothing := LosesReturns.normalize x
        rw [← List.append_nil x, hy] at hnothing
        cases x with
        | nil => exact hne rfl
        | cons c x => nomatch hnothing
      | tag _ htag =>
        obtain ⟨c, x, rfl⟩ := List.exists_cons_of_ne_nil hne
        cases hmoved with
        | trim hend => exact not_atLineEnd_of_atOpenTag htag hend
    · rw [not_and] at hhtml
      exact (hx.movedLeft hhtml hmoved (ahead_normalize kind d)).1
  · have hlast := (hx.isToken_of_literal hliteral).getLast?_of_literal hliteral
    rw [LineEnding.normalize_append fun hr => absurd hr hlast, List.append_cancel_right_eq] at hy
    exact hy.symm

/-- The literals of a source whose line endings are normalized. -/
theorem Scanned.holds_normalize (h : Scanned mode p cs ls) :
    Holds mode (LineEnding.normalize cs) ((Lexeme.literals ls).map LineEnding.normalize) := by
  have hblank {mode : Mode} {gap : List Char} (hgap : IsGap mode gap) :
      IsGap mode (LineEnding.normalize gap) :=
    hgap.sublist (LosesReturns.normalize gap).sublist
  induction h with
  | eof p hgap =>
    have hend := (Holds.nil _).behindGap (hblank hgap)
    rwa [List.append_nil] at hend
  | @cons mode p gap x d kind ls hgap hx hd ih =>
    obtain ⟨y, hy, hbegins, hliteral⟩ := hx.normalize hd
    have hcut : LineEnding.normalize (gap ++ (x ++ d)) = LineEnding.normalize gap ++
        LineEnding.normalize (x ++ d) := by
      refine LineEnding.normalize_append fun hreturn => ?_
      cases mode with
      | html =>
        obtain rfl : gap = [] := hgap
        cases hreturn
      | code =>
        obtain ⟨c, t, rfl, hc, -⟩ := begins_code_iff.1 hx
        intro hnewline
        obtain rfl := Option.some.inj hnewline
        cases hc
    have hliterals : (if kind.isLiteral then [x] else []).map LineEnding.normalize =
        if kind.isLiteral then [y] else [] := by
      split
      next h => rw [hliteral h, List.map_singleton]
      next => rfl
    rw [hcut, hy, Lexeme.literals_cons, List.map_append, hliterals]
    exact (ih.lexeme hbegins).behindGap (hblank hgap)

end ClassEdit.Scan
