import ClassEdit.Proofs.File.Copying
import ClassEdit.Proofs.Token.Normalizing

/-!
Literals from the source of a file to its text. Main statement: a file is printed with the literals
of its source, and what they lose is carriage returns before newlines and nothing else.
-/

namespace ClassEdit

open Scan (Holds)

namespace SourceFile

/-- The text before the code is read up to the tag. -/
theorem opening_copied {c : Cursor} (hc : c.IsIn .html) :
    c.Reaches [] .html (c.skip (if c.isAt .html then 1 else 0)) ∧
      Tells .html .code AtLineEnd
        ((if c.isAt .html then some c.head.string else none).getD "" ++ "<?php") [] := by
  cases hhtml : c.isAt .html with
  | false => exact ⟨hc.refl, tells_openTag⟩
  | true =>
    have hkind : c.head.kind = .html := eq_of_beq hhtml
    obtain ⟨m, hlexed⟩ := hc.lexed
    have hahead := hlexed.ahead_ne_nil (by rw [hkind]; decide)
    obtain ⟨mode, d, hbegins⟩ := hc.begins_head hahead
    have hreaches := hc.skip_one hahead (by rw [hkind]; rfl)
    rw [hkind] at hbegins hreaches
    exact ⟨hreaches, tells_html (Stmt.html_of_begins hbegins)⟩

/-- A text of nothing but blanks tells nothing, neither in the code nor outside. -/
theorem holds_newline (mode : Mode) : Holds mode ['\n'] [] := by
  cases mode with
  | code => exact (Holds.nil .code).separator (c := '\n') (by decide)
  | html =>
    have hbegins : Scan.Begins .html .html ['\n'] [] :=
      Scan.begins_html_iff.2 (.inr ⟨rfl, nofun, rfl⟩)
    exact (Holds.nil .html).lexeme hbegins

/-- The text behind the statements. -/
theorem holds_ending {mode : Mode} {c : Cursor} {epilogue : Option String}
    (h : Stmt.EndsIn mode c epilogue) :
    Holds mode (epilogue.elim "\n" ("\n?>" ++ ·)).toList [] := by
  cases epilogue with
  | none => exact holds_newline mode
  | some text =>
    obtain ⟨rfl, -, -, hend⟩ := h
    obtain ⟨ys, hys, htag⟩ := tells_newline.before tells_closeTag
    cases hys
    rw [Option.elim_some, String.toList_append]
    exact htag text.toList [] trivial hend

theorem opens_ending (epilogue : Option String) :
    Opens AtLineEnd (epilogue.elim "\n" ("\n?>" ++ ·)) := by
  have htag : Opens AtLineEnd "\n?>" := Opens.newline.append "?>"
  cases epilogue with
  | none => exact Opens.newline
  | some text => exact htag.append text

/-- No literal is left at the end. -/
theorem literals_of_end {mode : Mode} {c : Cursor} (hc : c.IsIn mode) (hahead : c.ahead = []) :
    Lexeme.literals c.pieces = [] := by
  obtain ⟨m, hlexed⟩ := hc.lexed
  have heof : Lexeme.literals [c.eof.toLexeme] = [] :=
    Lexeme.literals_of_plain fun l hl => by rw [List.mem_singleton.1 hl, hlexed.eof]; rfl
  rw [Cursor.pieces_of_nil hahead, Lexeme.literals_append, Lexeme.literals_of_comments hc.comments,
    heof, List.nil_append]

/-- The text of a file before the line endings are put in tells the literals of its source. -/
theorem ofSource_copied {layout : Layout} (hlayout : IsIndent layout.indent)
    {source : String} {f : SourceFile} {ls : List Lexeme} (hf : ofSource source = .ok f)
    (hls : Lexeme.ofFile source = .ok ls) :
    ∃ ys, List.Forall₂ LosesReturns (Lexeme.literals ls) ys ∧
      Holds .html (f.plainText layout).toList ys := by
  unfold ofSource at hf
  rw [hls] at hf
  obtain ⟨hlexed, hpieces⟩ := Cursor.isLexed_ofLexemes hls
  have hc : (Cursor.ofLexemes ls).IsIn .html :=
    ⟨⟨_, hlexed⟩, _, _, by rw [hpieces]; exact Scan.scanned_of_lexemes hls⟩
  obtain ⟨hreaches, hopening⟩ := opening_copied hc
  rw [ok_bind] at hf
  dsimp only at hf
  split at hf
  next => cases hf
  next _ c₁ h₁ htag =>
    obtain ⟨⟨⟨stmts, closing, epilogue⟩, c₂, h₂⟩, houter, hf⟩ := bind_eq_ok.1 hf
    cases hf
    have hreaches₁ := hreaches.trans (hreaches.isIn.take? htag rfl).1
    obtain ⟨hahead, xs, mode, hlist⟩ := Stmt.readOuter_copied hlayout ⟨hreaches₁.isIn, nofun⟩ houter
    have hmargin : IsIndent "" := nofun
    have hbody :=
      (hopening.append (hlist.stmts "" true none hmargin) (Stmt.keeps_listText _ _ _)).append
      (hlist.closingText hmargin) (keeps_linesAt _ _)
    obtain ⟨mode', hend⟩ := hlist.ends.exists_isIn
    have hliterals : Lexeme.literals ls = xs := by
      have hall := hreaches₁.literals.trans (congrArg ([] ++ ·) hlist.literals)
      rw [hpieces, literals_of_end hend hahead] at hall
      simpa using hall
    obtain ⟨ys, hys, hholds⟩ := hbody
    simp only [List.nil_append, List.append_nil] at hys
    refine ⟨ys, hliterals ▸ hys, ?_⟩
    have hopens := opens_ending epilogue []
    rw [List.append_nil] at hopens
    have hall := hholds _ _ hopens (holds_ending hlist.ends)
    rw [List.append_nil, ← String.toList_append] at hall
    rw [plainText]
    cases epilogue <;> exact hall

theorem map_normalize_eq_iff {xs ys : List (List Char)} (h : List.Forall₂ LosesReturns xs ys) :
    ys.map LineEnding.normalize = xs ↔ ∀ x ∈ xs, ¬['\r', '\n'] <:+: x := by
  induction h with
  | nil => simp
  | cons hx _ ih =>
      rw [List.map_cons, List.cons.injEq, List.forall_mem_cons, ih, LineEnding.normalize_eq_iff hx]

/-- A file that was read is printed with the literals of its source, in their order. Nothing but
carriage returns before newlines is lost, and the literals are the same if and only if none of them
has such a carriage return. -/
theorem ofSource_literals {layout : Layout} (hlayout : IsIndent layout.indent)
    (hending : layout.lineEnding = "\n") {source : String} {f : SourceFile}
    (hf : ofSource source = .ok f) :
    ∃ ls printed, Lexeme.ofFile source = .ok ls ∧ Lexeme.ofFile (f.text layout) = .ok printed ∧
      List.Forall₂ LosesReturns (Lexeme.literals ls) (Lexeme.literals printed) ∧
      (Lexeme.literals printed = Lexeme.literals ls ↔
        ∀ x ∈ Lexeme.literals ls, ¬['\r', '\n'] <:+: x) := by
  obtain ⟨ls, hls, -⟩ := bind_eq_ok.1 hf
  obtain ⟨ys, hys, hholds⟩ := ofSource_copied hlayout hf hls
  obtain ⟨ms, hms, rfl⟩ := hholds .start
  obtain ⟨printed, hprinted, hliterals⟩ := hms.holds_normalize .start
  have htext : (f.text layout).toList = LineEnding.normalize (f.plainText layout).toList := by
    rw [text, String.toList_ofList, hending]
    exact LineEnding.replaceWith_newline _
  refine ⟨ls, printed, hls, ?_, ?_, ?_⟩
  · rw [Lexeme.ofFile, htext]
    exact hprinted.lexemes_eq
  · rw [hliterals, List.forall₂_map_right_iff]
    exact hys.imp fun x y h => h.trans (.normalize y)
  · rw [hliterals]
    exact map_normalize_eq_iff hys

/-- A class with a literal in an attribute, a field, a parameter and a body. -/
theorem ofSource_literals_class : ∃ source f printed,
    source =
      "<?php\n#[B('a')]\nclass A\n\x7b\npublic $a = 'x\n  y';\nfunction f($b = \"c\") \x7b return <<<T\n  d\n  T; \x7d\n\x7d\n" ∧
      ofSource source = .ok f ∧ Lexeme.ofFile (f.text .standard) = .ok printed ∧
      Lexeme.literals printed = ["'a'", "'x\n  y'", "\"c\"", "<<<T\n  d\n  T"].map
        String.toList := by
  obtain ⟨source, hsource⟩ : ∃ source, source =
      "<?php\n#[B('a')]\nclass A\n\x7b\npublic $a = 'x\n  y';\nfunction f($b = \"c\") \x7b return <<<T\n  d\n  T; \x7d\n\x7d\n" :=
    ⟨_, rfl⟩
  have hread : (ofSource source).toOption.isSome = true := by
    rw [hsource]
    decide +kernel
  have hliterals : (Lexeme.ofFile source).toOption.map Lexeme.literals =
      some (["'a'", "'x\n  y'", "\"c\"", "<<<T\n  d\n  T"].map String.toList) := by
    rw [hsource]
    decide +kernel
  cases hf : ofSource source with
  | error e =>
    rw [hf] at hread
    cases hread
  | ok f =>
    have hindent : IsIndent Layout.standard.indent := by decide
    obtain ⟨ls, printed, hls, hprinted, -, hiff⟩ := ofSource_literals hindent rfl hf
    rw [hls] at hliterals
    have hsame := Option.some.inj hliterals
    have hplain : ∀ x ∈ Lexeme.literals ls, ¬['\r', '\n'] <:+: x := by
      rw [hsame]
      decide +kernel
    exact ⟨source, f, printed, hsource, hf, hprinted, (hiff.2 hplain).trans hsame⟩

/-- A literal of two lines loses the carriage return between them. -/
theorem ofSource_literals_ne :
    ((ofSource "<?php\n\nclass A\n\x7b\n    public $a = 'x\r\ny';\n\x7d\n").toOption.bind fun f =>
        (Lexeme.ofFile (f.text .standard)).toOption.map Lexeme.literals) = some ["'x\ny'".toList] ∧
      (Lexeme.ofFile "<?php\n\nclass A\n\x7b\n    public $a = 'x\r\ny';\n\x7d\n").toOption.map
        Lexeme.literals =
        some ["'x\r\ny'".toList] := by
  decide +kernel

end SourceFile

end ClassEdit
