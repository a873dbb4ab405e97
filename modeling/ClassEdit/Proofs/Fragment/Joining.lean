import ClassEdit.Proofs.Fragment.Appending

/-!
Two sources put together. Main statement: where the first ends with a finished statement and a line,
and the second does not go on with that statement, the statements of both are those of the first and
then those of the second. A loop whose condition comes behind its block is one statement, though its
two halves are statements by themselves.
-/

namespace ClassEdit.Fragment

open Cursor (Stands)
open Lexeme (content)
open Scan (Scanned modeAfter)

section OpenTag

variable {cs ds : List Char}

theorem withoutOpenTag_of_not_tag
    (h : ((cs.dropWhile isBlank).take 5).map Char.toLower ≠ "<?php".toList) :
    withoutOpenTag cs = cs :=
  if_neg (mt eq_of_beq h)

theorem exists_withoutOpenTag (cs : List Char) : ∃ before, cs = before ++ withoutOpenTag cs := by
  have htrim := List.takeWhile_append_dropWhile (p := isBlank) (l := cs)
  unfold withoutOpenTag
  dsimp only
  split
  next =>
    refine ⟨cs.takeWhile isBlank ++ (cs.dropWhile isBlank).take 5, ?_⟩
    rw [List.append_assoc, List.take_append_drop, htrim]
  next => exact ⟨[], rfl⟩

/-- The opening tag is taken off the first of two sources, if that is more than blanks
and ends with a line. -/
theorem withoutOpenTag_append (hline : cs.getLast? = some '\n')
    (hcode : ∃ c ∈ cs, isBlank c = false) (ds : List Char) :
    withoutOpenTag (cs ++ ds) = withoutOpenTag cs ++ ds ∧
      (withoutOpenTag cs).getLast? = some '\n' := by
  have hne : cs.dropWhile isBlank ≠ [] := by
    intro hnil
    obtain ⟨c, hc, hcode⟩ := hcode
    rw [← List.takeWhile_append_dropWhile (p := isBlank) (l := cs), hnil, List.append_nil] at hc
    rw [List.all_eq_true.1 List.all_takeWhile c hc] at hcode
    cases hcode
  obtain ⟨trimmed, htrimmed⟩ : ∃ trimmed, cs.dropWhile isBlank = trimmed ++ ['\n'] := by
    refine List.getLast?_eq_some_iff.1 ?_
    rw [← hline]
    conv => rhs; rw [← List.takeWhile_append_dropWhile (p := isBlank) (l := cs)]
    rw [List.getLast?_append, List.getLast?_eq_some_getLast hne, Option.some_or]
  have hboth : (cs ++ ds).dropWhile isBlank = trimmed ++ '\n' :: ds := by
    rw [List.dropWhile_append, if_neg (by simpa using hne), htrimmed, List.append_assoc]
    rfl
  have htag (ds : List Char) : ((trimmed ++ '\n' :: ds).take 5).map Char.toLower = "<?php".toList ↔
      (trimmed.take 5).map Char.toLower = "<?php".toList := by
    refine Scan.tag_append_atBreak (fun c hc => .inr ?_) trimmed
    exact (Option.some.inj hc).symm
  unfold withoutOpenTag
  rw [hboth, htrimmed]
  simp only [beq_iff_eq, htag]
  split
  next hopen =>
    have hlength := Scan.length_of_tag hopen
    rw [List.drop_append_of_le_length hlength, List.drop_append_of_le_length hlength,
      List.append_assoc, List.getLast?_concat]
    exact ⟨rfl, rfl⟩
  next => exact ⟨rfl, hline⟩

end OpenTag

section Lexed

variable {source : String} {stmts : List InnerStmt} {cs ds : List Char} {ls : List Lexeme}
  {parts : List (List Lexeme)}

/-- The lexemes of the last statement of a source. -/
def LastPart (source : String) (part : List Lexeme) : Prop :=
  ∃ ls parts, Lexeme.ofCode (withoutOpenTag source.toList) = .ok ls ∧ Parts (.ofLexemes ls) parts ∧
    part ∈ parts.getLast?

/-- The first lexeme of a source that is no comment, at last its end. -/
def FirstToken (source : String) (l : Lexeme) : Prop :=
  ∃ ls, Lexeme.ofCode (withoutOpenTag source.toList) = .ok ls ∧ l ∈ (tokens ls).head?

/-- The last part is that of the last statement. -/
theorem LastPart.text {part : List Lexeme} (h : LastPart source part)
    (hsource : ofSource source = .ok stmts) :
    stmts.getLast?.map (·.text) = some (partText part) := by
  obtain ⟨ls, parts, hls, hparts, htexts⟩ := exists_parts hsource
  obtain ⟨ls', parts', hls', hparts', hlast⟩ := h
  cases hls.symm.trans hls'
  obtain rfl := hparts.unique hparts'
  rw [← List.getLast?_map, htexts, List.getLast?_map, Option.mem_def.1 hlast]
  rfl

/-- All lexemes of a source but its end are those of the only statement. -/
theorem LastPart.of_singleton {stmt : InnerStmt} (h : ofSource source = .ok [stmt])
    (hls : Lexeme.ofCode (withoutOpenTag source.toList) = .ok ls) :
    LastPart source ls.dropLast := by
  obtain ⟨ls', parts, hls', hparts, htexts⟩ := exists_parts h
  cases hls.symm.trans hls'
  obtain ⟨part, rfl⟩ : ∃ part, parts = [part] := by
    refine List.length_eq_one_iff.1 ?_
    rw [← List.length_map partText, ← htexts]
    rfl
  have hflatten := congrArg List.dropLast (flatten_parts hls hparts)
  rw [List.flatten_singleton, List.dropLast_concat] at hflatten
  exact ⟨ls, [part], hls, hparts, congrArg some hflatten.symm⟩

theorem stands_ofLexemes (h : Scan.lexemes .code .start cs = .ok ls) :
    (Cursor.ofLexemes ls).Stands := by
  obtain ⟨hlexed, hpieces⟩ := Cursor.isLexed_ofLexemes h
  exact ⟨⟨_, hlexed⟩, .code, .start, _, hpieces ▸ Scan.scanned_of_lexemes h, nofun⟩

/-- The first token is the head of the cursor. -/
theorem FirstToken.eq_head {l : Lexeme} (h : FirstToken source l)
    (hls : Lexeme.ofCode (withoutOpenTag source.toList) = .ok ls) :
    l = (Cursor.ofLexemes ls).head.toLexeme := by
  obtain ⟨ls', hls', hl⟩ := h
  cases hls.symm.trans hls'
  obtain ⟨hlexed, hpieces⟩ := Cursor.isLexed_ofLexemes hls
  obtain ⟨behind, hahead, -⟩ := (Cursor.ofLexemes ls).pieces_eq_append
  have hkind := kind_head_ne_comment ⟨_, hlexed⟩
  have hcomments := tokens_of_comments (Cursor.comments_of_lexed ⟨_, hlexed⟩)
  rw [← hpieces, hahead, tokens_append, hcomments, List.nil_append, tokens, List.filter_cons,
    if_pos (bne_iff_ne.2 hkind)] at hl
  exact (Option.some.inj hl).symm

/-- Code that stands elsewhere, with white space before it, has parts with the same texts. -/
theorem Parts.exists_behindGap {mode : Mode} {p : Position} {l : Lexeme}
    {ms : List Lexeme} {gap : List Char} (h : Parts (.ofLexemes ls) parts)
    (hls : Scan.lexemes .code .start cs = .ok ls)
    (hms : Scan.lexemes mode p ds = .ok (l.behindGap gap :: ms))
    (hcontent : (l :: ms).map content = ls.map content) :
    Cursor.Matches false (.ofLexemes ls) (.ofLexemes (l.behindGap gap :: ms)) ∧
      ∃ parts', Parts (.ofLexemes (l.behindGap gap :: ms)) parts' ∧ parts'.map partText =
        parts.map partText := by
  obtain ⟨m, ns, rfl, hm, hns⟩ := List.map_eq_cons_iff.1 hcontent.symm
  have halike : Lexeme.Alike false (m :: ns) (l.behindGap gap :: ms) := by
    have hsame := Lexeme.same_of_content hm.symm
    exact .cons ⟨hsame.kind, hsame.text⟩ nofun (Lexeme.alike_of_content hns.symm _)
  have hmatches := matches_ofLexemes hls halike
  have hstands := stands_ofLexemes hls
  obtain ⟨parts', hparts', hcuts⟩ := h.exists_sameCuts hstands hmatches
  refine ⟨hmatches, parts', hparts', ?_⟩
  have hflatten := flatten_parts hls h
  have hflatten' := flatten_parts hms hparts'
  have hexcerpts : parts'.map excerpt = parts.map excerpt := by
    cases h.divided hstands with
    | nil =>
      cases hcuts
      rfl
    | @cons first rest parts _ _ =>
      rw [List.flatten_cons, List.cons_append, List.cons_append] at hflatten
      obtain ⟨rfl, hbehind⟩ := List.cons.inj hflatten
      obtain ⟨xs, hxs, hms⟩ : ∃ xs, parts'.flatten = l.behindGap gap :: xs ∧
        ∃ e, ms = xs ++ [e] := by
        rcases List.cons_eq_append_iff.1 hflatten' with ⟨-, hone⟩ | ⟨xs, hxs, hms⟩
        · obtain ⟨-, rfl⟩ := List.cons.inj hone
          rw [hbehind] at hns
          simp at hns
        · exact ⟨xs, hxs, _, hms⟩
      obtain ⟨e, rfl⟩ := hms
      rw [hbehind, List.map_append] at hns
      have hrest := (List.append_inj' (hns.trans List.map_append) rfl).1
      exact map_excerpt_of_sameCuts hcuts (List.cons_ne_nil _ _) rfl hxs
        (congrArg Prod.snd hm).symm hrest.symm
  have htexts := congrArg (List.map String.ofList) hexcerpts
  rw [List.map_map, List.map_map] at htexts
  exact htexts

theorem IsFinished.kind_last {part : List Lexeme} {last : Lexeme} (h : IsFinished part)
    (hlast : last ∈ part.getLast?) :
    last.kind = .comment ∨ last.kind = .semicolon ∨ last.kind = .rightBrace := by
  obtain ⟨l, hl, hkind⟩ := h
  obtain ⟨ls, rfl⟩ := List.getLast?_eq_some_iff.1 hlast
  by_cases hcomment : last.kind = .comment
  · exact .inl hcomment
  · have hself : tokens [last] = [last] := by simp [tokens, hcomment]
    rw [tokens_append, hself, List.getLast?_concat] at hl
    obtain rfl := Option.some.inj hl
    exact .inr hkind

/-- Where the last part is finished, a source ends in code. -/
theorem exists_last_flatten {part : List Lexeme} (hpart : part ∈ parts.getLast?)
    (h : IsFinished part) :
    ∃ last ∈ parts.flatten.getLast?, last.kind = .comment ∨ last.kind = .semicolon ∨
      last.kind = .rightBrace := by
  obtain ⟨init, rfl⟩ := List.getLast?_eq_some_iff.1 hpart
  have hne : part ≠ [] := by
    rintro rfl
    obtain ⟨l, hl, -⟩ := h
    cases hl
  have hlast := List.getLast?_eq_some_getLast hne
  refine ⟨part.getLast hne, ?_, h.kind_last hlast⟩
  rw [List.flatten_concat, List.getLast?_append, hlast]
  rfl

theorem exists_not_isBlank {p : Position} {l : Lexeme} (h : Scanned .code p cs (l :: ls))
    (hls : ls ≠ []) :
    ∃ c ∈ cs, isBlank c = false := by
  obtain ⟨d, rfl, -, ⟨c, t, htext, hc, -⟩, -⟩ := h.uncons hls
  refine ⟨c, ?_, hc rfl⟩
  rw [htext]
  simp

/-- Behind a source that ends with a finished statement and a line, code has the lexemes that it has
by itself, and the white space at the end of the source before the first of them. -/
theorem exists_lexemes_append {a b : String} {la lb part : List Lexeme}
    (hla : Lexeme.ofCode (withoutOpenTag a.toList) = .ok la) (hparts : Parts (.ofLexemes la) parts)
    (hpart : part ∈ parts.getLast?) (hend : IsFinished part) (hline : a.toList.getLast? = some '\n')
    (hlb : Scan.lexemes .code .start b.toList = .ok lb) :
    ∃ l ms gap p ds, '\n' ∈ gap ∧ (l :: ms).map content = lb.map content ∧
      Scan.lexemes .code p ds = .ok (l.behindGap gap :: ms) ∧
      Lexeme.ofCode (withoutOpenTag (a ++ b).toList) =
        .ok (parts.flatten ++ l.behindGap gap :: ms) := by
  obtain ⟨last, hlast, hkind⟩ := exists_last_flatten hpart hend
  have hcode : modeAfter last.kind = .code ∧ last.kind ≠ .html ∧ last.kind.isLiteral = false := by
    rcases hkind with hkind | hkind | hkind <;>
    · rw [hkind]
      exact ⟨rfl, nofun, rfl⟩
  have hscanned := Scan.scanned_of_lexemes hla
  rw [flatten_parts hla hparts] at hscanned
  obtain ⟨m, rest, hflatten⟩ :=
    List.exists_cons_of_ne_nil (List.ne_nil_of_mem (List.mem_of_getLast? hlast))
  obtain ⟨c, hc, hvisible⟩ := exists_not_isBlank (hflatten ▸ hscanned) (by simp)
  obtain ⟨before, hbefore⟩ := exists_withoutOpenTag a.toList
  obtain ⟨hboth, hcodeLine⟩ :=
    withoutOpenTag_append hline ⟨c, hbefore ▸ List.mem_append_right before hc, hvisible⟩ b.toList
  obtain ⟨lb', hlb', hcontent⟩ :=
    (Scan.scanned_of_lexemes hlb).exists_at (Position.SameMargin.of_newline hcodeLine .start)
  obtain ⟨l, ms, rfl⟩ := List.exists_cons_of_ne_nil hlb'.ne_nil
  have honly {P : Lexeme → Prop} (h : P last) : ∀ x ∈ parts.flatten.getLast?, P x := by
    intro x hx
    obtain rfl := Option.some.inj ((Option.mem_def.1 hlast).symm.trans hx)
    exact h
  -- the last lexeme cannot hold the end of its line, so that is white space before the code behind
  -- it
  have hgap := hscanned.newline_mem_gap hcodeLine (honly hcode.2)
  have hall := hscanned.append hlb' (honly hcode.1) (fun _ => rfl) hgap
  obtain ⟨p, ds, hbehind⟩ := hall.behind (List.cons_ne_nil _ _) hlast
  rw [hcode.1] at hbehind
  refine ⟨l, ms, _, p, ds, hgap, hcontent, hbehind.lexemes_eq, ?_⟩
  rw [String.toList_append, hboth]
  exact hall.lexemes_eq

/-- A source that ends with a finished statement and a line, and a source that does not go on with
that statement, put together have the statements of the one and then those of the other. -/
theorem texts_append {a b : String} {stmts stmts' : List InnerStmt}
    {part : List Lexeme} {l : Lexeme} (ha : ofSource a = .ok stmts) (hb : ofSource b = .ok stmts')
    (hline : a.toList.getLast? = some '\n') (hpart : LastPart a part) (hend : IsFinished part)
    (htag : ((b.toList.dropWhile isBlank).take 5).map Char.toLower ≠ "<?php".toList)
    (hfirst : FirstToken b l) (hfollows : Follows part l) :
    ∃ both, ofSource (a ++ b) = .ok both ∧ both.map (·.text) = stmts.map (·.text) ++
      stmts'.map (·.text) := by
  obtain ⟨la, parts, hla, hparts, htexts⟩ := exists_parts ha
  obtain ⟨lb, parts', hlb, hparts', htexts'⟩ := exists_parts hb
  obtain ⟨_, _, hla', hparts₂, hlast⟩ := hpart
  cases hla.symm.trans hla'
  obtain rfl := hparts.unique hparts₂
  obtain rfl := hfirst.eq_head hlb
  rw [withoutOpenTag_of_not_tag htag] at hlb
  obtain ⟨m, ms, gap, p, ds, hgap, hcontent, hms, hboth⟩ :=
    exists_lexemes_append hla hparts hlast hend hline hlb
  obtain ⟨hmatches, moved, hmoved, hsame⟩ := hparts'.exists_behindGap hlb hms hcontent
  have hhead := (hmatches.head (stands_ofLexemes hlb).inside).same
  have hnext : Follows part (Cursor.ofLexemes (m.behindGap gap :: ms)).head.toLexeme :=
    ⟨(hhead.isAnyWord _).trans hfollows.word, fun hdo => (hhead.isWord _).trans (hfollows.loop hdo)⟩
  -- white space with a newline is before the first lexeme now, so its comments stay with its
  -- statement
  have hnewLine : ∀ c ∈ (Cursor.ofLexemes (m.behindGap gap :: ms)).head.comments.head?,
      c.isOnNewLine = true := by
    intro c hc
    obtain ⟨cs, hcs⟩ := List.head?_eq_some_iff.1 hc
    obtain ⟨behind, hpieces, -⟩ := (Cursor.ofLexemes (m.behindGap gap :: ms)).pieces_eq_append
    rw [(Cursor.isLexed_ofLexemes hms).2, hcs, List.cons_append] at hpieces
    obtain ⟨rfl, -⟩ := List.cons.inj hpieces
    simp [Lexeme.isOnNewLine, Lexeme.behindGap, hgap]
  obtain ⟨hlexed, -⟩ := Cursor.isLexed_ofLexemes hla
  have hjoined := hparts.append ⟨_, hlexed⟩
    (fun x hx => Option.some.inj ((Option.mem_def.1 hlast).symm.trans hx) ▸ ⟨hend, hnext⟩)
      hnewLine hmoved
  have heof : (Cursor.ofLexemes la).eof.kind ≠ .comment := by rw [hlexed.eof]; decide
  obtain ⟨hne, hcomment⟩ := Scan.last_lexemes hms
  rw [flatten_parts hla hparts,
    ← Cursor.ofLexemes_append heof (Token.ofLexemes_ne_nil hcomment hne)] at hjoined
  obtain ⟨both, hofSource, htextsBoth⟩ := ofSource_of_parts hboth hjoined
  exact ⟨both, hofSource, by rw [htextsBoth, List.map_append, hsame, htexts, htexts']⟩

/-- What is read where the reading gives something known. -/
theorem exists_of_toOption {α β : Type} {e : Except ParseError α} {f : α → β} {b : β}
    (h : e.toOption.map f = some b) : ∃ a, e = .ok a ∧ f a = b := by
  cases e with
  | error => cases h
  | ok a => exact ⟨a, rfl, Option.some.inj h⟩

/-- A block that ends with a comment, and a loop behind it. -/
theorem texts_append_if :
    ∃ both, ofSource
      ("if ($a) \x7b\n  f();\n\x7d // done\n" ++ "while ($x) \x7b g(); \x7d\nh();\n") = .ok both ∧
      both.map (·.text) =
        ["if ($a) \x7b\n  f();\n\x7d // done", "while ($x) \x7b g(); \x7d", "h();"] := by
  have htexts : (ofSource "if ($a) \x7b\n  f();\n\x7d // done\n").toOption.map (·.map (·.text)) =
      some ["if ($a) \x7b\n  f();\n\x7d // done"] := by decide +kernel
  have htexts' : (ofSource "while ($x) \x7b g(); \x7d\nh();\n").toOption.map (·.map (·.text)) =
      some ["while ($x) \x7b g(); \x7d", "h();"] := by decide +kernel
  have hpart :
      (Lexeme.ofCode (withoutOpenTag "if ($a) \x7b\n  f();\n\x7d // done\n".toList)).toOption.map
        (fun ls =>
      ((tokens ls.dropLast).getLast?.map (·.kind), (tokens ls.dropLast).head?.map
        (·.isWord "do"))) =
        some (some .rightBrace, some false) := by decide +kernel
  have hnext :
      (Lexeme.ofCode (withoutOpenTag "while ($x) \x7b g(); \x7d\nh();\n".toList)).toOption.map
        (fun ls =>
      (tokens ls).head?.map (·.isAnyWord Extent.continuations)) = some (some false) := by
    decide +kernel
  obtain ⟨stmts, ha, hstmts⟩ := exists_of_toOption htexts
  obtain ⟨stmts', hb, hstmts'⟩ := exists_of_toOption htexts'
  obtain ⟨la, hla, hpart⟩ := exists_of_toOption hpart
  obtain ⟨lb, hlb, hnext⟩ := exists_of_toOption hnext
  obtain ⟨hend, hfirst⟩ := Prod.mk.inj hpart
  obtain ⟨last, hlast, hkind⟩ := Option.map_eq_some_iff.1 hend
  obtain ⟨first, hhead, hdo⟩ := Option.map_eq_some_iff.1 hfirst
  obtain ⟨next, hnext, hword⟩ := Option.map_eq_some_iff.1 hnext
  obtain ⟨stmt, rfl⟩ : ∃ stmt, stmts = [stmt] :=
    List.length_eq_one_iff.1 (by simpa using congrArg List.length hstmts)
  have hfollows : Follows la.dropLast next := by
    refine ⟨hword, ?_⟩
    rintro ⟨m, hm, hloop⟩
    obtain rfl := Option.some.inj (hhead.symm.trans hm)
    cases hdo.symm.trans hloop
  obtain ⟨both, hboth, hjoined⟩ := texts_append ha hb (by decide) (.of_singleton ha hla)
    ⟨last, hlast, .inr hkind⟩
    (by decide) ⟨lb, hlb, hnext⟩ hfollows
  exact ⟨both, hboth, by rw [hjoined, hstmts, hstmts']; rfl⟩

/-- A loop goes on behind its block, though that is a statement by itself and so is what comes
behind. -/
theorem texts_append_do :
    ∃ stmts stmts' both part l, ofSource "do \x7b f(); \x7d\n" = .ok stmts ∧
      ofSource "while ($x);\n" = .ok stmts' ∧
      LastPart "do \x7b f(); \x7d\n" part ∧ IsFinished part ∧
      FirstToken "while ($x);\n" l ∧ l.isAnyWord Extent.continuations = false ∧
      ofSource ("do \x7b f(); \x7d\n" ++ "while ($x);\n") = .ok both ∧
      both.map (·.text) = ["do \x7b f(); \x7d\nwhile ($x);"] ∧
      both.map (·.text) ≠ stmts.map (·.text) ++ stmts'.map (·.text) := by
  have htexts : (ofSource "do \x7b f(); \x7d\n").toOption.map (·.map (·.text)) =
      some ["do \x7b f(); \x7d"] := by
    decide +kernel
  have htexts' : (ofSource "while ($x);\n").toOption.map (·.map (·.text)) =
      some ["while ($x);"] := by
    decide +kernel
  have hjoined : (ofSource ("do \x7b f(); \x7d\n" ++ "while ($x);\n")).toOption.map
      (·.map (·.text)) =
      some ["do \x7b f(); \x7d\nwhile ($x);"] := by decide +kernel
  have hpart : (Lexeme.ofCode (withoutOpenTag "do \x7b f(); \x7d\n".toList)).toOption.map (fun ls =>
      (tokens ls.dropLast).getLast?.map (·.kind)) = some (some .rightBrace) := by decide +kernel
  have hnext : (Lexeme.ofCode (withoutOpenTag "while ($x);\n".toList)).toOption.map (fun ls =>
      (tokens ls).head?.map (·.isAnyWord Extent.continuations)) = some (some false) := by
    decide +kernel
  obtain ⟨stmts, ha, hstmts⟩ := exists_of_toOption htexts
  obtain ⟨stmts', hb, hstmts'⟩ := exists_of_toOption htexts'
  obtain ⟨both, hboth, hjoined⟩ := exists_of_toOption hjoined
  obtain ⟨la, hla, hpart⟩ := exists_of_toOption hpart
  obtain ⟨lb, hlb, hnext⟩ := exists_of_toOption hnext
  obtain ⟨last, hlast, hkind⟩ := Option.map_eq_some_iff.1 hpart
  obtain ⟨next, hnext, hword⟩ := Option.map_eq_some_iff.1 hnext
  obtain ⟨stmt, rfl⟩ : ∃ stmt, stmts = [stmt] :=
    List.length_eq_one_iff.1 (by simpa using congrArg List.length hstmts)
  refine ⟨_, stmts', both, la.dropLast, next, ha, hb, .of_singleton ha hla,
    ⟨last, hlast, .inr hkind⟩, ⟨lb, hlb, hnext⟩,
    hword, hboth, hjoined, ?_⟩
  rw [hjoined, hstmts, hstmts']
  decide

end Lexed

end ClassEdit.Fragment
