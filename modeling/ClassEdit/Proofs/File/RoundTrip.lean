import ClassEdit.Proofs.Class.Normalization
import ClassEdit.Proofs.File.Reading

/-!
Writing and reading a plain file. A file that is written with newlines is always read again, and
what is read is what was written but for the strings: a carriage return before a newline is lost in
them. Main statement: the file that is read is the file that was written if no string has such a
pair in it, and only then.
-/

namespace ClassEdit

open Scan (isName)

section Values

variable (f : Expr → Expr)

/-- The values of a member are mapped one by one. -/
theorem Member.values_mapValues (m : Member) : (m.mapValues f).values = m.values.map f := by
  cases m with
  | mixins m => rfl
  | constants g =>
      simp [mapValues, values, ConstantGroup.mapValues, ConstantGroup.values, Constant.mapValue]
  | fields g =>
    simp [mapValues, values, FieldGroup.mapValues, FieldGroup.values, Field.mapValue,
      List.filterMap_map, List.map_filterMap]
  | routine r =>
    simp [mapValues, values, Routine.mapValues, Routine.values, Param.mapValue, List.filterMap_map,
      List.map_filterMap]

theorem ClassDecl.values_mapValues (c : ClassDecl) : (c.mapValues f).values = c.values.map f := by
  simp [mapValues, values, List.flatMap_map, List.map_flatMap, MemberStmt.mapValues,
    Member.values_mapValues]

theorem Stmt.values_mapValues (s : Stmt) : (s.mapValues f).values = s.values.map f := by
  cases s with
  | class_ c => exact c.values_mapValues f
  | _ => rfl

theorem Content.values_mapValues (d : Content) : (d.mapValues f).values = d.values.map f := by
  cases d <;> simp [mapValues, values, stmts, List.flatMap_map, List.map_flatMap,
    Stmt.values_mapValues]

end Values

theorem Member.values_settled (m : Member) : m.settled.values = m.values := by
  cases m <;> rfl

theorem MemberStmt.values_settledAfter (previous : Option MemberStmt) (ms : List MemberStmt) :
    (settledAfter previous ms).flatMap (·.member.values) = ms.flatMap (·.member.values) := by
  induction ms generalizing previous with
  | nil => rfl
  | cons m ms ih =>
      rw [settledAfter, List.flatMap_cons, List.flatMap_cons, ih, Member.values_settled]

theorem Stmt.values_settled (usual : Bool) (s : Stmt) : (s.settled usual).values = s.values := by
  cases s with
  | class_ c => exact MemberStmt.values_settledAfter none c.members
  | _ => rfl

theorem Stmt.values_settledAfter (atTop : Bool) (previous : Option Stmt) (ss : List Stmt) :
    (settledAfter atTop previous ss).flatMap (·.values) = ss.flatMap (·.values) := by
  induction ss generalizing previous with
  | nil => rfl
  | cons s ss ih => rw [settledAfter, List.flatMap_cons, List.flatMap_cons, ih, values_settled]

theorem Content.values_settled (d : Content) : d.settled.values = d.values := by
  cases d <;> exact Stmt.values_settledAfter _ none _

section Unchanged

variable {f : Expr → Expr}

theorem map_eq_self {α : Type} {g : α → α} {xs : List α} (h : ∀ x ∈ xs, g x = x) : xs.map g = xs :=
  (List.map_congr_left h).trans (List.map_id' xs)

theorem option_map_eq_self {value : Option Expr} (h : ∀ e ∈ value, f e = e) :
    value.map f = value := by
  cases value with
  | none => rfl
  | some e => rw [Option.map_some, h e rfl]

/-- A member is the same if its values are. -/
theorem Member.mapValues_eq_self {m : Member} (h : ∀ e ∈ m.values, f e = e) :
    m.mapValues f = m := by
  cases m with
  | mixins m => rfl
  | constants g =>
    have hitems : g.items.map (·.mapValue f) = g.items := by
      refine map_eq_self fun c hc => ?_
      rw [Constant.mapValue, h c.value (List.mem_map.2 ⟨c, hc, rfl⟩)]
    rw [mapValues, ConstantGroup.mapValues, hitems]
  | fields g =>
    have hitems : g.items.map (·.mapValue f) = g.items := by
      refine map_eq_self fun v hv => ?_
      rw [Field.mapValue, option_map_eq_self fun e he => h e (List.mem_filterMap.2 ⟨v, hv, he⟩)]
    rw [mapValues, FieldGroup.mapValues, hitems]
  | routine r =>
    have hparams : r.params.map (·.mapValue f) = r.params := by
      refine map_eq_self fun p hp => ?_
      rw [Param.mapValue, option_map_eq_self fun e he => h e (List.mem_filterMap.2 ⟨p, hp, he⟩)]
    rw [mapValues, Routine.mapValues, hparams]

theorem Stmt.mapValues_eq_self {s : Stmt} (h : ∀ e ∈ s.values, f e = e) : s.mapValues f = s := by
  cases s with
  | class_ c =>
    have hmembers : c.members.map (·.mapValues f) = c.members := by
      refine map_eq_self fun m hm => ?_
      rw [MemberStmt.mapValues,
        Member.mapValues_eq_self fun e he => h e (List.mem_flatMap.2 ⟨m, hm, he⟩)]
    rw [mapValues, ClassDecl.mapValues, hmembers]
  | _ => rfl

theorem Content.mapValues_eq_self {d : Content} (h : ∀ e ∈ d.values, f e = e) :
    d.mapValues f = d := by
  have hstmts : d.stmts.map (·.mapValues f) = d.stmts :=
    map_eq_self fun s hs => Stmt.mapValues_eq_self fun e he => h e (List.mem_flatMap.2 ⟨s, hs, he⟩)
  cases d with
  | flat stmts => exact congrArg flat hstmts
  | inside blankBefore name braced stmts => exact congrArg (inside blankBefore name braced) hstmts

end Unchanged

/-- The values of a plain member are literals. -/
theorem Member.IsPlain.isLiteral {m : Member} (hm : m.IsPlain) : ∀ e ∈ m.values, e.IsLiteral := by
  intro e he
  cases m with
  | mixins m => cases he
  | constants g =>
    obtain ⟨c, hc, rfl⟩ := List.mem_map.1 he
    exact (ConstantGroup.IsPlain.items hm c hc).value
  | fields g =>
    obtain ⟨v, hv, he⟩ := List.mem_filterMap.1 he
    exact (FieldGroup.IsPlain.items hm v hv).default e he
  | routine r =>
    obtain ⟨p, hp, he⟩ := List.mem_filterMap.1 he
    exact (Routine.IsPlain.params hm p hp).default e he

namespace Content

variable {d : Content}

theorem IsPlain.stmts (hd : d.IsPlain) : ∀ s ∈ d.stmts, s.IsPlain := by
  cases d with
  | flat stmts => exact hd
  | inside blankBefore name braced stmts => exact hd.2

theorem IsPlain.isLiteral (hd : d.IsPlain) : ∀ e ∈ d.values, e.IsLiteral := by
  intro e he
  obtain ⟨s, hs, he⟩ := List.mem_flatMap.1 he
  cases hd.stmts s hs with
  | import_ hi => cases he
  | class_ hc =>
    obtain ⟨m, hm, he⟩ := List.mem_flatMap.1 he
    exact (hc.members m hm).member.isLiteral e he

def strings (d : Content) : List String := d.values.flatMap Expr.strings

/-- The content as it is read. -/
def asRead (d : Content) : Content := d.settled.mapValues Expr.spelled

theorem strings_asRead (d : Content) : d.asRead.strings = d.strings := by
  rw [strings, asRead, values_mapValues, values_settled, List.flatMap_map, strings]
  exact List.flatMap_congr fun e _ => Expr.strings_spelled e

theorem strings_normalized (hd : d.IsPlain) :
    (d.mapValues Expr.normalized).strings = d.strings.map Expr.normalizedText := by
  rw [strings, values_mapValues, List.flatMap_map, strings, List.map_flatMap]
  exact List.flatMap_congr fun e he => (hd.isLiteral e he).strings_normalized

/-- What is read of the content with its strings normalized is what is read of the content itself,
if no string has a pair in it and only then. -/
theorem asRead_normalized_eq (hd : d.IsPlain) :
    (d.mapValues Expr.normalized).asRead = d.asRead ↔
      ∀ s ∈ d.strings, LineEnding.countPairs s.toList = 0 := by
  constructor
  · intro h s hs
    have hstrings := congrArg strings h
    rw [strings_asRead, strings_asRead, strings_normalized hd] at hstrings
    have hmap : ∀ {xs : List String}, xs.map Expr.normalizedText = xs →
        ∀ s ∈ xs, Expr.normalizedText s = s := by
      intro xs
      induction xs with
      | nil => simp
      | cons x xs ih =>
        intro hcons
        rw [List.map_cons, List.cons.injEq] at hcons
        exact List.forall_mem_cons.2 ⟨hcons.1, ih hcons.2⟩
    exact Expr.normalizedText_eq_self.1 (hmap hstrings s hs)
  · intro h
    rw [mapValues_eq_self]
    intro e he
    refine (hd.isLiteral e he).normalized_eq fun s hs => Expr.normalizedText_eq_self.2 (h s ?_)
    exact List.mem_flatMap.2 ⟨e, he, hs⟩

/-- Read back, a file is the same if and only if what it was written from is. -/
theorem asRead_file_eq (d : Content) (f : Expr → Expr) :
    (d.mapValues f).asRead.file = d.asRead.file ↔ (d.mapValues f).asRead = d.asRead := by
  refine ⟨fun h => ?_, congrArg file⟩
  cases d with
  | flat stmts =>
    simp only [asRead, mapValues, settled, file, SourceFile.mk.injEq, true_and, and_true] at h ⊢
    rw [h]
  | inside blankBefore name braced stmts =>
    simp only [asRead, mapValues, settled, file, SourceFile.mk.injEq, true_and, and_true,
      List.cons.injEq, Stmt.namespace_.injEq, NamespaceDecl.mk.injEq] at h ⊢
    rw [h]

end Content

section Text

variable {layout : Layout} (hindent : '\r' ∉ layout.indent.toList)

theorem Stmt.IsPlain.normalized {s : Stmt} (hs : s.IsPlain) :
    (s.mapValues Expr.normalized).IsPlain := by
  cases hs with
  | import_ hi => exact .import_ hi
  | class_ hc => exact .class_ hc.normalized

theorem Content.IsPlain.normalized {d : Content} (hd : d.IsPlain) :
    (d.mapValues Expr.normalized).IsPlain := by
  have hstmts : ∀ s ∈ d.stmts.map (·.mapValues Expr.normalized), s.IsPlain := by
    intro s hs
    obtain ⟨s, hmem, rfl⟩ := List.mem_map.1 hs
    exact (hd.stmts s hmem).normalized
  cases d with
  | flat stmts => exact hstmts
  | inside blankBefore name braced stmts => exact ⟨hd.1, hstmts⟩

/-- The text of a plain import has no line endings to normalize. -/
theorem Import.normalizes {i : Import} (hi : i.IsPlain) : Normalizes i.text i.text := by
  have hkind : Normalizes (spaced i.kind.keyword?) (spaced i.kind.keyword?) :=
    .of_plain (by cases i.kind <;> decide)
  have hitems : Normalizes (commaList (i.items.map ImportItem.text))
      (commaList (i.items.map ImportItem.text)) := by
    refine .commaList fun item hitem => .of_plain ?_
    obtain ⟨hnone, hname, hlocal⟩ := hi.items item hitem
    rw [isPath, Bool.and_eq_true] at hname
    have hname := Expr.not_mem_of_isName hname.1
    rw [ImportItem.text, hnone]
    cases hl : item.localName with
    | none => simp [spaced, hname]
    | some name => simp [spaced, hname, Expr.not_mem_of_isName (hlocal name hl)]
  rw [text, hi.base]
  exact ((Normalizes.append (.of_plain (by decide)) hkind).append hitems).append
    (.of_plain (by decide))

include hindent in
/-- Statements keep their spacing when the line endings change. -/
theorem Stmt.normalizes {margin : String} (hmargin : '\r' ∉ margin.toList) {ss : List Stmt}
    (hss : ∀ s ∈ ss, s.IsPlain) (atTop : Bool) (previous previous' : Option Stmt)
    (hprevious : previous.map (·.import?.isSome) = previous'.map (·.import?.isSome)) :
    Normalizes (listText layout margin atTop previous ss)
      (listText layout margin atTop previous' (ss.map (·.mapValues Expr.normalized))) := by
  induction ss generalizing previous previous' with
  | nil => exact .of_plain (by simp [listText])
  | cons s ss ih =>
    have himport : (s.mapValues Expr.normalized).import?.isSome = s.import?.isSome := by
      cases s <;> rfl
    have hrest := ih (fun t ht => hss t (by simp [ht])) (some s)
      (some (s.mapValues Expr.normalized))
      (by simp [himport])
    have hgap : usualGap atTop previous' (s.mapValues Expr.normalized) =
        usualGap atTop previous s := by
      cases previous <;> cases previous' <;> simp at hprevious
      · rfl
      · simp [usualGap, himport, hprevious]
    have hleading : ∀ t : Trivia, t.IsPlain →
        ∀ b, Normalizes (lineBreak b ++ t.leadingText margin ++ margin)
        (lineBreak b ++ t.leadingText margin ++ margin) := fun t ht b =>
      ((lineBreak_normalizes b).append (ht.normalizes margin).1).append (.of_plain hmargin)
    cases hss s (by simp) with
    | import_ hi =>
      rename_i i
      rw [List.map_cons, mapValues, listText, listText, leadingText, leadingText, text]
      rw [mapValues] at hgap hrest
      · rw [hgap]
        exact ((hleading _ hi.trivia _).append
          ((Import.normalizes hi).append (hi.trivia.normalizes margin).2)).append
          hrest
      all_goals simp
    | class_ hc =>
      rename_i c
      rw [List.map_cons, mapValues, listText, listText, leadingText, leadingText, text, text]
      rw [mapValues] at hgap hrest
      · rw [hgap]
        exact ((hleading _ hc.trivia _).append (ClassDecl.normalizes hindent hmargin hc)).append
          hrest
      all_goals simp

include hindent in
/-- Writing a plain file normalizes its strings. -/
theorem Content.normalizes {d : Content} (hd : d.IsPlain) : Normalizes (d.file.plainText layout)
    ((d.mapValues Expr.normalized).file.plainText layout) := by
  have hmargin : '\r' ∉ "".toList := by simp
  cases d with
  | flat stmts =>
    have hstmts := Stmt.normalizes hindent hmargin hd true none none rfl
    simpa [file, mapValues, SourceFile.plainText, closingText, Expr.linesAt] using
      (Normalizes.append (.of_plain (a := "<?php") (by decide)) hstmts).append
      (.of_plain (a := "\n") (by decide))
  | inside blankBefore name braced stmts =>
    have hopen : Normalizes ("<?php" ++ lineBreak (blankBefore.getD true) ++
        ("namespace" ++ (" " ++ name)))
        ("<?php" ++ lineBreak (blankBefore.getD true) ++ ("namespace" ++ (" " ++ name))) :=
      (Normalizes.append (.of_plain (by decide)) (lineBreak_normalizes _)).append
        ((Normalizes.of_plain (by decide)).append
          ((Normalizes.of_plain (by decide)).append (Expr.normalizes_name hd.1)))
    cases braced with
    | true =>
      have hstmts := Stmt.normalizes hindent hindent hd.2 false none none rfl
      have htext := ((hopen.append (.of_plain (a := " \x7b") (by decide))).append hstmts).append
        (.of_plain (a := "\n\x7d\n") (by decide))
      simpa [file, mapValues, SourceFile.plainText, closingText, Expr.linesAt, Stmt.listText,
        Stmt.leadingText, Stmt.text, Stmt.namespaceText, Stmt.trivia?, Stmt.usualGap, Trivia.empty,
        Trivia.leadingText, Trivia.trailingText, String.append_assoc] using htext
    | false =>
      have hstmts := Stmt.normalizes hindent hmargin hd.2 true none none rfl
      have htext := ((hopen.append (.of_plain (a := ";") (by decide))).append hstmts).append
        (.of_plain (a := "\n") (by decide))
      simpa [file, mapValues, SourceFile.plainText, closingText, Expr.linesAt, Stmt.listText,
        Stmt.leadingText, Stmt.text, Stmt.namespaceText, Stmt.trivia?, Stmt.usualGap, Trivia.empty,
        Trivia.leadingText, Trivia.trailingText, String.append_assoc] using htext

end Text

/-- One level of indentation: white space without a line break. -/
def Layout.IsBlank (layout : Layout) : Prop :=
  ∀ c ∈ layout.indent.toList, isBlank c = true ∧ c ≠ '\n' ∧ c ≠ '\r'

theorem Layout.standard_isBlank : Layout.standard.IsBlank :=
  fun c hc => by
    obtain rfl : c = ' ' := by simpa [Layout.standard] using hc
    decide

namespace Content

variable {layout : Layout} {d : Content}

/-- A plain file that is written with newlines is read as the file with its strings normalized. -/
theorem ofSource_text (hindent : layout.IsBlank) (hending : layout.lineEnding = "\n")
    (hd : d.IsPlain) :
    SourceFile.ofSource (d.file.text layout) = .ok (d.mapValues Expr.normalized).asRead.file := by
  have hmargin : IsMargin layout.indent :=
    ⟨fun c hc => (hindent c hc).1, fun hmem => (hindent _ hmem).2.1 rfl⟩
  have hcr : '\r' ∉ layout.indent.toList := fun hmem => (hindent _ hmem).2.2 rfl
  have htext : d.file.text layout = (d.mapValues Expr.normalized).file.plainText layout := by
    have hnewline : layout.lineEnding.toList = ['\n'] := by rw [hending]; rfl
    rw [SourceFile.text, hnewline, LineEnding.replaceWith_newline, (normalizes hcr hd).eq,
      String.ofList_toList]
  rw [htext, SourceFile.ofSource_plainText hmargin hd.normalized, asRead]

/-- A plain file that is written with newlines can be read again, and what is read is what was
written if no string has a carriage return before a newline in it, and only then. -/
theorem ofSource_text_iff (hindent : layout.IsBlank) (hending : layout.lineEnding = "\n")
    (hd : d.IsPlain) :
    (∃ f, SourceFile.ofSource (d.file.text layout) = .ok f) ∧
      (SourceFile.ofSource (d.file.text layout) = .ok d.asRead.file ↔
        ∀ s ∈ d.strings, LineEnding.countPairs s.toList = 0) := by
  rw [ofSource_text hindent hending hd, Except.ok.injEq, asRead_file_eq, asRead_normalized_eq hd]
  exact ⟨⟨_, rfl⟩, Iff.rfl⟩

/-- An import and a class with a constant, a field and a routine, which greets with the given
text. -/
def greeter (text : String) : Content :=
  inside none "App\\Greeting" true
    [.import_
      ⟨.empty, .function, none, [⟨none, "Base\\greet", some "hello"⟩, ⟨none, "Base\\wave", none⟩]⟩,
      .class_
        { trivia := .empty
          modifiers := [.final]
          name := "Greeter"
          parent := some "\\Base\\Greeter"
          interfaces := ["Polite"]
          members :=
            [⟨.empty,
              .constants ⟨.ofVisibility .everyone, some "string", [⟨"TEXT", .string text none⟩]⟩⟩,
              ⟨.empty,
                .fields ⟨.ofVisibility .owner, some "?int", [⟨"count", some (.int 0 none)⟩]⟩⟩,
              ⟨.empty, .routine
                { modifiers := .ofVisibility .everyone
                  byRef := false
                  name := "greet"
                  params :=
  [⟨[], .empty, some "string", true, false, "name", some (.string text none)⟩]
                  paramsMultiline := true
                  returnType := some "void"
                  body := some []
                  layout := .sameLine }⟩]
          closingComments := [] }]

theorem greeter_isPlain (text : String) : (greeter text).IsPlain := by
  have htype : ∀ {x : String}, TypeText.isTypeName x = true → TypeText.IsType x :=
    fun h => .parts (.part (.name h))
  have hconstants : ConstantGroup.IsPlain
      ⟨.ofVisibility .everyone, some "string", [⟨"TEXT", .string text none⟩]⟩ :=
    { modifiers := by simp [Modifiers.IsPlain, Modifiers.ofVisibility, Modifiers.empty]
      type := by simpa [TypeText.IsOptional] using htype (by decide)
      nonempty := by simp
      items := by simpa using ⟨(by decide : isName "TEXT".toList = true), .string text⟩ }
  have hint : TypeText.IsType ("?" ++ "int") := .nullable (.part (.name (by decide)))
  have hfields : FieldGroup.IsPlain
      ⟨.ofVisibility .owner, some "?int", [⟨"count", some (.int 0 none)⟩]⟩ :=
    { modifiers := by simp [Modifiers.IsPlain, Modifiers.ofVisibility, Modifiers.empty]
      marked := by decide
      type := by simpa [TypeText.IsOptional] using hint
      nonempty := by simp
      items := by simpa using ⟨by decide, by simpa using .int 0⟩ }
  have hparam : Param.IsPlain ⟨[], .empty, some "string", true, false, "name",
      some (.string text none)⟩ :=
    { attributes := rfl
      modifiers := rfl
      type := by simpa [TypeText.IsOptional] using htype (by decide)
      name := (by decide : Scan.isIdentifier "name".toList = true)
      default := by simpa using .string text }
  refine ⟨(by decide : isName "App\\Greeting".toList = true), ?_⟩
  simp only [List.forall_mem_cons, List.not_mem_nil, false_implies, implies_true, and_true]
  constructor
  · exact .import_
      { trivia := rfl
        base := rfl
        nonempty := by simp
        items := by
          simp only [List.forall_mem_cons, List.not_mem_nil, false_implies, implies_true, and_true]
          exact ⟨⟨rfl, by decide, by simp; decide⟩, ⟨rfl, by decide, by simp⟩⟩ }
  · refine .class_
      { trivia := rfl
        name := (by decide : isName "Greeter".toList = true)
        parent := by simp; decide
        interfaces := by simp; decide
        members := ?_
        closingComments := rfl }
    simp only [List.forall_mem_cons, List.not_mem_nil, false_implies, implies_true, and_true]
    refine ⟨⟨rfl, hconstants⟩, ⟨rfl, hfields⟩, ⟨rfl, ?_⟩⟩
    exact
      { modifiers := by simp [Modifiers.IsPlain, Modifiers.ofVisibility, Modifiers.empty]
        name := (by decide : isName "greet".toList = true)
        params := by simpa using hparam
        returnType := by simpa [TypeText.IsOptional] using htype (by decide)
        body := by simp }

/-- A class with a quoted quote in its default is read again as it was, since nothing in it ends
a line. -/
theorem ofSource_text_greeter :
    (greeter "it's").IsPlain ∧
      (∃ f, SourceFile.ofSource ((greeter "it's").file.text .standard) = .ok f) ∧
      (SourceFile.ofSource ((greeter "it's").file.text .standard) =
        .ok (greeter "it's").asRead.file ↔
        ∀ s ∈ (greeter "it's").strings, LineEnding.countPairs s.toList = 0) :=
  ⟨greeter_isPlain _, ofSource_text_iff Layout.standard_isBlank rfl (greeter_isPlain _)⟩

/-- A plain file can be read again as another one: its strings lose a carriage return. -/
theorem ofSource_text_ne : (greeter "a\r\nb").IsPlain ∧
    SourceFile.ofSource ((greeter "a\r\nb").file.text .standard) ≠
      .ok (greeter "a\r\nb").asRead.file := by
  have hplain := greeter_isPlain "a\r\nb"
  refine ⟨hplain, ?_⟩
  rw [ofSource_text Layout.standard_isBlank rfl hplain, Ne, Except.ok.injEq, asRead_file_eq,
    asRead_normalized_eq hplain]
  intro h
  have hcount := h "a\r\nb" (by decide)
  revert hcount
  decide

end Content

end ClassEdit
