import ClassEdit.File.Printer
import ClassEdit.Proofs.Class.Normalization
import ClassEdit.Proofs.Edit.Insertion
import ClassEdit.Proofs.File.Widening
import ClassEdit.Proofs.Text.SameLines

/-!
Printing a file that was read with carriage returns. They stand in the spellings of its strings and
in the text outside of the tags. Main statement: printed with carriage returns such a file has them
before all its newlines, and else it is the file that was read without them.
-/

namespace ClassEdit

variable {indent ending ending' : String} {margin : String}

namespace Expr

theorem respelled_sameLines (spelling : String) : SameLines (respelled spelling) spelling := by
  unfold respelled
  split
  next => exact .refl _
  next h => exact .of_widenText h

mutual

theorem text_widened (margin : String) : (e : Expr) →
    SameLines (e.widened.text ⟨indent, ending'⟩ margin) (e.text ⟨indent, ending⟩ margin)
  | .string _ (some spelling) => respelled_sameLines spelling
  | .string _ none => .refl _
  | .int _ _ => .refl _
  | .float _ _ => .refl _
  | .const _ => .refl _
  | .raw _ => .refl _
  | .array literal => arrayText_widened margin literal

theorem arrayText_widened (margin : String) : (literal : ArrayLiteral) →
    SameLines (arrayText ⟨indent, ending'⟩ margin (widenedArray literal))
      (arrayText ⟨indent, ending⟩ margin literal)
  | ⟨items, long, multiline, closing⟩ => by
    have hempty : (widenedItems items).isEmpty = items.isEmpty := by cases items <;> rfl
    rw [widenedArray, arrayText, arrayText, hempty]
    dsimp only
    split
    · exact (((((SameLines.refl _).append (itemLines_widened _ items)).append (.refl _)).append
        (.refl _)).append
        (.refl _)).append (.refl _)
    · exact ((SameLines.refl _).append (itemTexts_widened margin items)).append (.refl _)

theorem itemLines_widened (margin : String) : (items : List ArrayItem) →
    SameLines (itemLines ⟨indent, ending'⟩ margin (widenedItems items))
      (itemLines ⟨indent, ending⟩ margin items)
  | [] => .refl _
  | item :: items => by
    have hkept : (widenedItem item).comments = item.comments ∧ (widenedItem item).trailing =
        item.trailing := by
      cases item
      exact ⟨rfl, rfl⟩
    rw [widenedItems, itemLines, itemLines, hkept.1, hkept.2]
    exact ((((SameLines.refl _).append (itemText_widened margin item)).append (.refl _)).append
      (.refl _)).append
      (itemLines_widened margin items)

theorem itemTexts_widened (margin : String) : (items : List ArrayItem) →
    SameLines (commaList (itemTexts ⟨indent, ending'⟩ margin (widenedItems items)))
      (commaList (itemTexts ⟨indent, ending⟩ margin items))
  | [] => .refl _
  | item :: items =>
    .commaList_cons (itemText_widened margin item) (by cases items <;> rfl)
      (itemTexts_widened margin items)

theorem itemText_widened (margin : String) : (item : ArrayItem) →
    SameLines (itemText ⟨indent, ending'⟩ margin (widenedItem item))
      (itemText ⟨indent, ending⟩ margin item)
  | ⟨_, none, value, _, _, _⟩ =>
    (((SameLines.refl _).append (.refl _)).append (.refl _)).append (text_widened margin value)
  | ⟨_, some key, value, _, _, _⟩ =>
    (((SameLines.refl _).append ((text_widened margin key).append (.refl _))).append
      (.refl _)).append
      (text_widened margin value)

end

end Expr

section Members

theorem assigned_widened (margin : String) (value : Option Expr) :
    SameLines (assigned ⟨indent, ending'⟩ margin (value.map Expr.widened))
      (assigned ⟨indent, ending⟩ margin value) := by
  cases value with
  | none => exact .refl _
  | some e => exact (SameLines.refl _).append (e.text_widened margin)

/-- The text of constants with widened values is the same but for line endings. -/
theorem ConstantGroup.text_widened (margin : String) (g : ConstantGroup) :
    SameLines ((g.mapValues Expr.widened).text ⟨indent, ending'⟩ margin)
      (g.text ⟨indent, ending⟩ margin) := by
  have hitems : SameLines
      (commaList ((g.items.map (·.mapValue Expr.widened)).map fun c =>
        c.name ++ assigned ⟨indent, ending'⟩ margin (some c.value)))
      (commaList (g.items.map fun c => c.name ++ assigned ⟨indent, ending⟩ margin
        (some c.value))) := by
    rw [List.map_map]
    refine .commaList (fun c => ?_) g.items
    have hvalue : SameLines (assigned ⟨indent, ending'⟩ margin (some c.value.widened))
        (assigned ⟨indent, ending⟩ margin (some c.value)) := assigned_widened margin (some c.value)
    exact (SameLines.refl c.name).append hvalue
  rw [text, text]
  exact ((SameLines.refl _).append hitems).append (.refl _)

/-- The text of fields with widened defaults is the same but for line endings. -/
theorem FieldGroup.text_widened (margin : String) (g : FieldGroup) :
    SameLines ((g.mapValues Expr.widened).text ⟨indent, ending'⟩ margin)
      (g.text ⟨indent, ending⟩ margin) := by
  have hitems : SameLines
      (commaList ((g.items.map (·.mapValue Expr.widened)).map fun f =>
        "$" ++ f.name ++ assigned ⟨indent, ending'⟩ margin f.default))
      (commaList
        (g.items.map fun f => "$" ++ f.name ++ assigned ⟨indent, ending⟩ margin f.default)) := by
    rw [List.map_map]
    refine .commaList (fun f => ?_) g.items
    have hvalue : SameLines (assigned ⟨indent, ending'⟩ margin (f.default.map Expr.widened))
        (assigned ⟨indent, ending⟩ margin f.default) := assigned_widened margin f.default
    exact (SameLines.refl ("$" ++ f.name)).append hvalue
  rw [text, text]
  exact ((SameLines.refl _).append hitems).append (.refl _)

theorem Param.text_widened (margin : String) (p : Param) :
    SameLines ((p.mapValue Expr.widened).text ⟨indent, ending'⟩ margin)
      (p.text ⟨indent, ending⟩ margin) :=
  (SameLines.refl _).append (assigned_widened margin p.default)

theorem Routine.paramsText_widened (margin : String) (r : Routine) :
    SameLines ((r.mapValues Expr.widened).paramsText ⟨indent, ending'⟩ margin)
      (r.paramsText ⟨indent, ending⟩ margin) := by
  simp only [paramsText, mapValues, List.isEmpty_map, List.map_map]
  split
  · refine (((SameLines.refl _).append (.join ?_ r.params)).append (.refl _)).append (.refl _)
    exact fun p => ((SameLines.refl _).append (p.text_widened margin)).append (.refl _)
  · exact ((SameLines.refl _).append (.commaList (Param.text_widened margin) r.params)).append
      (.refl _)

theorem Routine.text_widened (margin : String) (r : Routine) :
    SameLines ((r.mapValues Expr.widened).text ⟨indent, ending'⟩ margin)
      (r.text ⟨indent, ending⟩ margin) :=
  (((SameLines.refl _).append (r.paramsText_widened margin)).append (.refl _)).append (.refl _)

theorem Member.text_widened (margin : String) (m : Member) :
    SameLines ((m.mapValues Expr.widened).text ⟨indent, ending'⟩ margin)
      (m.text ⟨indent, ending⟩ margin) := by
  cases m with
  | mixins m => exact .refl _
  | constants g => exact g.text_widened margin
  | fields g => exact g.text_widened margin
  | routine r => exact r.text_widened margin

theorem MemberStmt.usualGap_widened (previous : Option MemberStmt) (m : MemberStmt) :
    usualGap (previous.map (·.mapValues Expr.widened)) (m.mapValues Expr.widened) =
      usualGap previous m := by
  have hcategory (m : MemberStmt) : (m.mapValues Expr.widened).category = m.category :=
    m.member.category_mapValues Expr.widened
  cases previous with
  | none => rfl
  | some p => simp only [Option.map_some, usualGap, hcategory]

theorem MemberStmt.listText_widened (margin : String) (previous : Option MemberStmt)
    (ms : List MemberStmt) :
    SameLines (listText ⟨indent, ending'⟩ margin (previous.map (·.mapValues Expr.widened))
      (ms.map (·.mapValues Expr.widened))) (listText ⟨indent, ending⟩ margin previous ms) := by
  induction ms generalizing previous with
  | nil => exact .refl _
  | cons m ms ih =>
      rw [List.map_cons, listText, listText, textAfter, textAfter, usualGap_widened]
      exact (((SameLines.refl _).append (m.member.text_widened margin)).append (.refl _)).append
        (ih (some m))

theorem ClassDecl.text_widened (margin : String) (c : ClassDecl) :
    SameLines (c.widened.text ⟨indent, ending'⟩ margin) (c.text ⟨indent, ending⟩ margin) := by
  have hmembers :
      SameLines (MemberStmt.listText ⟨indent, ending'⟩ (margin ++ indent) none c.widened.members)
      (MemberStmt.listText ⟨indent, ending⟩ (margin ++ indent) none c.members) :=
    MemberStmt.listText_widened (margin ++ indent) none c.members
  rw [text, text]
  exact ((((((SameLines.refl _).append hmembers).append (.refl _)).append (.refl _)).append
    (.refl _)).append
    (.refl _)).append (.refl _)

end Members

namespace Stmt

theorem leadingText_widened (margin : String) (atTop : Bool) (previous : Option Stmt) (s : Stmt) :
    leadingText margin atTop (previous.map widened) s.widened =
      leadingText margin atTop previous s := by
  rw [leadingText, leadingText, trivia?_widened]
  cases previous with
  | none => rfl
  | some p => simp only [Option.map_some, usualGap, import?_widened]

theorem html_sameLines (text : String) :
    SameLines ("\n?>" ++ widenText text ++ "<?php") ("\n?>" ++ text ++ "<?php") :=
  (SameLines.append_widenText (c := '>') (by decide) (by decide) text).append (.refl _)

mutual

theorem text_widened (margin : String) : (s : Stmt) →
    SameLines (s.widened.text ⟨indent, ending'⟩ margin) (s.text ⟨indent, ending⟩ margin)
  | .declare _ => .refl _
  | .namespace_ decl => namespaceText_widened margin decl
  | .import_ _ => .refl _
  | .class_ decl => decl.text_widened margin
  | .html text => html_sameLines text
  | .raw _ => .refl _

/-- A namespace is written on the same lines, whatever the line endings. -/
theorem namespaceText_widened (margin : String) : (decl : NamespaceDecl) →
    SameLines (namespaceText ⟨indent, ending'⟩ margin (widenedNamespace decl))
      (namespaceText ⟨indent, ending⟩ margin decl)
  | ⟨trivia, name, braced, stmts, closing⟩ => by
    rw [widenedNamespace, namespaceText, namespaceText]
    cases braced with
    | true =>
        have hstmts := listText_widened (margin ++ indent) false none stmts
        exact ((((((SameLines.refl _).append hstmts).append (.refl _)).append (.refl _)).append
          (.refl _)).append
          (.refl _)).append (.refl _)
    | false =>
        exact ((SameLines.refl _).append (listText_widened margin true none stmts)).append (.refl _)

/-- Statements are written on the same lines, whatever the line endings. -/
theorem listText_widened (margin : String) (atTop : Bool) (previous : Option Stmt) :
    (ss : List Stmt) →
    SameLines (listText ⟨indent, ending'⟩ margin atTop (previous.map widened) (widenedStmts ss))
      (listText ⟨indent, ending⟩ margin atTop previous ss)
  | [] => .refl _
  | s :: ss => by
    have hs := text_widened margin s
    have hss := listText_widened margin atTop (some s) ss
    rcases s.isSpaced_or_html with hspaced | ⟨text, rfl⟩
    · have hspaced' : s.widened.IsSpaced := by rwa [IsSpaced, trivia?_widened]
      rw [widenedStmts, listText_cons hspaced', listText_cons hspaced, leadingText_widened]
      exact ((SameLines.refl _).append hs).append hss
    · rw [widenedStmts, widened, listText, listText]
      exact hs.append hss

end

end Stmt

namespace SourceFile

theorem epilogue_sameLines (epilogue : Option String) :
    SameLines (match epilogue.map widenText with | some text => "\n?>" ++ text | none => "\n")
      (match epilogue with | some text => "\n?>" ++ text | none => "\n") := by
  cases epilogue with
  | none => exact .refl _
  | some text => exact .append_widenText (c := '>') (by decide) (by decide) text

/-- A file with widened values is written as the same text but for its line endings. -/
theorem plainText_widened (f : SourceFile) :
    LineEnding.normalize (f.widened.plainText ⟨indent, ending'⟩).toList =
      LineEnding.normalize (f.plainText ⟨indent, ending⟩).toList := by
  obtain ⟨prologue, stmts, closingComments, epilogue⟩ := f
  have hstmts : SameLines (Stmt.listText ⟨indent, ending'⟩ "" true none (stmts.map Stmt.widened))
      (Stmt.listText ⟨indent, ending⟩ "" true none stmts) := by
    rw [← Stmt.widenedStmts_eq_map]
    exact Stmt.listText_widened "" true none stmts
  have hbehind :=
    (((SameLines.refl "<?php").append hstmts).append
      (.refl (closingText "" closingComments))).append
    (epilogue_sameLines epilogue)
  simp only [plainText, widened, String.append_assoc] at hbehind ⊢
  cases prologue with
  | none => exact hbehind.normalize_widenText ""
  | some p => exact hbehind.normalize_widenText p

/-- A file that was read with carriage returns is printed with them as it would be without, and with
a carriage return before each newline. -/
theorem text_widened (f : SourceFile) :
    f.widened.text ⟨indent, "\r\n"⟩ = String.ofList
      (LineEnding.widen (f.text ⟨indent, "\n"⟩).toList) := by
  have hplain : LineEnding.normalize (f.widened.plainText ⟨indent, "\r\n"⟩).toList =
      LineEnding.normalize (f.plainText ⟨indent, "\n"⟩).toList := f.plainText_widened
  have hending : "\r\n".toList = ['\r', '\n'] ∧ "\n".toList = ['\n'] := ⟨rfl, rfl⟩
  simp only [SourceFile.text, hending, hplain, LineEnding.replaceWith_newline,
    String.toList_ofList, LineEnding.widen]

end SourceFile

end ClassEdit
