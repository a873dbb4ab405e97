import ClassEdit.Class.Printer
import ClassEdit.File.Basic
import ClassEdit.Text.LineEnding

/-!
Writing files. A statement that was read keeps its spacing; one that was made gets an empty line
before it, unless it is an import behind an import.
-/

namespace ClassEdit

namespace ImportItem

def text (i : ImportItem) : String :=
  spaced (i.kind.bind ImportKind.keyword?) ++ i.name ++ i.localName.elim "" (" as " ++ ·)

end ImportItem

namespace Import

def text (i : Import) : String :=
  let items := commaList (i.items.map ImportItem.text)
  "use " ++ spaced i.kind.keyword? ++
    (match i.base with
      | some base => base ++ "\\\x7b" ++ items ++ "\x7d"
      | none => items) ++
    ";"

end Import

namespace Stmt

/-- Whether an empty line stands before a statement that was made. At the top of a list
this is up to the list. -/
def usualGap (atTop : Bool) (previous : Option Stmt) (s : Stmt) : Bool :=
  match previous with
  | none => atTop
  | some p => !(p.import?.isSome && s.import?.isSome)

def leadingText (margin : String) (atTop : Bool) (previous : Option Stmt) (s : Stmt) : String :=
  let t := s.trivia?.getD .empty
  lineBreak (t.blankBefore.getD (usualGap atTop previous s)) ++ t.leadingText margin ++ margin

mutual

def text (layout : Layout) (margin : String) : Stmt → String
  | .declare s => reindent margin s.text ++ s.trivia.trailingText
  | .raw s => reindent margin s.text ++ s.trivia.trailingText
  | .import_ i => i.text ++ i.trivia.trailingText
  | .namespace_ n => namespaceText layout margin n
  | .class_ c => c.text layout margin
  | .html text => "\n?>" ++ text ++ "<?php"

def namespaceText (layout : Layout) (margin : String) : NamespaceDecl → String
  | ⟨trivia, name, braced, stmts, closing⟩ =>
    let header := "namespace" ++ name.elim "" (" " ++ ·)
    if braced then
      let inner := margin ++ layout.indent
      header ++ " \x7b" ++ listText layout inner false none stmts ++
        closingText inner closing ++ "\n" ++
        margin ++ "\x7d" ++ trivia.trailingText
    else
      header ++ ";" ++ trivia.trailingText ++ listText layout margin true none stmts ++
        closingText margin closing

/-- Statements in a list, behind the last one of those before them. -/
def listText (layout : Layout) (margin : String) (atTop : Bool) (previous : Option Stmt) :
    List Stmt → String
  | [] => ""
  | .html s :: ss =>
      text layout margin (.html s) ++ listText layout margin atTop (some (.html s)) ss
  | s :: ss =>
    leadingText margin atTop previous s ++ text layout margin s ++
      listText layout margin atTop (some s) ss

end

end Stmt

namespace SourceFile

/-- The file with newlines for line endings. -/
def plainText (layout : Layout) (f : SourceFile) : String :=
  f.prologue.getD "" ++ "<?php" ++ Stmt.listText layout "" true none f.stmts ++
    closingText "" f.closingComments ++
    match f.epilogue with
    | some text => "\n?>" ++ text
    | none => "\n"

/-- The file as text, with one line ending all through. -/
def text (layout : Layout) (f : SourceFile) : String :=
  String.ofList (LineEnding.replaceWith layout.lineEnding.toList
    (LineEnding.normalize (f.plainText layout).toList))

end SourceFile

end ClassEdit
