import ClassEdit.File.Printer
import ClassEdit.Proofs.Class.Plain

/-!
Plain files: imports and classes, at the top of the file or inside of one namespace, with nothing
around them. `settled` is the form in which a plain file is read, except for its values.
-/

namespace ClassEdit

open Scan (isName)

namespace Import

/-- A name that is not taken for the word of a kind. -/
def isPath (name : String) : Bool :=
  isName name.toList && ["function", "const"].all fun w => name.toList.map Char.toLower != w.toList

structure IsPlainItem (i : ImportItem) : Prop where
  kind : i.kind = none
  name : isPath i.name = true
  localName : ∀ name ∈ i.localName, isName name.toList = true

structure IsPlain (i : Import) : Prop where
  trivia : i.trivia.IsPlain
  base : i.base = none
  nonempty : i.items ≠ []
  items : ∀ item ∈ i.items, IsPlainItem item

end Import

namespace Stmt

/-- An import or a class. -/
inductive IsPlain : Stmt → Prop where
  | import_ {i : Import} (h : i.IsPlain) : IsPlain (.import_ i)
  | class_ {c : ClassDecl} (h : c.IsPlain) : IsPlain (.class_ c)

def mapValues (f : Expr → Expr) : Stmt → Stmt
  | class_ c => class_ (c.mapValues f)
  | s => s

def values : Stmt → List Expr
  | class_ c => c.values
  | _ => []

def settled (usual : Bool) : Stmt → Stmt
  | import_ i => import_ { i with trivia := i.trivia.settled usual }
  | class_ c => class_ (c.settled usual)
  | s => s

/-- Statements with the spacing that is written, behind the last of those before them. -/
def settledAfter (atTop : Bool) (previous : Option Stmt) : List Stmt → List Stmt
  | [] => []
  | s :: ss => s.settled (usualGap atTop previous s) :: settledAfter atTop (some s) ss

end Stmt

/-- What stands in a file: imports and classes, or a namespace that holds them. -/
inductive Content where
  | flat (stmts : List Stmt)
  | inside (blankBefore : Option Bool) (name : String) (braced : Bool) (stmts : List Stmt)

namespace Content

def stmts : Content → List Stmt
  | flat stmts => stmts
  | inside _ _ _ stmts => stmts

/-- The file with the content and nothing else. -/
def file : Content → SourceFile
  | flat stmts => ⟨none, stmts, [], none⟩
  | inside blankBefore name braced stmts =>
    ⟨none, [.namespace_ ⟨{ Trivia.empty with blankBefore }, some name, braced, stmts, []⟩], [],
      none⟩

def IsPlain : Content → Prop
  | flat stmts => ∀ s ∈ stmts, s.IsPlain
  | inside _ name _ stmts => isName name.toList = true ∧ ∀ s ∈ stmts, s.IsPlain

def mapValues (f : Expr → Expr) : Content → Content
  | flat stmts => flat (stmts.map (·.mapValues f))
  | inside blankBefore name braced stmts =>
      inside blankBefore name braced (stmts.map (·.mapValues f))

def values (d : Content) : List Expr := d.stmts.flatMap (·.values)

def settled : Content → Content
  | flat stmts => flat (Stmt.settledAfter true none stmts)
  | inside blankBefore name braced stmts =>
    inside (some (blankBefore.getD true)) name braced (Stmt.settledAfter (!braced) none stmts)

end Content

end ClassEdit
