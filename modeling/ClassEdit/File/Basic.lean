import ClassEdit.Class.Basic
import ClassEdit.Text.Blank

/-!
Files: imports, namespaces and classes between the tags, with all else as text. `firstClass` is the
class that edits work on.
-/

namespace ClassEdit

inductive ImportKind where
  | class_
  | function
  | const
deriving DecidableEq

namespace ImportKind

/-- The word for the kind; classes have none. -/
def keyword? : ImportKind → Option String
  | class_ => none
  | function => some "function"
  | const => some "const"

end ImportKind

structure ImportItem where
  /-- The kind of this symbol inside of a group of several kinds. -/
  kind : Option ImportKind
  name : String
  localName : Option String
deriving DecidableEq

/-- An import statement. With a base it is a group, whose names are relative to the base. -/
structure Import where
  trivia : Trivia
  kind : ImportKind
  base : Option String
  items : List ImportItem
deriving DecidableEq

namespace Import

def single (path : String) (localName : Option String) : Import :=
  ⟨.empty, .class_, none, [⟨none, path, localName⟩]⟩

/-- The whole path of an item, with the base of a group before it. -/
def fullPath (i : Import) (item : ImportItem) : String :=
  match i.base with
  | some base => String.ofList (dropEndWhile (· == '\\') base.toList) ++ "\\" ++ item.name
  | none => item.name

def importsClass (i : Import) (item : ImportItem) : Bool :=
  i.kind == .class_ && item.kind.getD .class_ == .class_

end Import

/-- A statement that is kept as text. -/
structure RawStmt where
  trivia : Trivia
  text : String
deriving DecidableEq

mutual

/-- A statement of a file or of a namespace. -/
inductive Stmt where
  | declare (raw : RawStmt)
  | namespace_ (decl : NamespaceDecl)
  | import_ (i : Import)
  | class_ (decl : ClassDecl)
  /-- Text between a closing tag and the next opening tag. -/
  | html (text : String)
  | raw (raw : RawStmt)

structure NamespaceDecl where
  trivia : Trivia
  /-- None only for the global namespace between braces. -/
  name : Option String
  braced : Bool
  stmts : List Stmt
  /-- The comments before the closing brace, or behind the last statement. -/
  closingComments : List String

end

structure SourceFile where
  /-- The text before the opening tag. -/
  prologue : Option String
  stmts : List Stmt
  /-- The comments behind the last statement. -/
  closingComments : List String
  /-- The text behind a closing tag at the end. -/
  epilogue : Option String

namespace Stmt

instance : Inhabited Stmt := ⟨.html ""⟩

def trivia? : Stmt → Option Trivia
  | declare s | raw s => some s.trivia
  | namespace_ n => some n.trivia
  | import_ i => some i.trivia
  | class_ c => some c.trivia
  | html _ => none

/-- The statement with other trivia; text between tags has none. -/
def withTrivia (t : Trivia) : Stmt → Stmt
  | declare s => declare { s with trivia := t }
  | raw s => raw { s with trivia := t }
  | namespace_ n => namespace_ { n with trivia := t }
  | import_ i => import_ { i with trivia := t }
  | class_ c => class_ { c with trivia := t }
  | html text => html text

def class? : Stmt → Option ClassDecl
  | class_ c => some c
  | _ => none

def namespace? : Stmt → Option NamespaceDecl
  | namespace_ n => some n
  | _ => none

def import? : Stmt → Option Import
  | import_ i => some i
  | _ => none

def isDeclare : Stmt → Bool
  | declare _ => true
  | _ => false

/-- The class that a statement of a file is or holds directly, the first of several. -/
def firstClass? : Stmt → Option ClassDecl
  | class_ c => some c
  | namespace_ n => n.stmts.findSome? class?
  | _ => none

end Stmt

namespace SourceFile

/-- The first class of the file or of its namespaces, in the order of the source. -/
def firstClass (f : SourceFile) : Option ClassDecl :=
  f.stmts.findSome? Stmt.firstClass?

end SourceFile

end ClassEdit
