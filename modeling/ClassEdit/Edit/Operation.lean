import ClassEdit.Edit.Member

/-!
The operations on a file. Those on members and on the header of a class work on the first class;
imports belong to the namespace of that class, and namespaces to the file.
-/

namespace ClassEdit

namespace Stmt

/-- The edit of the class that the statement is or holds directly, the first of several. -/
def editFirstClass? (edit : Edit ClassDecl) : Stmt → Option (Except SkipReason Stmt)
  | class_ c => some ((edit c).map class_)
  | namespace_ n =>
    if n.stmts.any (·.class?.isSome) then
      some ((Edit.atFirst (fun s => s.class?.map fun c => (edit c).map class_) n.stmts).map
        fun stmts =>
        namespace_ { n with stmts })
    else none
  | _ => none

def isNamespaceOfClass (s : Stmt) : Bool :=
  s.namespace?.any (·.stmts.any (·.class?.isSome))

def importedIdx? (path : String) (s : Stmt) : Option Nat :=
  s.import?.bind fun i =>
    i.items.findIdx? fun item => i.importsClass item && sameSymbol (i.fullPath item) path

def importsAs (path : String) (localName : Option String) (s : Stmt) : Bool :=
  s.import?.any fun i => i.items.any fun item =>
    i.importsClass item && sameSymbol (i.fullPath item) path && item.localName == localName

end Stmt

namespace SourceFile

def onFirstClass (edit : Edit ClassDecl) : Edit SourceFile := fun f =>
  (Edit.atFirst (Stmt.editFirstClass? edit) f.stmts).map fun stmts => { f with stmts }

/-- The place of the namespace that imports go to: the one of the first class in a
namespace, else the first. -/
def importNamespace? (f : SourceFile) : Option Nat :=
  (f.stmts.findIdx? Stmt.isNamespaceOfClass).or (f.stmts.findIdx? (·.namespace?.isSome))

def importInto (path : String) (localName : Option String) : Edit (List Stmt) := fun stmts =>
  if stmts.any (·.importsAs path localName) then .error .duplicate
  else .ok
    (insertSpaced stmts (importPosition stmts) (.import_ (.single (bareName path) localName)))

/-- Adds the import of a class. A file without a namespace takes it among its own statements. -/
def addImport (path : String) (localName : Option String) : Edit SourceFile := fun f =>
  let place := f.importNamespace?.bind fun i =>
    (f.stmts[i]?.bind Stmt.namespace?).map fun n => (i, n)
  match place with
  | some (i, n) =>
    (importInto path localName n.stmts).map fun stmts =>
      { f with stmts := f.stmts.set i (.namespace_ { n with stmts }) }
  | none => (importInto path localName f.stmts).map fun stmts => { f with stmts }

/-- Removes the first import of a class from a list of statements. The statement goes with its last
symbol. -/
def removeImportFrom (path : String) : Edit (List Stmt) := fun stmts =>
  match findIn (Stmt.importedIdx? path) stmts with
  | none => .error .notFound
  | some (i, j) =>
    match stmts[i]?.bind Stmt.import? with
    | none => .error .notFound
    | some decl =>
      if decl.items.length = 1 then .ok (removeSpaced stmts i)
      else .ok (stmts.set i (.import_ { decl with items := decl.items.eraseIdx j }))

/-- Removes the first import of a class, from the file's own statements or else from its
namespaces. -/
def removeImport (path : String) : Edit SourceFile := fun f =>
  match removeImportFrom path f.stmts with
  | .ok stmts => .ok { f with stmts }
  | .error _ =>
    let inNamespace (s : Stmt) : Option (Except SkipReason Stmt) :=
      s.namespace?.bind fun n =>
        (removeImportFrom path n.stmts).toOption.map fun stmts => .ok (.namespace_ { n with stmts })
    (Edit.atFirst inNamespace f.stmts).map fun stmts => { f with stmts }

def changeNamespace (name : String) : Edit SourceFile := fun f =>
  let renamed (s : Stmt) : Option (Except SkipReason Stmt) :=
    s.namespace?.map fun n => .ok (.namespace_ { n with name := some (bareName name) })
  (Edit.atFirst renamed f.stmts).map fun stmts => { f with stmts }

/-- Puts all statements behind the leading declarations into a new namespace. -/
def addNamespace (name : String) : Edit SourceFile := fun f =>
  if f.stmts.any (·.namespace?.isSome) then .error .duplicate
  else
    let n := leadingDeclares f.stmts
    let inner := (f.stmts.drop n).modifyHead
      (Spaced.mapTrivia fun t => { t with blankBefore := some true })
    .ok { f with stmts := f.stmts.take n ++
            [.namespace_ ⟨.empty, some (bareName name), false, inner, []⟩] }

end SourceFile

inductive Operation where
  | addMixin (name : String)
  | removeMixin (name : String)
  | addImport (path : String) (localName : Option String)
  | removeImport (path : String)
  | addField (spec : FieldSpec)
  | removeField (name : String)
  | changeField (spec : FieldSpec)
  | extendField (name : String) (additions : Value)
  | addRoutine (spec : RoutineSpec)
  | changeRoutine (change : RoutineChange)
  | removeRoutine (name : String)
  | addConstant (name : String) (value : Value) (visibility : Option Visibility)
  | changeConstant (name : String) (value : Option Value) (visibility : Option Visibility)
  | removeConstant (name : String)
  | renameClass (name : String)
  | extendClass (parent : String)
  | implementInterface (interface : String)
  | changeNamespace (name : String)
  | addNamespace (name : String)

namespace Operation

open SourceFile (onFirstClass)

/-- What the operation does to a file. -/
def edit : Operation → Edit SourceFile
  | addMixin name => onFirstClass (ClassDecl.addMixin name)
  | removeMixin name => onFirstClass (ClassDecl.removeMixin name)
  | addImport path localName => SourceFile.addImport path localName
  | removeImport path => SourceFile.removeImport path
  | addField spec => onFirstClass (ClassDecl.addField spec)
  | removeField name => onFirstClass (ClassDecl.removeField name)
  | changeField spec => onFirstClass (ClassDecl.changeField spec)
  | extendField name additions => onFirstClass (ClassDecl.extendField name additions)
  | addRoutine spec => onFirstClass (ClassDecl.addRoutine spec)
  | changeRoutine change => onFirstClass (ClassDecl.changeRoutine change)
  | removeRoutine name => onFirstClass (ClassDecl.removeRoutine name)
  | addConstant name value visibility => onFirstClass (ClassDecl.addConstant name value visibility)
  | changeConstant name value visibility =>
      onFirstClass (ClassDecl.changeConstant name value visibility)
  | removeConstant name => onFirstClass (ClassDecl.removeConstant name)
  | renameClass name => onFirstClass (ClassDecl.rename name)
  | extendClass parent => onFirstClass (ClassDecl.extend parent)
  | implementInterface interface => onFirstClass (ClassDecl.implement interface)
  | changeNamespace name => SourceFile.changeNamespace name
  | addNamespace name => SourceFile.addNamespace name

def apply (op : Operation) (f : SourceFile) : SourceFile × Outcome :=
  op.edit.apply f

end Operation

end ClassEdit
