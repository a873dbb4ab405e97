import ClassEdit.Storage.Basic

/-!
A storage that is nothing but a map from paths to texts. Which writes fail is part of its state, so
that a path can fail at one time and be written at another.
-/

namespace ClassEdit

structure FileMap where
  texts : String → Option String
  /-- The error that a write of a text to a path ends in, if it fails. -/
  fault? : String → String → Option StorageError

namespace FileMap

def put (m : FileMap) (path text : String) : FileMap :=
  { m with texts := fun p => if p = path then some text else m.texts p }

def read (m : FileMap) (path : String) : Except StorageError String :=
  match m.texts path with
  | some text => .ok text
  | none => .error .missing

/-- A write that fails writes nothing. -/
def write (m : FileMap) (path text : String) : Except StorageError FileMap :=
  match m.fault? path text with
  | none => .ok (m.put path text)
  | some e => .error e

instance : Storage FileMap := ⟨read, write⟩

end FileMap

end ClassEdit
