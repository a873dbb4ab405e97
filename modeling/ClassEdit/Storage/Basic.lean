/-!
Places that keep texts under paths. A session reads its source from one and writes its output
to one; either may fail.
-/

namespace ClassEdit

/-- Why a text could not be read or written. -/
inductive StorageError where
  | missing
  | notDirectory
  | isDirectory
  /-- What is stored is no text. -/
  | notText
  | nameTooLong
  /-- A path holds the character that ends one. -/
  | zeroInPath
deriving DecidableEq

namespace StorageError

def message : StorageError → String
  | missing => "No such file or directory (os error 2)"
  | notDirectory => "Not a directory (os error 20)"
  | isDirectory => "Is a directory (os error 21)"
  | notText => "stream did not contain valid UTF-8"
  | nameTooLong => "File name too long (os error 36)"
  | zeroInPath => "file name contained an unexpected NUL byte"

end StorageError

class Storage (σ : Type) where
  read : σ → String → Except StorageError String
  /-- The storage with a text under a path, in place of what was there. -/
  write : σ → String → String → Except StorageError σ

end ClassEdit
