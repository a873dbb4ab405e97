import ClassEdit.Edit.Request
import ClassEdit.ParseError
import ClassEdit.Storage.Basic

/-!
What can go wrong in a session: when it is opened, when its edits are built, and when it is written.
-/

namespace ClassEdit

/-- Why no session could be opened. -/
inductive LoadError where
  | notFound (path : String)
  | unreadable (path : String) (cause : StorageError)
  | unparsable (cause : ParseError)

namespace LoadError

def message : LoadError → String
  | notFound path => "source file not found: " ++ path
  | unreadable path cause => "cannot read " ++ path ++ ": " ++ cause.message
  | unparsable cause => "cannot parse source: " ++ cause.message

/-- A storage without the path has no such file; any other error is one of reading it. -/
def ofStorage (path : String) : StorageError → LoadError
  | .missing => notFound path
  | cause => unreadable path cause

end LoadError

inductive SessionError where
  | load (cause : LoadError)
  | edit (cause : EditError)
  | write (path : String) (cause : StorageError)
  /-- The session was opened on a text and has no path of its own. -/
  | noPath

namespace SessionError

def message : SessionError → String
  | load cause => "load error: " ++ cause.message
  | edit cause => "mutation error: " ++ cause.message
  | write path cause => "cannot write " ++ path ++ ": " ++ cause.message
  | noPath => "no output path: the session was not loaded from a file"

end SessionError

end ClassEdit
