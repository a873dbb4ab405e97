/-!
How files are laid out.
-/

namespace ClassEdit

structure Layout where
  /-- One level of indentation. -/
  indent : String
  lineEnding : String
deriving DecidableEq

namespace Layout

/-- Four spaces, and newlines alone. -/
def standard : Layout := ⟨"    ", "\n"⟩

end Layout

def commaList (texts : List String) : String :=
  ", ".intercalate texts

end ClassEdit
