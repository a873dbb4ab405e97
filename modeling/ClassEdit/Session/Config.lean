import ClassEdit.Edit.Registry
import ClassEdit.Layout
import ClassEdit.Text.LineEnding

/-!
What a session is opened with: how it prints, and the kinds that can be asked for by name. Unless a
line ending is asked for, a session prints with the one that its source has.
-/

namespace ClassEdit

structure SessionConfig where
  layout : Layout
  registry : Registry
  /-- The line ending is the one of most lines of the source. -/
  lineEndingFromSource : Bool

namespace SessionConfig

def standard : SessionConfig := ⟨.standard, .builtins, true⟩

def withLayout (c : SessionConfig) (layout : Layout) : SessionConfig :=
  { c with layout, lineEndingFromSource := false }

def withIndent (c : SessionConfig) (indent : String) : SessionConfig :=
  { c with layout := { c.layout with indent } }

def withLineEnding (c : SessionConfig) (lineEnding : String) : SessionConfig :=
  { c with layout := { c.layout with lineEnding }, lineEndingFromSource := false }

def withRegistry (c : SessionConfig) (registry : Registry) : SessionConfig :=
  { c with registry }

def forSource (c : SessionConfig) (source : String) : SessionConfig :=
  if c.lineEndingFromSource then
    { c with layout := { c.layout with lineEnding := LineEnding.dominant source } }
  else c

end SessionConfig

end ClassEdit
