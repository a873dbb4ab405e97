import ClassEdit.Edit.Registry

/-!
Kinds of edits that scenarios register, to try what callers can bring with them: one that hands on
to a built-in kind, and one that the built-in kinds do not have.
-/

namespace ClassEdit

namespace Constructor

/-- The built-in edit of a name, with the entries of the first argument for its parameters. -/
def forwarding (kind : String) : Constructor := fun args =>
  Operation.apply <$> Operation.ofParams kind (Params.ofValue (args.headD .null))

def labelOf (arg : Value) : String :=
  (arg.string?.or ((arg.get? "label").bind Value.string?)).getD "unlabeled"

/-- An edit that puts a label behind the last statement as a comment. -/
def stamp : Constructor := fun args =>
  let comment := "// " ++ labelOf (args.headD .null)
  .ok fun f => ({ f with closingComments := f.closingComments ++ [comment] }, .applied)

end Constructor

def Registry.allArguments (p : Params) : List Value :=
  p.entries.map (·.2)

end ClassEdit
