import ClassEdit.Edit.Request

/-!
Kinds of edits that callers bring with them. A registry has a constructor for each kind,
over arguments in order; a factory fits named parameters to a constructor. A descriptor is
an edit that waits to be built.
-/

namespace ClassEdit

/-- An edit that is ready to be applied. -/
abbrev Action := SourceFile → SourceFile × Outcome

/-- Builds an action from arguments. -/
abbrev Constructor := List Value → Except EditError Action

/-- Builds an action from named parameters. -/
abbrev Factory := Params → Except EditError Action

namespace Constructor

/-- The parameters of a built-in kind for arguments in order; a null argument was not supplied. -/
def paramsOf (kind : EditKind) (args : List Value) : Params :=
  Params.withoutNulls (NameMap.ofList (kind.paramNames.zip args))

def ofKind (kind : EditKind) : Constructor := fun args =>
  Operation.apply <$> Operation.ofRequest ⟨kind, paramsOf kind args⟩

end Constructor

abbrev Registry := NameMap Constructor

namespace Registry

def empty : Registry := NameMap.empty

def register (r : Registry) (kind : String) (c : Constructor) : Registry :=
  r.insert kind c

def builtins : Registry :=
  NameMap.ofList (EditKind.all.map fun k => (k.name, .ofKind k))

def make (r : Registry) (kind : String) (args : List Value) : Except EditError Action :=
  match r.get? kind with
  | some c => c args
  | none => .error (.unknownKind kind)

/-- A factory over the kind as it is registered now. The function turns parameters into arguments;
without one the parameters are the only argument, as a map. -/
def wrap (r : Registry) (kind : String) (arguments : Option (Params → List Value)) : Factory :=
  match r.get? kind with
  | some c => fun p => c (arguments.elim [p.toValue] (· p))
  | none => fun _ => .error (.unknownKind kind)

/-- A factory that hands on the parameters of some names in order; a missing one is null. -/
def simple (r : Registry) (kind : String) (names : List String) : Factory :=
  r.wrap kind (some fun p => names.map fun name => (p.get? name).getD .null)

end Registry

/-- Where the action of a descriptor comes from. -/
inductive Source where
  /-- A built-in kind. -/
  | builtin
  /-- A registered kind, which gets the parameters as a map. -/
  | registered
  | factory (f : Factory)

namespace Source

def name : Source → String
  | builtin => "builtin"
  | registered => "registered"
  | factory _ => "factory"

end Source

/-- An edit that was asked for and is not yet built. -/
structure Descriptor where
  kind : String
  params : Params
  source : Source

namespace Descriptor

/-- The action that the descriptor stands for. -/
def instantiate (d : Descriptor) (r : Registry) : Except EditError Action :=
  match d.source with
  | .builtin => Operation.apply <$> Operation.ofParams d.kind d.params
  | .registered => r.make d.kind [d.params.toValue]
  | .factory f => f d.params

end Descriptor

end ClassEdit
