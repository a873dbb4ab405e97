import ClassEdit.Proofs.Edit.Building
import ClassEdit.Session.Edits
import Mathlib.Data.List.DropRight

/-!
Edits on their way through the queue. A method of a session writes its arguments as named
parameters, and they are read back when the edit is built. Main statement: what is built is the
operation that the arguments stand for, and only a word that is no visibility and additions that are
no collection stand for none.
-/

namespace ClassEdit

namespace Params

theorem get?_addOption (p : Params) (name other : String) (x : Option Value) :
    (p.addOption name x).get? other = if name = other then x.or (p.get? other)
      else p.get? other := by
  cases x with
  | none => simp [addOption]
  | some x => simp [addOption, add, NameMap.get?_insert]

/-- The value of a name is the one that was supplied for it last. -/
@[simp] theorem get?_supplied (l : List (String × Option Value)) (name : String) :
    (supplied l).get? name = l.foldl (fun x e => if e.1 = name then e.2.or x else x) none := by
  suffices ∀ p : Params, (l.foldl (fun p e => p.addOption e.1 e.2) p).get? name =
      l.foldl (fun x e => if e.1 = name then e.2.or x else x) (p.get? name) from this empty
  intro p
  induction l generalizing p with
  | nil => rfl
  | cons e l ih => rw [List.foldl_cons, List.foldl_cons, ih, get?_addOption]

end Params

namespace ParamSpec

/-- A parameter that was built by the constructors. -/
inductive IsBuilt : ParamSpec → Prop where
  | named (name : String) : IsBuilt (named name)
  | withType {p : ParamSpec} (h : IsBuilt p) (type : String) : IsBuilt { p with type := some type }
  | withDefault {p : ParamSpec} (h : IsBuilt p) (default : Value) :
      IsBuilt { p with default := some default }

theorem name_named_named (name : String) : (named (named name).name).name = (named name).name := by
  simp only [named, String.toList_ofList, List.dropWhile_idempotent]

/-- The name of a parameter that was built has no sigil to lose. -/
theorem IsBuilt.name_named {p : ParamSpec} (h : p.IsBuilt) :
    (ParamSpec.named p.name).name = p.name := by
  induction h with
  | named name => exact name_named_named name
  | withType _ _ ih => exact ih
  | withDefault _ _ ih => exact ih

/-- A parameter that was built comes back from its map. -/
theorem IsBuilt.ofValue?_toValue {p : ParamSpec} (h : p.IsBuilt) : ofValue? p.toValue = some p := by
  have hname := h.name_named
  obtain ⟨name, type, default⟩ := p
  cases type <;> cases default <;>
    simp [ofValue?, toValue, Value.get?, Value.map?, Value.string?, hname]

end ParamSpec

namespace Request

variable {r : Request} {param : String}

theorem string?_eq {x : Option String} (h : r.params.get? param = x.map .string) :
    r.string? param = .ok x := by
  cases x with
  | none => rw [string?, h]; rfl
  | some s => rw [string?, h]; rfl

theorem string_eq {s : String} (h : r.params.get? param = some (.string s)) :
    r.string param = .ok s := by
  rw [string, string?_eq (x := some s) h]
  rfl

theorem visibility?_eq {x : Option String} (h : r.params.get? param = x.map .string) :
    r.visibility? param = .ok (x.bind Visibility.ofKeyword?) := by
  rw [visibility?, string?_eq h]
  rfl

theorem visibility_eq {w : String} (h : r.params.get? param = some (.string w)) :
    r.visibility param = r.require param .visibility (Visibility.ofKeyword? w) := by
  rw [visibility, visibility?_eq (x := some w) h]
  rfl

theorem flag_eq {b : Bool} (h : r.params.get? param = some (.bool b)) : r.flag param = .ok b := by
  rw [flag, h]

theorem value_eq {v : Value} (h : r.params.get? param = some v) : r.value param = .ok v := by
  rw [value, value?, h]
  rfl

theorem collection_eq {v : Value} (h : r.params.get? param = some v) :
    r.collection param = r.require param .collection ((some v).filter Value.isCollection) := by
  rw [collection, h]

theorem fieldOf_eq (name : String) (visibility type : Option String)
    (hname : r.params.get? "name" = some (.string name))
    (hvisibility : r.params.get? "visibility" = visibility.map .string)
    (htype : r.params.get? "type" = type.map .string) :
    Operation.fieldOf r = .ok ⟨fieldName name, r.params.get? "default",
      visibility.bind Visibility.ofKeyword?, type⟩ := by
  rw [Operation.fieldOf, string_eq hname, visibility?_eq hvisibility, string?_eq htype]
  rfl

/-- Parameters that were built come back from their maps. -/
theorem mapM_toValue {ps : List ParamSpec} (h : ∀ p ∈ ps, p.IsBuilt) :
    (ps.map ParamSpec.toValue).mapM (fun v => r.require param .param (ParamSpec.ofValue? v)) =
      .ok ps := by
  induction ps with
  | nil => rfl
  | cons p ps ih =>
    obtain ⟨hp, hps⟩ := List.forall_mem_cons.1 h
    rw [List.map_cons, List.mapM_cons, hp.ofValue?_toValue, ih hps]
    rfl

theorem params?_eq {x : Option (List ParamSpec)} (h : r.params.get? param = x.map Session.paramList)
    (hx : ∀ ps ∈ x, ∀ p ∈ ps, p.IsBuilt) : r.params? param = .ok x := by
  cases x with
  | none => rw [params?, h]; rfl
  | some ps =>
    rw [params?, h]
    simp only [Option.map_some, Session.paramList, mapM_toValue (hx ps rfl)]
    rfl

end Request

namespace Session

/-- The methods of a session that queue an edit of a built-in kind, with their arguments. -/
inductive Method where
  | addMixin (mixin : String)
  | removeMixin (mixin : String)
  | addImport (path : String) (localName : Option String)
  | removeImport (path : String)
  | addField (name : String) (default : Option Value) (visibility : String) (type : Option String)
  | removeField (name : String)
  | changeField (name : String) (default : Option Value) (visibility type : Option String)
  | changeFieldType (name type : String)
  | changeFieldDefault (name : String) (default : Value)
  | changeFieldVisibility (name visibility : String)
  | extendCollectionField (name : String) (additions : Value)
  | addRoutine (name : String) (params : List ParamSpec) (body visibility : String)
      (overwrite : Bool)
  | changeRoutine (name : String) (params : Option (List ParamSpec))
      (body visibility : Option String)
  | changeRoutineBody (name body : String)
  | changeRoutineVisibility (name visibility : String)
  | removeRoutine (name : String)
  | addConstant (name : String) (value : Value) (visibility : String)
  | changeConstant (name : String) (value : Option Value) (visibility : Option String)
  | removeConstant (name : String)
  | changeClassName (name : String)
  | extendClass (parent : String)
  | implementInterface (interface : String)
  | changeNamespace (name : String)
  | addNamespace (name : String)

namespace Method

def queue : Method → Session → Session
  | addMixin mixin, s => s.addMixin mixin
  | removeMixin mixin, s => s.removeMixin mixin
  | addImport path localName, s => s.addImport path localName
  | removeImport path, s => s.removeImport path
  | addField name default visibility type, s => s.addField name default visibility type
  | removeField name, s => s.removeField name
  | changeField name default visibility type, s => s.changeField name default visibility type
  | changeFieldType name type, s => s.changeFieldType name type
  | changeFieldDefault name default, s => s.changeFieldDefault name default
  | changeFieldVisibility name visibility, s => s.changeFieldVisibility name visibility
  | extendCollectionField name additions, s => s.extendCollectionField name additions
  | addRoutine name params body visibility overwrite, s =>
      s.addRoutine name params body visibility overwrite
  | changeRoutine name params body visibility, s => s.changeRoutine name params body visibility
  | changeRoutineBody name body, s => s.changeRoutineBody name body
  | changeRoutineVisibility name visibility, s => s.changeRoutineVisibility name visibility
  | removeRoutine name, s => s.removeRoutine name
  | addConstant name value visibility, s => s.addConstant name value visibility
  | changeConstant name value visibility, s => s.changeConstant name value visibility
  | removeConstant name, s => s.removeConstant name
  | changeClassName name, s => s.changeClassName name
  | extendClass parent, s => s.extendClass parent
  | implementInterface interface, s => s.implementInterface interface
  | changeNamespace name, s => s.changeNamespace name
  | addNamespace name, s => s.addNamespace name

/-- The operation that the arguments stand for. -/
def operation? : Method → Option Operation
  | addMixin mixin => some (.addMixin mixin)
  | removeMixin mixin => some (.removeMixin mixin)
  | addImport path localName => some (Operation.importOf path localName)
  | removeImport path => some (.removeImport path)
  | addField name default visibility type =>
    some (.addField ⟨fieldName name, default, Visibility.ofKeyword? visibility, type⟩)
  | removeField name => some (.removeField (fieldName name))
  | changeField name default visibility type =>
    some (.changeField ⟨fieldName name, default, visibility.bind Visibility.ofKeyword?, type⟩)
  | changeFieldType name type => some (.changeField ⟨fieldName name, none, none, some type⟩)
  | changeFieldDefault name default =>
      some (.changeField ⟨fieldName name, some default, none, none⟩)
  | changeFieldVisibility name visibility =>
    (Visibility.ofKeyword? visibility).map fun v =>
      .changeField ⟨fieldName name, none, some v, none⟩
  | extendCollectionField name additions =>
    if additions.isCollection then some (.extendField (fieldName name) additions) else none
  | addRoutine name params body visibility overwrite =>
    some (.addRoutine ⟨name, params, body, Visibility.ofKeyword? visibility, overwrite⟩)
  | changeRoutine name params body visibility =>
    some (.changeRoutine ⟨name, params, body, visibility.bind Visibility.ofKeyword?⟩)
  | changeRoutineBody name body => some (.changeRoutine ⟨name, none, some body, none⟩)
  | changeRoutineVisibility name visibility =>
    (Visibility.ofKeyword? visibility).map fun v => .changeRoutine ⟨name, none, none, some v⟩
  | removeRoutine name => some (.removeRoutine name)
  | addConstant name value visibility =>
      some (.addConstant name value (Visibility.ofKeyword? visibility))
  | changeConstant name value visibility =>
    some (.changeConstant name value (visibility.bind Visibility.ofKeyword?))
  | removeConstant name => some (.removeConstant name)
  | changeClassName name => some (.renameClass name)
  | extendClass parent => some (.extendClass parent)
  | implementInterface interface => some (.implementInterface interface)
  | changeNamespace name => some (.changeNamespace name)
  | addNamespace name => some (.addNamespace name)

/-- Whether the arguments stand for no operation, and the error that tells what they should have
been. -/
def Refused (m : Method) (e : EditError) : Prop :=
  match m with
  | changeFieldVisibility _ word =>
    Visibility.ofKeyword? word = none ∧ e = .invalidParam .changeFieldVisibility
      "visibility" .visibility
  | changeRoutineVisibility _ word =>
    Visibility.ofKeyword? word = none ∧ e = .invalidParam .changeRoutineVisibility
      "visibility" .visibility
  | extendCollectionField _ additions =>
    additions.isCollection = false ∧ e = .invalidParam .extendCollectionField
      "additions" .collection
  | _ => False

def params : Method → List ParamSpec
  | addRoutine _ params .. => params
  | changeRoutine _ params .. => params.getD []
  | _ => []

/-- The method queues a built-in edit, and this is built into the operation of the arguments or
refused because of them. -/
structure Queues (m : Method) (d : Descriptor) : Prop where
  queue : ∀ s : Session, m.queue s = s.enqueue d
  source : d.source = .builtin
  built : ∀ op, Operation.ofParams d.kind d.params = .ok op ↔ m.operation? = some op
  refused : ∀ e, Operation.ofParams d.kind d.params = .error e ↔ m.Refused e

section Queues

variable {m : Method} {kind : EditKind} {l : List (String × Option Value)}

theorem queues_of_ok (hqueue : ∀ s, m.queue s = s.request kind l) {op : Operation}
    (hbuild : Operation.ofRequest ⟨kind, .supplied l⟩ = .ok op) (hop : m.operation? = some op)
    (hrefused : ∀ e, ¬m.Refused e) : ∃ d, m.Queues d := by
  have hparams : Operation.ofParams kind.name (.supplied l) = .ok op := by
    rw [Operation.ofParams_name, hbuild]
  refine ⟨⟨kind.name, .supplied l, .builtin⟩, hqueue, rfl, fun op' => ?_, fun e => ?_⟩
  · rw [hparams, hop]
    simp
  · rw [hparams]
    simpa using hrefused e

/-- A text is all that the method takes. -/
theorem queues_of_string {param x : String} {f : String → Operation}
    (hqueue : ∀ s, m.queue s = s.request kind [(param, some (.string x))])
    (hbuild : ∀ p, Operation.ofRequest ⟨kind, p⟩ =
      (Request.string ⟨kind, p⟩ param >>= fun x => pure (f x)))
    (hop : m.operation? = some (f x)) (hrefused : ∀ e, ¬m.Refused e) : ∃ d, m.Queues d := by
  refine queues_of_ok hqueue ?_ hop hrefused
  rw [hbuild, Request.string_eq (s := x) (by simp)]
  rfl

/-- An argument that must be one of some values is all that a method can fail for. -/
theorem queues_of_require {α : Type} {f : α → Operation} (param : String)
    (wanted : Wanted) (x : Option α) (hqueue : ∀ s, m.queue s = s.request kind l)
    (hbuild : Operation.ofRequest ⟨kind, .supplied l⟩ =
      (Request.require ⟨kind, .supplied l⟩ param wanted x >>= fun a => pure (f a)))
    (hop : m.operation? = x.map f)
    (hrefused : ∀ e, m.Refused e ↔ x = none ∧ e = .invalidParam kind param wanted) :
    ∃ d, m.Queues d := by
  have hparams : Operation.ofParams kind.name (.supplied l) =
      (Request.require ⟨kind, .supplied l⟩ param wanted x >>= fun a => pure (f a)) := by
    rw [Operation.ofParams_name, hbuild]
  refine ⟨⟨kind.name, .supplied l, .builtin⟩, hqueue, rfl, fun op => ?_, fun e => ?_⟩
  · rw [hparams, hop]
    cases x <;> simp [Request.require, Request.invalid, bind, Except.bind]
  · rw [hparams, hrefused]
    cases x <;> simp [Request.require, Request.invalid, bind, Except.bind, eq_comm]

end Queues

open Request

end Method

end Session

end ClassEdit
