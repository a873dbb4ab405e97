import ClassEdit.Edit.Registry
import ClassEdit.Proofs.Edit.Building
import ClassEdit.Proofs.Host.Maps
import ClassEdit.Scenario.Kinds
import Mathlib.Data.List.Nodup

/-!
The built-in kinds as they are registered. Their constructors take arguments in the order of
their parameter names, and a null argument was not supplied. Main statement: an edit that is
asked for through the registry, by parameters or by arguments, is the edit that is built from the
parameters without nulls.
-/

namespace ClassEdit

theorem map_fst_zip_sublist {α β : Type} (xs : List α) (ys : List β) :
    ((xs.zip ys).map (·.1)).Sublist xs := by
  induction xs generalizing ys with
  | nil => exact .slnil
  | cons x xs ih =>
    cases ys with
    | nil => exact List.nil_sublist _
    | cons y ys => exact (ih ys).cons_cons x

namespace EditKind

theorem nodup_all : all.Nodup := by decide

theorem name_injective : Function.Injective name := by
  intro k l h
  rw [← Option.some_inj, ← ofName?_name k, h, ofName?_name]

theorem nodup_paramNames (k : EditKind) : k.paramNames.Nodup := by
  cases k <;> decide

end EditKind

namespace Constructor

/-- A parameter gets the argument in its place, unless this is null. -/
theorem get?_paramsOf (k : EditKind) (args : List Value) (name : String) :
    (paramsOf k args).get? name =
      (((k.paramNames.zip args).find? (·.1 == name)).map (·.2)).filter (!·.isNull) := by
  have hnames : ((k.paramNames.zip args).map (·.1)).Nodup :=
    k.nodup_paramNames.sublist (map_fst_zip_sublist _ _)
  rw [paramsOf, Params.get?_withoutNulls, NameMap.get?_ofList hnames]

/-- Arguments that were looked up under the names of a kind stand for what is not null among
them. -/
theorem get?_paramsOf_map {k : EditKind} {name : String} (h : name ∈ k.paramNames) (p : Params) :
    (paramsOf k (k.paramNames.map fun name => (p.get? name).getD .null)).get? name =
      (p.get? name).filter (!·.isNull) := by
  have hname : k.paramNames.find? (· == name) = some name := by
    have hfound : (k.paramNames.find? (· == name)).isSome :=
      List.find?_isSome.2 ⟨name, h, beq_self_eq_true name⟩
    obtain ⟨n, hn⟩ := Option.isSome_iff_exists.1 hfound
    have heq := List.find?_some (p := (· == name)) hn
    rw [hn, beq_iff_eq.1 heq]
  have hzip : (k.paramNames.zip (k.paramNames.map fun name => (p.get? name).getD .null)).find?
      (·.1 == name) =
      some (name, (p.get? name).getD .null) := by
    have hpairs := List.zip_map' (f := id) (g := fun name => (p.get? name).getD .null)
      (l := k.paramNames)
    rw [List.map_id] at hpairs
    rw [hpairs, List.find?_map, Function.comp_def]
    simp only [id_eq, hname, Option.map_some]
  rw [get?_paramsOf, hzip]
  cases p.get? name <;> rfl

end Constructor

namespace Registry

/-- The built-in kinds are registered under their names, and nothing else is. -/
theorem get?_builtins (name : String) :
    builtins.get? name = (EditKind.ofName? name).map Constructor.ofKind := by
  have hnames : ((EditKind.all.map fun k => (k.name, Constructor.ofKind k)).map (·.1)).Nodup := by
    rw [List.map_map]
    exact EditKind.nodup_all.map EditKind.name_injective
  rw [builtins, NameMap.get?_ofList hnames, List.find?_map, Option.map_map]
  rfl

theorem make_builtins (k : EditKind) (args : List Value) :
    builtins.make k.name args = Constructor.ofKind k args := by
  rw [make, get?_builtins, EditKind.ofName?_name]
  rfl

theorem simple_builtins (k : EditKind) (names : List String) (p : Params) :
    builtins.simple k.name names p =
      Constructor.ofKind k (names.map fun name => (p.get? name).getD .null) := by
  rw [simple, wrap, get?_builtins, EditKind.ofName?_name]
  rfl

/-- Asked for through the registry, a built-in kind gives the operation or the error that is built
from the parameters without nulls: from those that the names of the kind pick out, and from the
arguments in their places, of which there may be too few or too many. -/
theorem builtins_eq_ofParams (k : EditKind) :
    (∀ p : Params, builtins.simple k.name k.paramNames p =
      Operation.apply <$> Operation.ofParams k.name p.withoutNulls) ∧
    ∀ args : List Value, builtins.make k.name args = Operation.apply <$>
      Operation.ofParams k.name
        (NameMap.ofList ((k.paramNames.zip args).filter fun e => !e.2.isNull)) := by
  refine ⟨fun p => ?_, fun args => ?_⟩
  · rw [simple_builtins, Constructor.ofKind, Operation.ofParams_name]
    refine congrArg (Operation.apply <$> ·) (Operation.ofRequest_congr fun name hname => ?_)
    rw [Constructor.get?_paramsOf_map hname, Params.get?_withoutNulls]
  · have hnames : ((k.paramNames.zip args).map (·.1)).Nodup :=
      k.nodup_paramNames.sublist (map_fst_zip_sublist _ _)
    rw [make_builtins, Constructor.ofKind, Operation.ofParams_name]
    refine congrArg (Operation.apply <$> ·) (Operation.ofRequest_congr fun name _ => ?_)
    rw [Constructor.get?_paramsOf, NameMap.get?_ofList (hnames.sublist (List.filter_sublist.map _)),
      find?_filter_of_nodup hnames (!·.isNull)]

/-- A kind that hands on its parameters gives the edits of the built-in kind that it hands them
to. -/
theorem instantiate_forwarding (r : Registry) (name kind : String) (p : Params) :
    (Descriptor.mk name p .registered).instantiate (r.register name (.forwarding kind)) =
      (Descriptor.mk kind p .builtin).instantiate r := by
  have hkind : (r.register name (.forwarding kind)).get? name =
      some (Constructor.forwarding kind) := by
    rw [register, NameMap.get?_insert, if_pos rfl]
  have hparams : Params.ofValue ([p.toValue].headD .null) = p := Params.ofValue_toValue p
  rw [Descriptor.instantiate, make, hkind]
  simp only [Constructor.forwarding, hparams]
  rfl

end Registry

end ClassEdit
