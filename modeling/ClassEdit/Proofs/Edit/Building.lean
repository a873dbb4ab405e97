import ClassEdit.Edit.Request
import ClassEdit.Proofs.Reading

/-!
What requests are built into. Several kinds come to one operation where they differ in the
parameters that they want. Main statements: an operation tells of which kinds it can be, and it is
built from the parameters of its kind and from no others.
-/

namespace ClassEdit

namespace Operation

/-- The kinds that an operation can be built for. -/
def kinds : Operation → List EditKind
  | addMixin _ => [.addMixin]
  | removeMixin _ => [.removeMixin]
  | addImport .. => [.addImport]
  | removeImport _ => [.removeImport]
  | addField _ => [.addField]
  | removeField _ => [.removeField]
  | changeField _ => [.changeField, .changeFieldType, .changeFieldDefault, .changeFieldVisibility]
  | extendField .. => [.extendCollectionField]
  | addRoutine _ => [.addRoutine]
  | changeRoutine _ => [.changeRoutine, .changeRoutineBody, .changeRoutineVisibility]
  | removeRoutine _ => [.removeRoutine]
  | addConstant .. => [.addConstant]
  | changeConstant .. => [.changeConstant]
  | removeConstant _ => [.removeConstant]
  | renameClass _ => [.changeClassName]
  | extendClass _ => [.extendClass]
  | implementInterface _ => [.implementInterface]
  | changeNamespace _ => [.changeNamespace]
  | addNamespace _ => [.addNamespace]

variable {op : Operation}

/-- A request of a kind builds an operation of that kind. -/
theorem kind_mem_of_ofRequest {r : Request} (h : ofRequest r = .ok op) : r.kind ∈ op.kinds := by
  obtain ⟨kind, params⟩ := r
  cases kind <;> simp only [ofRequest, bind_eq_ok, pure, Except.pure, Except.ok.injEq] at h
  -- One bind for each parameter that is read, with the operation behind the last.
  all_goals
    first
    | obtain ⟨_, -, rfl⟩ := h
    | obtain ⟨_, -, _, -, rfl⟩ := h
    | obtain ⟨_, -, _, -, _, -, rfl⟩ := h
    | obtain ⟨_, -, _, -, _, -, _, -, rfl⟩ := h
    | obtain ⟨_, -, _, -, _, -, _, -, _, -, rfl⟩ := h
  all_goals simp [kinds, importOf]

theorem kind_mem_of_ofParams {kind : String} {params : Params} (h : ofParams kind params = .ok op) :
    ∃ k ∈ op.kinds, EditKind.ofName? kind = some k := by
  unfold ofParams at h
  split at h
  next k hk => exact ⟨k, kind_mem_of_ofRequest h, hk⟩
  next => cases h

theorem ofParams_name (kind : EditKind) (params : Params) :
    ofParams kind.name params = ofRequest ⟨kind, params⟩ := by
  rw [ofParams, EditKind.ofName?_name]

/-- Parameters that a kind does not name are not read, neither for an operation nor for an error. -/
theorem ofRequest_congr {kind : EditKind} {p q : Params}
    (h : ∀ name ∈ kind.paramNames, p.get? name = q.get? name) :
    ofRequest ⟨kind, p⟩ = ofRequest ⟨kind, q⟩ := by
  cases kind <;> simp only [EditKind.paramNames, List.forall_mem_cons] at h
  -- All readers look at the parameters through `get?`.
  all_goals
    simp only [ofRequest, fieldOf, Request.string, Request.string?, Request.value, Request.value?,
      Request.collection, Request.flag, Request.visibility, Request.visibility?, Request.params?,
      Request.require, Request.invalid, h]

end Operation

end ClassEdit
