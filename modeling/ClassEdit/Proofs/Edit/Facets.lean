import ClassEdit.Edit.Request
import ClassEdit.Proofs.Edit.Repeating
import ClassEdit.Proofs.Edit.Target
import ClassEdit.Proofs.Reading

/-!
What a change of a field, a constant or a routine does to the thing that it names. A request
supplies some of the facets of that thing under the parameters of its kind; these become
what was supplied, and all others stay as they were. Main statement: this holds of every
request that an operation is built from, but for a change of the body alone, which takes a
missing body for an empty one.
-/

namespace ClassEdit

/-- What can be changed of a thing that a class declares. -/
inductive Facet where
  | type
  | visibility
  | value
  | params
  | body
deriving DecidableEq

/-- A thing that a class declares and that can be changed, with the group that it is declared in. -/
inductive Declared where
  | constant (group : ConstantGroup) (item : Constant)
  | field (group : FieldGroup) (item : Field)
  | routine (routine : Routine)

namespace Declared

def type : Declared → Option String
  | constant g _ => g.type
  | field g _ => g.type
  | routine r => r.returnType

def visibility : Declared → Option Visibility
  | constant g _ => g.modifiers.visibility
  | field g _ => g.modifiers.visibility
  | routine r => r.modifiers.visibility

/-- The value of a constant or the default of a field. -/
def value : Declared → Option Expr
  | constant _ x => some x.value
  | field _ x => x.default
  | routine _ => none

def params : Declared → List Param
  | routine r => r.params
  | _ => []

def body : Declared → Option (List InnerStmt)
  | routine r => r.body
  | _ => none

/-- The two are the same in a facet. -/
def SameIn (d d' : Declared) : Facet → Prop
  | .type => d'.type = d.type
  | .visibility => d'.visibility = d.visibility
  | .value => d'.value = d.value
  | .params => d'.params = d.params
  | .body => d'.body = d.body

/-- A facet is what a value asks for. -/
def Shows (d : Declared) : Facet → Value → Prop
  | .type, v => ∃ t, v = .string t ∧ d.type = if t.isEmpty then none else some t
  | .visibility, v => d.visibility = v.string?.bind Visibility.ofKeyword?
  | .value, v => d.value = some (.ofValue v)
  | .params, v => ∃ vs ps, v = .list vs ∧ vs.mapM ParamSpec.ofValue? = some ps ∧
      d.params = ps.map ParamSpec.toParam
  | .body, v => ∃ t, v = .string t ∧ d.body = some (Fragment.bodyOfText t)

end Declared

namespace Member

def declaredConstant? (name : String) : Member → Option Declared
  | constants g => (g.items.find? (·.name == name)).map (.constant g)
  | _ => none

def declaredField? (name : String) : Member → Option Declared
  | fields g => (g.items.find? (·.name == name)).map (.field g)
  | _ => none

def declaredRoutine? (name : String) : Member → Option Declared
  | routine r => if sameWord r.name name then some (.routine r) else none
  | _ => none

end Member

namespace EditKind

/-- The parameter that tells a facet, for the kinds that change it. -/
def param? : EditKind → Facet → Option String
  | changeField, .type | changeFieldType, .type => some "type"
  | changeField, .value | changeFieldDefault, .value => some "default"
  | changeField, .visibility | changeFieldVisibility, .visibility => some "visibility"
  | changeConstant, .value => some "value"
  | changeConstant, .visibility => some "visibility"
  | changeRoutine, .params => some "params"
  | changeRoutine, .body | changeRoutineBody, .body => some "body"
  | changeRoutine, .visibility | changeRoutineVisibility, .visibility => some "visibility"
  | _, _ => none

/-- What a member declares under a name, for the kinds that change it. -/
def declared? (kind : EditKind) (name : String) (m : Member) : Option Declared :=
  match kind with
  | changeField | changeFieldType | changeFieldDefault | changeFieldVisibility =>
    m.declaredField? (fieldName name)
  | changeConstant => m.declaredConstant? name
  | changeRoutine | changeRoutineBody | changeRoutineVisibility => m.declaredRoutine? name
  | _ => none

end EditKind

/-- Whether a value tells a facet. Null tells nothing but a value, and a word that is no
visibility nothing at all. -/
def Facet.isTold : Facet → Value → Bool
  | .value, _ => true
  | .visibility, v => (v.string?.bind Visibility.ofKeyword?).isSome
  | .type, v | .params, v | .body, v => !v.isNull

namespace Request

/-- What the parameters tell of a facet. -/
def supplied? (r : Request) (facet : Facet) : Option Value :=
  (r.kind.param? facet).bind fun param => (r.params.get? param).filter facet.isTold

/-- The thing in a class that the request is to change. -/
def target? (r : Request) (c : ClassDecl) : Option Declared :=
  ((r.params.get? "name").bind Value.string?).bind fun name =>
    c.members.findSome? (r.kind.declared? name ·.member)

section Readers

variable {r : Request} {param : String}

theorem string?_eq_ok {x : Option String} (h : r.string? param = .ok x) :
    (r.params.get? param).filter (!·.isNull) = x.map .string := by
  unfold string? at h
  split at h
  next hnone => cases h; rw [hnone]; rfl
  next hnull => cases h; rw [hnull]; rfl
  next hstring => cases h; rw [hstring]; rfl
  next => cases h

theorem string?_of_string {x : String} (h : r.string param = .ok x) :
    r.string? param = .ok (some x) := by
  obtain ⟨s, hs, hx⟩ := bind_eq_ok.1 h
  cases s with
  | none => cases hx
  | some s => cases hx; exact hs

theorem eq_of_string {x y : String} (h : r.string param = .ok x)
    (hget : r.params.get? param = some (.string y)) :
    x = y := by
  have hx := (Option.filter_eq_some_iff.1 (string?_eq_ok (string?_of_string h))).1
  cases hx.symm.trans hget
  rfl

theorem bind_string?_of_filter {o : Option Value} {x : Option String}
    (h : o.filter (!·.isNull) = x.map .string) : o.bind Value.string? = x := by
  cases x with
  | some s => rw [(Option.filter_eq_some_iff.1 h).1]; rfl
  | none =>
    cases o with
    | none => rfl
    | some v => cases v <;> first | rfl | cases h

theorem visibility?_eq_ok {x : Option Visibility} (h : r.visibility? param = .ok x) :
    ((r.params.get? param).bind Value.string?).bind Visibility.ofKeyword? = x := by
  obtain ⟨s, hs, hx⟩ := bind_eq_ok.1 h
  cases hx
  rw [bind_string?_of_filter (string?_eq_ok hs)]

theorem visibility?_of_visibility {x : Visibility} (h : r.visibility param = .ok x) :
    r.visibility? param = .ok (some x) := by
  obtain ⟨v, hv, hx⟩ := bind_eq_ok.1 h
  cases v with
  | none => cases hx
  | some v => cases hx; exact hv

theorem value_eq_ok {x : Value} (h : r.value param = .ok x) : r.params.get? param = some x := by
  unfold value value? at h
  cases hget : r.params.get? param with
  | none => rw [hget] at h; cases h
  | some v => rw [hget] at h; cases h; rfl

/-- If no parameter is refused, each of them is what its value stands for. -/
theorem mapM_require_eq_ok {vs : List Value} {ps : List ParamSpec}
    (h : vs.mapM (fun v => r.require param .param (ParamSpec.ofValue? v)) = .ok ps) :
    vs.mapM ParamSpec.ofValue? = some ps := by
  induction vs generalizing ps with
  | nil => cases h; rfl
  | cons v vs ih =>
    rw [List.mapM_cons] at h
    obtain ⟨p, hp, h⟩ := bind_eq_ok.1 h
    obtain ⟨rest, hrest, h⟩ := bind_eq_ok.1 h
    cases h
    cases hv : ParamSpec.ofValue? v with
    | none => rw [hv] at hp; cases hp
    | some q =>
      rw [hv] at hp
      cases hp
      rw [List.mapM_cons, hv, ih hrest]
      rfl

/-- Parameters that are supplied are those of a list, and a null one is not supplied. -/
theorem params?_eq_ok {x : Option (List ParamSpec)} (h : r.params? param = .ok x) :
    Option.Rel (fun v ps => ∃ vs, v = .list vs ∧ vs.mapM ParamSpec.ofValue? = some ps)
      ((r.params.get? param).filter (!·.isNull)) x := by
  unfold params? at h
  split at h
  next hnone => cases h; rw [hnone]; exact .none
  next hnull => cases h; rw [hnull]; exact .none
  next vs hlist =>
    rw [map_eq_pure_bind] at h
    obtain ⟨ps, hps, hx⟩ := bind_eq_ok.1 h
    cases hx
    rw [hlist]
    exact .some ⟨vs, rfl, mapM_require_eq_ok hps⟩
  next => cases h

end Readers

end Request

/-- What a change makes of the facets; what is none stays. -/
structure Change where
  type : Option String
  visibility : Option Visibility
  value : Option Value
  params : Option (List ParamSpec)
  body : Option String

/-- The second is the first with the facets changed. -/
structure Declared.ChangedBy (ch : Change) (d d' : Declared) : Prop where
  type : d'.type = ch.type.elim d.type fun t => if t.isEmpty then none else some t
  visibility : d'.visibility = ch.visibility.or d.visibility
  value : d'.value = (ch.value.map Expr.ofValue).or d.value
  params : d'.params = (ch.params.map (·.map ParamSpec.toParam)).getD d.params
  body : d'.body = (ch.body.map Fragment.bodyOfText).or d.body

namespace Operation

def change? : Operation → Option Change
  | changeField s => some ⟨s.type, s.visibility, s.default, none, none⟩
  | changeConstant _ value visibility => some ⟨none, visibility, value, none, none⟩
  | changeRoutine ch => some ⟨none, ch.visibility, none, ch.params, ch.body⟩
  | _ => none

/-- The thing in a class that a change is about. -/
def declared? (op : Operation) (c : ClassDecl) : Option Declared :=
  match op with
  | changeField s => c.members.findSome? (·.member.declaredField? s.name)
  | changeConstant name .. => c.members.findSome? (·.member.declaredConstant? name)
  | changeRoutine ch => c.members.findSome? (·.member.declaredRoutine? ch.name)
  | _ => none

end Operation

/-- What a change asks for is what the request supplies, or an empty body that it need not
supply. -/
structure Request.Asks (r : Request) (ch : Change) : Prop where
  type : Option.Rel (fun v t => v = .string t) (r.supplied? .type) ch.type
  visibility : (r.supplied? .visibility).bind (·.string?.bind Visibility.ofKeyword?) = ch.visibility
  value : r.supplied? .value = ch.value
  params : Option.Rel (fun v ps => ∃ vs, v = .list vs ∧ vs.mapM ParamSpec.ofValue? = some ps)
    (r.supplied? .params) ch.params
  body : Option.Rel (fun v t => v = .string t)
    ((r.supplied? .body).or (if r.kind = .changeRoutineBody then some (.string "") else none))
      ch.body

namespace Request

variable {r : Request} {param : String}

theorem rel_string? {x : Option String} {facet : Facet} (hfacet : facet.isTold = (!·.isNull))
    (h : r.string? param = .ok x) :
    Option.Rel (fun v t => v = .string t) ((r.params.get? param).filter facet.isTold) x := by
  rw [hfacet, string?_eq_ok h]
  cases x with
  | none => exact .none
  | some t => exact .some rfl

/-- A text that is missing is the empty text. -/
theorem rel_or_empty {o : Option Value} {x : Option String}
    (h : Option.Rel (fun v t => v = .string t) o x) :
    Option.Rel (fun v t => v = .string t) (o.or (some (.string ""))) (some (x.getD "")) := by
  cases h with
  | none => exact .some rfl
  | some hv => exact .some hv

theorem visibility_supplied {x : Option Visibility} (h : r.visibility? param = .ok x) :
    ((r.params.get? param).filter Facet.visibility.isTold).bind
    (·.string?.bind Visibility.ofKeyword?) = x := by
  rw [← visibility?_eq_ok h]
  cases r.params.get? param with
  | none => rfl
  | some v =>
    cases hv : v.string?.bind Visibility.ofKeyword? <;> simp [Option.filter_some, Facet.isTold, hv]

theorem value_supplied (o : Option Value) : o.filter Facet.value.isTold = o := by
  cases o <;> rfl

end Request

namespace Operation

variable {r : Request} {op : Operation}

/-- The request of a change is built into an operation that is about its target and asks for what it
supplies. -/
theorem change_of_ofRequest {c : ClassDecl} {d : Declared} (h : ofRequest r = .ok op)
    (hd : r.target? c = some d) :
    ∃ ch, op.change? = some ch ∧ r.Asks ch ∧ ∀ c, r.target? c = op.declared? c := by
  obtain ⟨name, hname, hmember⟩ := Option.bind_eq_some_iff.1 hd
  obtain ⟨m, -, hm⟩ := List.exists_of_findSome?_eq_some hmember
  have hget : r.params.get? "name" = some (.string name) := by
    obtain ⟨v, hv, hs⟩ := Option.bind_eq_some_iff.1 hname
    cases v <;> cases hs
    exact hv
  obtain ⟨kind, params⟩ := r
  have htarget (c : ClassDecl) : Request.target? ⟨kind, params⟩ c =
      c.members.findSome? (EditKind.declared? kind name ·.member) := by
    rw [Request.target?, hget]
    rfl
  cases kind <;> simp only [ofRequest, bind_eq_ok, pure, Except.pure, Except.ok.injEq] at h
  case changeField =>
    obtain ⟨s, hs, rfl⟩ := h
    simp only [fieldOf, bind_eq_ok, pure, Except.pure, Except.ok.injEq] at hs
    obtain ⟨n, hn, v, hv, t, ht, rfl⟩ := hs
    obtain rfl := Request.eq_of_string hn hget
    refine ⟨_, rfl, ⟨Request.rel_string? rfl ht, ?_, Request.value_supplied _, .none, .none⟩,
      htarget⟩
    exact Request.visibility_supplied hv
  case changeFieldType =>
    obtain ⟨n, hn, t, ht, rfl⟩ := h
    obtain rfl := Request.eq_of_string hn hget
    exact ⟨_, rfl, ⟨Request.rel_string? rfl (Request.string?_of_string ht), rfl, rfl, .none, .none⟩,
      htarget⟩
  case changeFieldDefault =>
    obtain ⟨n, hn, v, hv, rfl⟩ := h
    obtain rfl := Request.eq_of_string hn hget
    exact ⟨_, rfl, ⟨.none, rfl, (Request.value_supplied _).trans (Request.value_eq_ok hv),
      .none, .none⟩, htarget⟩
  case changeFieldVisibility =>
    obtain ⟨n, hn, v, hv, rfl⟩ := h
    obtain rfl := Request.eq_of_string hn hget
    refine ⟨_, rfl, ⟨.none, ?_, rfl, .none, .none⟩, htarget⟩
    exact Request.visibility_supplied (Request.visibility?_of_visibility hv)
  case changeRoutine =>
    obtain ⟨n, hn, v, hv, ps, hps, t, ht, rfl⟩ := h
    obtain rfl := Request.eq_of_string hn hget
    refine ⟨_, rfl, ⟨.none, ?_, rfl, Request.params?_eq_ok hps, ?_⟩, htarget⟩
    · exact Request.visibility_supplied hv
    · rw [if_neg (by simp), Option.or_none]
      exact Request.rel_string? rfl ht
  case changeRoutineBody =>
    obtain ⟨n, hn, t, ht, rfl⟩ := h
    obtain rfl := Request.eq_of_string hn hget
    exact ⟨_, rfl, ⟨.none, rfl, rfl, .none, Request.rel_or_empty (Request.rel_string? rfl ht)⟩,
      htarget⟩
  case changeRoutineVisibility =>
    obtain ⟨n, hn, v, hv, rfl⟩ := h
    obtain rfl := Request.eq_of_string hn hget
    refine ⟨_, rfl, ⟨.none, ?_, rfl, .none, .none⟩, htarget⟩
    exact Request.visibility_supplied (Request.visibility?_of_visibility hv)
  case changeConstant =>
    obtain ⟨n, hn, v, hv, rfl⟩ := h
    obtain rfl := Request.eq_of_string hn hget
    refine ⟨_, rfl, ⟨.none, ?_, Request.value_supplied _, .none, .none⟩, htarget⟩
    exact Request.visibility_supplied hv
  all_goals cases hm

end Operation

/-- The first that is found stays the first if it is changed to another that would be found. -/
theorem find?_modify {α : Type} {p : α → Bool} {f : α → α} (hf : ∀ x, p (f x) = p x)
    {xs : List α} {j : Nat} (h : xs.findIdx? p = some j) :
    (xs.modify j f).find? p = (xs.find? p).map f := by
  obtain ⟨front, x, back, rfl, rfl, hx, hfront⟩ := findIdx?_eq_some_split h
  have hnone : front.find? p = none := by simpa using hfront
  rw [modify_append_cons]
  simp [hnone, hx, hf]

namespace FieldGroup

variable (s : FieldSpec) (j : Nat) (g : FieldGroup)

theorem type_change : (g.change s j).type = s.type.elim g.type fun t => if t.isEmpty
    then none else some t := by
  obtain ⟨name, default, visibility, type⟩ := s
  cases default <;> cases visibility <;> cases type <;> rfl

theorem visibility_change :
    (g.change s j).modifiers.visibility = s.visibility.or g.modifiers.visibility := by
  obtain ⟨name, default, visibility, type⟩ := s
  cases default <;> cases visibility <;> cases type <;> rfl

theorem items_change : (g.change s j).items = s.default.elim g.items fun v =>
    g.items.modify j fun x => { x with default := some (.ofValue v) } := by
  obtain ⟨name, default, visibility, type⟩ := s
  cases default <;> cases visibility <;> cases type <;> rfl

end FieldGroup

namespace ConstantGroup

variable (value : Option Value) (visibility : Option Visibility) (j : Nat) (g : ConstantGroup)

theorem type_change : (g.change value visibility j).type = g.type := by
  cases value <;> cases visibility <;> rfl

theorem visibility_change : (g.change value visibility j).modifiers.visibility =
    visibility.or g.modifiers.visibility := by
  cases value <;> cases visibility <;> rfl

theorem items_change : (g.change value visibility j).items = value.elim g.items fun v =>
    g.items.modify j fun x => { x with value := .ofValue v } := by
  cases value <;> cases visibility <;> rfl

end ConstantGroup

namespace Member

theorem isSome_declaredField? (name : String) (m : Member) :
    (m.declaredField? name).isSome = (m.fieldIdx? name).isSome := by
  cases m with
  | fields g =>
    rw [Bool.eq_iff_iff]
    simp [declaredField?, fieldIdx?]
  | _ => rfl

theorem isSome_declaredConstant? (name : String) (m : Member) :
    (m.declaredConstant? name).isSome = (m.constantIdx? name).isSome := by
  cases m with
  | constants g =>
    rw [Bool.eq_iff_iff]
    simp [declaredConstant?, constantIdx?]
  | _ => rfl

theorem isSome_declaredRoutine? (name : String) (m : Member) :
    (m.declaredRoutine? name).isSome = m.isRoutine name := by
  cases m with
  | routine r => cases h : sameWord r.name name <;> simp [declaredRoutine?, isRoutine, h]
  | _ => rfl

/-- A changed group declares the field under its name, with the facets changed. -/
theorem declaredField?_change {s : FieldSpec} {m : Member} {j : Nat} {d : Declared}
    (hj : m.fieldIdx? s.name = some j) (hd : m.declaredField? s.name = some d) :
    ∃ d', (m.mapFields (.change s j)).declaredField? s.name = some d' ∧
      d.ChangedBy ⟨s.type, s.visibility, s.default, none, none⟩ d' := by
  cases m with
  | fields g =>
    obtain ⟨x, hx, rfl⟩ := Option.map_eq_some_iff.1 hd
    obtain ⟨x', hx', hvalue⟩ : ∃ x', (g.change s j).items.find? (·.name == s.name) = some x' ∧
        x'.default = (s.default.map Expr.ofValue).or x.default := by
      rw [FieldGroup.items_change]
      cases s.default with
      | none => exact ⟨x, hx, rfl⟩
      | some v =>
        refine ⟨{ x with default := some (.ofValue v) }, ?_, rfl⟩
        rw [Option.elim_some, find?_modify (by intro; rfl) hj, hx]
        rfl
    refine ⟨.field (g.change s j) x', congrArg (Option.map _) hx', ?_, ?_, hvalue, rfl, rfl⟩
    · exact g.type_change s j
    · exact g.visibility_change s j
  | _ => cases hd

/-- A constant that is changed has the facets that were asked for, and keeps the others. -/
theorem declaredConstant?_change {name : String} {value : Option Value}
    {visibility : Option Visibility} {m : Member} {j : Nat} {d : Declared}
    (hj : m.constantIdx? name = some j) (hd : m.declaredConstant? name = some d) :
    ∃ d', (m.mapConstants (.change value visibility j)).declaredConstant? name = some d' ∧
      d.ChangedBy ⟨none, visibility, value, none, none⟩ d' := by
  cases m with
  | constants g =>
    obtain ⟨x, hx, rfl⟩ := Option.map_eq_some_iff.1 hd
    obtain ⟨x', hx', hvalue⟩ : ∃ x', (g.change value visibility j).items.find?
      (·.name == name) = some x' ∧
        some x'.value = (value.map Expr.ofValue).or (some x.value) := by
      rw [ConstantGroup.items_change]
      cases value with
      | none => exact ⟨x, hx, rfl⟩
      | some v =>
        refine ⟨{ x with value := .ofValue v }, ?_, rfl⟩
        rw [Option.elim_some, find?_modify (by intro; rfl) hj, hx]
        rfl
    refine ⟨.constant (g.change value visibility j) x', congrArg (Option.map _) hx', ?_,
      ?_, hvalue, rfl, rfl⟩
    · exact g.type_change value visibility j
    · exact g.visibility_change value visibility j
  | _ => cases hd

/-- A routine that is changed has the facets that were asked for, and keeps the others. -/
theorem declaredRoutine?_change {change : RoutineChange} {m : Member} {d : Declared}
    (hd : m.declaredRoutine? change.name = some d) :
    ∃ d', (m.mapRoutine (.change change)).declaredRoutine? change.name = some d' ∧
      d.ChangedBy ⟨none, change.visibility, none, change.params, change.body⟩ d' := by
  cases m with
  | routine r =>
    simp only [declaredRoutine?, Option.ite_none_right_eq_some, Option.some.injEq] at hd
    obtain ⟨hname, rfl⟩ := hd
    refine ⟨.routine (r.change change), ?_, ?_⟩
    · rw [mapRoutine, declaredRoutine?, Routine.name_change, if_pos hname]
    · obtain ⟨name, params, body, visibility⟩ := change
      cases params <;> cases body <;> cases visibility <;> exact ⟨rfl, rfl, rfl, rfl, rfl⟩
  | _ => cases hd

end Member

namespace ClassDecl

variable {c : ClassDecl} {declared : Member → Option Declared} {d : Declared}

theorem findSome?_mapMember {front back : List MemberStmt} {m : MemberStmt}
    {g : Member → Member} {d' : Declared} (hc : c.members = front ++ m :: back)
    (hfront : ∀ x ∈ front, declared x.member = none) (hd' : declared (g m.member) = some d') :
    (c.mapMember front.length g).members.findSome? (declared ·.member) = some d' := by
  rw [mapMember_split hc]
  exact findSome?_behind hfront _ back hd'

/-- What a change does to one member it does to the first declaration of the name in the class. -/
theorem declared_of_atPlace {idx : Member → Option Nat} {g : Nat → Member → Member}
    {R : Declared → Declared → Prop} (hidx : ∀ m, (declared m).isSome = (idx m).isSome)
    (hchange : ∀ {m j}, idx m = some j → declared m = some d →
      ∃ d', declared (g j m) = some d' ∧ R d d')
    (hd : c.members.findSome? (declared ·.member) = some d) :
    ∃ c' d', atPlace (findIn (idx ·.member) c.members) (fun (i, j) => c.mapMember i (g j)) =
      .ok c' ∧
      c'.members.findSome? (declared ·.member) = some d' ∧ R d d' := by
  obtain ⟨front, m, back, hc, hm, hfront⟩ := List.findSome?_eq_some_iff.1 hd
  obtain ⟨j, hj⟩ := Option.isSome_iff_exists.1 ((hidx m.member).symm.trans (by rw [hm]; rfl))
  have hnone : ∀ x ∈ front, idx x.member = none := fun x hx => by
    rw [← Option.not_isSome_iff_eq_none, ← hidx, hfront x hx]
    simp
  obtain ⟨d', hd', hR⟩ := hchange hj hm
  refine ⟨c.mapMember front.length (g j), d', ?_, findSome?_mapMember hc hfront hd', hR⟩
  rw [hc, findIn_behind hnone back hj]
  rfl

/-- A change of a routine that is found changes what the class declares, in the way that
it changes the member. -/
theorem declared_of_findRoutine {name : String} {g : Member → Member}
    {R : Declared → Declared → Prop} (hchange : ∀ {m}, Member.declaredRoutine? name m = some d →
      ∃ d', (g m).declaredRoutine? name = some d' ∧ R d d')
    (hd : c.members.findSome? (·.member.declaredRoutine? name) = some d) :
    ∃ c' d', atPlace (c.findRoutine name) (fun i => c.mapMember i g) = .ok c' ∧
      c'.members.findSome? (·.member.declaredRoutine? name) = some d' ∧ R d d' := by
  obtain ⟨front, m, back, hc, hm, hfront⟩ := List.findSome?_eq_some_iff.1 hd
  have hroutine : m.member.isRoutine name = true := by
    rw [← Member.isSome_declaredRoutine?, hm]
    rfl
  have hnone : ∀ m ∈ front, m.member.isRoutine name = false := by
    simpa only [← Member.isSome_declaredRoutine?, Option.isSome_eq_false_iff,
      Option.isNone_iff_eq_none] using hfront
  obtain ⟨d', hd', hR⟩ := hchange hm
  refine ⟨c.mapMember front.length g, d', ?_, findSome?_mapMember hc hfront hd', hR⟩
  have hplace : c.findRoutine name = some front.length := by
    rw [findRoutine, hc]
    exact findIdx?_behind hnone back hroutine
  rw [hplace]
  rfl

end ClassDecl

namespace Operation

open ClassDecl

/-- A change of what a class declares applies, and changes of it the facets that it asks for. -/
theorem declared_classEdit {op : Operation} {ch : Change} {c : ClassDecl} {d : Declared}
    (hch : op.change? = some ch) (hd : op.declared? c = some d) :
    ∃ edit c' d', op.classEdit? = some edit ∧ edit c = .ok c' ∧ op.declared? c' = some d' ∧
      d.ChangedBy ch d' := by
  cases op <;> cases hch
  case changeField s =>
    obtain ⟨c', d', hedit⟩ := declared_of_atPlace (Member.isSome_declaredField? s.name)
      (g := fun j => .mapFields (.change s j)) Member.declaredField?_change hd
    exact ⟨_, c', d', rfl, hedit⟩
  case changeConstant name value visibility =>
    obtain ⟨c', d', hedit⟩ := declared_of_atPlace (Member.isSome_declaredConstant? name)
      (g := fun j => .mapConstants (.change value visibility j)) Member.declaredConstant?_change hd
    exact ⟨_, c', d', rfl, hedit⟩
  case changeRoutine change =>
    obtain ⟨c', d', hedit⟩ := declared_of_findRoutine (g := .mapRoutine (.change change))
      Member.declaredRoutine?_change hd
    exact ⟨_, c', d', rfl, hedit⟩

/-- An edit of the first class that is possible is applied. -/
theorem apply_of_edit {op : Operation} {edit : Edit ClassDecl} {f : SourceFile} {c c' : ClassDecl}
    (hop : op.classEdit? = some edit) (hf : f.firstClass = some c) (hedit : edit c = .ok c') :
    (op.apply f).2 = .applied ∧ (op.apply f).1.firstClass = some c' := by
  have hreason := SourceFile.reason?_onFirstClass edit f
  rw [hf, Option.elim_some, hedit] at hreason
  rw [apply, edit_of_classEdit? hop, Edit.apply]
  cases hresult : SourceFile.onFirstClass edit f with
  | error reason => rw [hresult] at hreason; cases hreason
  | ok f' =>
    obtain ⟨d, d', hd, hfirst, hfirst', -⟩ := SourceFile.onFirstClass_eq_ok hresult
    obtain rfl := Option.some.inj (hfirst.symm.trans hf)
    cases hedit.symm.trans hd
    exact ⟨rfl, hfirst'⟩

end Operation

section Rel

variable {α β : Type} {R : α → β → Prop}

theorem eq_none_of_rel {y : Option β} (h : Option.Rel R none y) : y = none := by
  cases h
  rfl

theorem eq_some_of_rel {a : α} {y : Option β} (h : Option.Rel R (some a) y) :
    ∃ b, y = some b ∧ R a b := by
  cases h with
  | some hab => exact ⟨_, rfl, hab⟩

end Rel

theorem Request.isTold_of_supplied? {r : Request} {facet : Facet} {v : Value}
    (h : r.supplied? facet = some v) :
    facet.isTold v := by
  obtain ⟨param, -, hv⟩ := Option.bind_eq_some_iff.1 h
  exact (Option.filter_eq_some_iff.1 hv).2

namespace Request.Asks

variable {r : Request} {ch : Change} {d d' : Declared} {facet : Facet}

/-- What is not supplied stays, but for the body in a change of the body alone. -/
theorem same (h : r.Asks ch) (hd : d.ChangedBy ch d') (hfacet : r.supplied? facet = none)
    (hbody : ¬ (r.kind = .changeRoutineBody ∧ facet = .body)) : d.SameIn d' facet := by
  cases facet with
  | type =>
    have hnone := eq_none_of_rel (hfacet ▸ h.type)
    exact hd.type.trans (by rw [hnone]; rfl)
  | visibility => exact hd.visibility.trans (by rw [← h.visibility, hfacet]; rfl)
  | value => exact hd.value.trans (by rw [← h.value, hfacet]; rfl)
  | params =>
    have hnone := eq_none_of_rel (hfacet ▸ h.params)
    exact hd.params.trans (by rw [hnone]; rfl)
  | body =>
    have hrel := h.body
    rw [hfacet, if_neg fun hkind => hbody ⟨hkind, rfl⟩] at hrel
    exact hd.body.trans (by rw [eq_none_of_rel hrel]; rfl)

/-- What is supplied is what the facet becomes. -/
theorem shows {v : Value} (h : r.Asks ch) (hd : d.ChangedBy ch d')
    (hfacet : r.supplied? facet = some v) :
    d'.Shows facet v := by
  cases facet with
  | type =>
    obtain ⟨t, hch, rfl⟩ := eq_some_of_rel (hfacet ▸ h.type)
    exact ⟨t, rfl, hd.type.trans (by rw [hch]; rfl)⟩
  | visibility =>
    obtain ⟨k, hk⟩ := Option.isSome_iff_exists.1 (isTold_of_supplied? hfacet)
    have hch := h.visibility
    rw [hfacet, Option.bind_some] at hch
    exact hd.visibility.trans (by rw [← hch, hk]; rfl)
  | value => exact hd.value.trans (by rw [← h.value, hfacet]; rfl)
  | params =>
    obtain ⟨ps, hch, vs, rfl, hps⟩ := eq_some_of_rel (hfacet ▸ h.params)
    exact ⟨vs, ps, rfl, hps, hd.params.trans (by rw [hch]; rfl)⟩
  | body =>
    have hrel := h.body
    rw [hfacet, Option.some_or] at hrel
    obtain ⟨t, hch, rfl⟩ := eq_some_of_rel hrel
    exact ⟨t, rfl, hd.body.trans (by rw [hch]; rfl)⟩

theorem empties (h : r.Asks ch) (hd : d.ChangedBy ch d') (hkind : r.kind = .changeRoutineBody)
    (hfacet : r.supplied? .body = none) : d'.body = some [] := by
  have hrel := h.body
  rw [hfacet, if_pos hkind, Option.none_or] at hrel
  obtain ⟨t, hch, ht⟩ := eq_some_of_rel hrel
  cases ht
  rw [hd.body, hch]
  rfl

end Request.Asks

namespace Operation

/-- The operation of a change applies to the thing that it names. The facets that the request
supplies become what is supplied and the others stay as they were; only a change of the body alone
empties the body if there is no text for it. -/
theorem facets_apply {r : Request} {op : Operation} {f : SourceFile} {c : ClassDecl} {d : Declared}
    (hop : ofRequest r = .ok op) (hf : f.firstClass = some c) (hd : r.target? c = some d) :
    ∃ c' d', (op.apply f).2 = .applied ∧ (op.apply f).1.firstClass = some c' ∧
      r.target? c' = some d' ∧
      (∀ facet v, r.supplied? facet = some v → d'.Shows facet v) ∧
      (∀ facet, r.supplied? facet = none → ¬ (r.kind = .changeRoutineBody ∧ facet = .body) →
        d.SameIn d' facet) ∧
      (r.kind = .changeRoutineBody → r.supplied? .body = none → d'.body = some []) := by
  obtain ⟨ch, hch, hasks, htarget⟩ := change_of_ofRequest hop hd
  rw [htarget] at hd
  obtain ⟨edit, c', d', hedit, hc', hd', hchanged⟩ := declared_classEdit hch hd
  obtain ⟨happlied, hfirst⟩ := apply_of_edit hedit hf hc'
  refine ⟨c', d', happlied, hfirst, (htarget c').trans hd', ?_, ?_, ?_⟩
  · exact fun _ _ hfacet => hasks.shows hchanged hfacet
  · exact fun _ hfacet hbody => hasks.same hchanged hfacet hbody
  · exact hasks.empties hchanged

/-- A field in a group of two of which a null type and a word that is no visibility leave all
but the default alone. -/
theorem facets_apply_default :
    let g : FieldGroup :=
      ⟨.ofVisibility .owner, some "int", [⟨"a", none⟩, ⟨"b", some (.ofValue (.int 1))⟩]⟩
    let c : ClassDecl := ⟨.empty, [], "A", none, [], [.made (.fields g)], []⟩
    let f : SourceFile := ⟨none, [.class_ c], [], none⟩
    let r : Request :=
      ⟨.changeField, .supplied [("name", some (.string "$b")), ("type", some .null),
      ("visibility", some (.string "open")), ("default", some .null)]⟩
    let op : Operation := .changeField ⟨"b", some .null, none, none⟩
    ofRequest r = .ok op ∧ f.firstClass = some c ∧ r.target? c =
      some (.field g ⟨"b", some (.ofValue (.int 1))⟩) ∧
      ∃ c' d', (op.apply f).1.firstClass = some c' ∧ r.target? c' = some d' ∧
        d'.type = some "int" ∧ d'.visibility = some .owner ∧ d'.value = some (.ofValue .null) := by
  intro g c f r op
  have hop : ofRequest r = .ok op := rfl
  obtain ⟨c', d', -, hc', hd', hshows, hsame, -⟩ := facets_apply hop (f := f) (c := c)
    (d := .field g ⟨"b", some (.ofValue (.int 1))⟩) rfl rfl
  have hbody (facet : Facet) : ¬ (r.kind = .changeRoutineBody ∧ facet = .body) :=
    fun h => nomatch h.1
  exact ⟨hop, rfl, rfl, c', d', hc', hd', hsame .type rfl (hbody _),
    hsame .visibility rfl (hbody _),
    hshows .value .null rfl⟩

/-- A change of a body without a text for it drops the statements of the routine. -/
theorem body_apply_ne :
    let run : Routine :=
      ⟨.empty, false, "run", [], false, none, some [⟨"return 1;", false⟩], .nextLine⟩
    let c : ClassDecl := ⟨.empty, [], "A", none, [], [.made (.routine run)], []⟩
    let f : SourceFile := ⟨none, [.class_ c], [], none⟩
    let r : Request := ⟨.changeRoutineBody, .supplied [("name", some (.string "run"))]⟩
    ∃ op, ofRequest r = .ok op ∧ f.firstClass = some c ∧ r.target? c = some (.routine run) ∧
      r.supplied? .body = none ∧ ¬ ∃ c' d', (op.apply f).1.firstClass = some c' ∧
        r.target? c' = some d' ∧
        (Declared.routine run).SameIn d' .body := by
  intro run c f r
  have hd : r.target? c = some (.routine run) := by
    dsimp only [r, c, run]
    rfl
  refine ⟨.changeRoutine ⟨"run", none, some "", none⟩, rfl, rfl, hd, rfl, ?_⟩
  rintro ⟨c', d', hc', hd', hsame⟩
  dsimp only [f, c, run] at hc'
  obtain rfl := Option.some.inj hc'
  obtain rfl := Option.some.inj hd'
  cases hsame

end Operation

end ClassEdit
