import ClassEdit.Proofs.Edit.Repeating
import ClassEdit.Proofs.Edit.Target

/-!
Accesses by place. An operation looks for a place first and then goes to it, with a second look at
what is there. Here every operation is written out with these accesses, and it fails where a place
is outside of its list or something else stands there than what was found. Main statement: on no
file and with no parameters does an operation fail, and its result is the same.
-/

namespace ClassEdit

/-- Why an access fails. -/
inductive Fault where
  /-- The place is outside of the list. -/
  | outside
  /-- Something else stands at the place than what was found there. -/
  | vanished
deriving DecidableEq

/-- What comes of something that goes to places. -/
abbrev Checked (α : Type) := Except Fault α

/-- An edit that goes to places. -/
abbrev CheckedEdit (α : Type) := α → Checked (Except SkipReason α)

namespace Access

variable {α β : Type} {xs : List α} {i : Nat}

def get (xs : List α) (i : Nat) : Checked α :=
  xs[i]?.elim (.error .outside) .ok

/-- The second look at what was found. -/
def again (found : Option β) : Checked β :=
  found.elim (.error .vanished) .ok

def set (xs : List α) (i : Nat) (x : α) : Checked (List α) :=
  if i < xs.length then .ok (xs.set i x) else .error .outside

def erase (xs : List α) (i : Nat) : Checked (List α) :=
  if i < xs.length then .ok (xs.eraseIdx i) else .error .outside

def split (xs : List α) (n : Nat) : Checked (List α × List α) :=
  if n ≤ xs.length then .ok (xs.take n, xs.drop n) else .error .outside

variable [Spaced α]

def insert (xs : List α) (i : Nat) (x : α) : Checked (List α) :=
  if i ≤ xs.length then .ok (insertSpaced xs i x) else .error .outside

def remove (xs : List α) (i : Nat) : Checked (List α) :=
  if i < xs.length then .ok (removeSpaced xs i) else .error .outside

end Access

namespace Member

def mixinUse? : Member → Option MixinUse
  | mixins use => some use
  | _ => none

def constantGroup? : Member → Option ConstantGroup
  | constants group => some group
  | _ => none

def fieldGroup? : Member → Option FieldGroup
  | fields group => some group
  | _ => none

def routine? : Member → Option Routine
  | routine r => some r
  | _ => none

end Member

namespace FieldGroup

def changeChecked (s : FieldSpec) (j : Nat) (g : FieldGroup) : Checked FieldGroup := do
  let g := s.type.elim g fun t => { g with type := if t.isEmpty then none else some t }
  let g := s.visibility.elim g fun v => { g with modifiers := g.modifiers.withVisibility v }
  match s.default with
  | none => return g
  | some d =>
    let field ← Access.get g.items j
    return { g with items := ← Access.set g.items j { field with default := some (.ofValue d) } }

def extendChecked (additions : Value) (j : Nat) (g : FieldGroup) : Checked FieldGroup := do
  let field ← Access.get g.items j
  let array := (field.default.bind Expr.array?).getD (.ofItems [])
  let extended := { field with default := some (.array (array.merge additions).1) }
  return { g with items := ← Access.set g.items j extended }

end FieldGroup

def ConstantGroup.changeChecked (value : Option Value) (visibility : Option Visibility) (j : Nat)
    (g : ConstantGroup) :
    Checked ConstantGroup := do
  let g ← match value with
    | none => pure g
    | some v =>
      let constant ← Access.get g.items j
      pure { g with items := ← Access.set g.items j { constant with value := .ofValue v } }
  return visibility.elim g fun v => { g with modifiers := g.modifiers.withVisibility v }

namespace ClassDecl

def addUnlessChecked {β : Type} (found : Option β) (m : Member) : CheckedEdit ClassDecl := fun c =>
  if found.isSome then return .error .duplicate
  else
    return .ok
      { c with
        members := ← Access.insert c.members (memberPosition c.members m.category) (.made m) }

def atPlaceChecked {β : Type} (place : Option β) (f : β → Checked ClassDecl) :
    Checked (Except SkipReason ClassDecl) :=
  match place with
  | some p => return .ok (← f p)
  | none => return .error .notFound

section Groups

variable {γ : Type} (group? : Member → Option γ)

/-- Puts another member in the place of a group that was found. -/
def editGroup (edit : γ → Checked Member) (i : Nat) (c : ClassDecl) : Checked ClassDecl := do
  let m ← Access.get c.members i
  let member ← edit (← Access.again (group? m.member))
  return { c with members := ← Access.set c.members i { m with member } }

/-- Removes one item of a group that was found, or the group with its last one. -/
def removeFromGroup {ι : Type} (items : γ → List ι) (withItems : γ → List ι → Member)
    (place : Nat × Nat) (c : ClassDecl) : Checked ClassDecl := do
  let m ← Access.get c.members place.1
  let group ← Access.again (group? m.member)
  if 1 < (items group).length then
    editGroup group? (fun g => return withItems g (← Access.erase (items g) place.2)) place.1 c
  else return { c with members := ← Access.remove c.members place.1 }

end Groups

def removeMixinChecked (name : String) : CheckedEdit ClassDecl := fun c =>
  atPlaceChecked (c.findMixin name) fun place =>
    removeFromGroup Member.mixinUse? (·.names) (fun m names => .mixins { m with names }) place c

def removeFieldChecked (name : String) : CheckedEdit ClassDecl := fun c =>
  atPlaceChecked (c.findField name) fun place =>
    removeFromGroup Member.fieldGroup? (·.items) (fun g items => .fields { g with items }) place c

def removeConstantChecked (name : String) : CheckedEdit ClassDecl := fun c =>
  atPlaceChecked (c.findConstant name) fun place =>
    removeFromGroup Member.constantGroup? (·.items)
      (fun g items => .constants { g with items }) place c

def changeFieldChecked (s : FieldSpec) : CheckedEdit ClassDecl := fun c =>
  atPlaceChecked (c.findField s.name) fun (i, j) =>
    editGroup Member.fieldGroup? (fun g => return .fields (← g.changeChecked s j)) i c

def extendFieldChecked (name : String) (additions : Value) : CheckedEdit ClassDecl := fun c =>
  atPlaceChecked (c.findField name) fun (i, j) =>
    editGroup Member.fieldGroup? (fun g => return .fields (← g.extendChecked additions j)) i c

def changeConstantChecked (name : String) (value : Option Value) (visibility : Option Visibility) :
    CheckedEdit ClassDecl := fun c =>
  atPlaceChecked (c.findConstant name) fun (i, j) =>
    editGroup Member.constantGroup?
      (fun g => return .constants (← g.changeChecked value visibility j)) i c

def addRoutineChecked (s : RoutineSpec) : CheckedEdit ClassDecl := fun c =>
  match c.findRoutine s.name with
  | some i =>
    if s.overwrite then do
      let m ← Access.get c.members i
      let made := ⟨{ Trivia.empty with blankBefore := m.trivia.blankBefore }, .routine s.toRoutine⟩
      return .ok { c with members := ← Access.set c.members i made }
    else return .error .duplicate
  | none => return .ok { c with members := c.members ++ [.made (.routine s.toRoutine)] }

def changeRoutineChecked (change : RoutineChange) : CheckedEdit ClassDecl := fun c =>
  atPlaceChecked (c.findRoutine change.name) fun i =>
    editGroup Member.routine? (fun r => return .routine (r.change change)) i c

def removeRoutineChecked (name : String) : CheckedEdit ClassDecl := fun c =>
  atPlaceChecked (c.findRoutine name) fun i =>
    return { c with members := ← Access.remove c.members i }

end ClassDecl

namespace SourceFile

def onFirstClassChecked (edit : CheckedEdit ClassDecl) : CheckedEdit SourceFile := fun f =>
  match f.firstClass with
  | some c => do
    let result ← edit c
    return onFirstClass (fun _ => result) f
  | none => return .error .notFound

def importIntoChecked (path : String) (localName : Option String) :
    CheckedEdit (List Stmt) := fun stmts =>
  if stmts.any (·.importsAs path localName) then return .error .duplicate
  else
    return .ok
      (← Access.insert stmts (importPosition stmts) (.import_ (.single (bareName path) localName)))

def addImportChecked (path : String) (localName : Option String) :
    CheckedEdit SourceFile := fun f =>
  match f.importNamespace? with
  | some i => do
    let s ← Access.get f.stmts i
    let n ← Access.again s.namespace?
    match ← importIntoChecked path localName n.stmts with
    | .ok stmts =>
        return .ok { f with stmts := ← Access.set f.stmts i (.namespace_ { n with stmts }) }
    | .error reason => return .error reason
  | none => return (← importIntoChecked path localName f.stmts).map fun stmts => { f with stmts }

def removeImportFromChecked (path : String) : CheckedEdit (List Stmt) := fun stmts =>
  match findIn (Stmt.importedIdx? path) stmts with
  | none => return .error .notFound
  | some (i, j) => do
    let s ← Access.get stmts i
    let decl ← Access.again s.import?
    if decl.items.length = 1 then return .ok (← Access.remove stmts i)
    else
      return .ok
        (← Access.set stmts i (.import_ { decl with items := ← Access.erase decl.items j }))

/-- Removes the first import of a class from the first namespace that has it. -/
def removeImportWithinChecked (path : String) : CheckedEdit (List Stmt)
  | [] => return .error .notFound
  | s :: stmts => do
    match s.namespace? with
    | none => return (← removeImportWithinChecked path stmts).map (s :: ·)
    | some n =>
      match ← removeImportFromChecked path n.stmts with
      | .ok inner => return .ok (.namespace_ { n with stmts := inner } :: stmts)
      | .error _ => return (← removeImportWithinChecked path stmts).map (s :: ·)

def removeImportChecked (path : String) : CheckedEdit SourceFile := fun f => do
  match ← removeImportFromChecked path f.stmts with
  | .ok stmts => return .ok { f with stmts }
  | .error _ => return (← removeImportWithinChecked path f.stmts).map fun stmts => { f with stmts }

def addNamespaceChecked (name : String) : CheckedEdit SourceFile := fun f =>
  if f.stmts.any (·.namespace?.isSome) then return .error .duplicate
  else do
    let (front, back) ← Access.split f.stmts (leadingDeclares f.stmts)
    let inner := back.modifyHead (Spaced.mapTrivia fun t => { t with blankBefore := some true })
    return .ok
      { f with stmts := front ++ [.namespace_ ⟨.empty, some (bareName name), false, inner, []⟩] }

end SourceFile

namespace Operation

open SourceFile (onFirstClassChecked)

/-- The operation with the places that it goes to. -/
def editChecked : Operation → CheckedEdit SourceFile
  | addMixin name => onFirstClassChecked fun c =>
      ClassDecl.addUnlessChecked (c.findMixin name) (.mixins ⟨[name], none⟩) c
  | removeMixin name => onFirstClassChecked (ClassDecl.removeMixinChecked name)
  | addImport path localName => SourceFile.addImportChecked path localName
  | removeImport path => SourceFile.removeImportChecked path
  | addField s => onFirstClassChecked fun c =>
      ClassDecl.addUnlessChecked (c.findField s.name)
        (.fields ⟨.ofVisibility (s.visibility.getD .heirs), s.type.filter (!·.isEmpty),
          [⟨s.name, s.default.map Expr.ofValue⟩]⟩) c
  | removeField name => onFirstClassChecked (ClassDecl.removeFieldChecked name)
  | changeField spec => onFirstClassChecked (ClassDecl.changeFieldChecked spec)
  | extendField name additions => onFirstClassChecked (ClassDecl.extendFieldChecked name additions)
  | addRoutine spec => onFirstClassChecked (ClassDecl.addRoutineChecked spec)
  | changeRoutine change => onFirstClassChecked (ClassDecl.changeRoutineChecked change)
  | removeRoutine name => onFirstClassChecked (ClassDecl.removeRoutineChecked name)
  | addConstant name value visibility => onFirstClassChecked fun c =>
      ClassDecl.addUnlessChecked (c.findConstant name)
        (.constants ⟨.ofVisibility (visibility.getD .everyone), none, [⟨name, .ofValue value⟩]⟩) c
  | changeConstant name value visibility =>
      onFirstClassChecked (ClassDecl.changeConstantChecked name value visibility)
  | removeConstant name => onFirstClassChecked (ClassDecl.removeConstantChecked name)
  | renameClass name => onFirstClassChecked fun c => return ClassDecl.rename name c
  | extendClass parent => onFirstClassChecked fun c => return ClassDecl.extend parent c
  | implementInterface interface =>
      onFirstClassChecked fun c => return ClassDecl.implement interface c
  | changeNamespace name => fun f => return SourceFile.changeNamespace name f
  | addNamespace name => SourceFile.addNamespaceChecked name

/-- The file after the operation with the places that it goes to, and what happened to it. -/
def applyChecked (op : Operation) (f : SourceFile) : Checked (SourceFile × Outcome) := do
  let result ← op.editChecked f
  return Edit.apply (fun _ => result) f

end Operation

section Places

theorem Member.mixinIdx?_eq_some {name : String} {m : Member} {j : Nat}
    (h : m.mixinIdx? name = some j) :
    ∃ use, m = .mixins use ∧ j < use.names.length := by
  cases m with
  | mixins use => exact ⟨use, rfl, (List.findIdx?_eq_some_iff_getElem.1 h).1⟩
  | _ => cases h

theorem Member.constantIdx?_eq_some {name : String} {m : Member} {j : Nat}
    (h : m.constantIdx? name = some j) :
    ∃ group, m = .constants group ∧ j < group.items.length := by
  cases m with
  | constants group => exact ⟨group, rfl, (List.findIdx?_eq_some_iff_getElem.1 h).1⟩
  | _ => cases h

theorem Member.fieldIdx?_eq_some {name : String} {m : Member} {j : Nat}
    (h : m.fieldIdx? name = some j) :
    ∃ group, m = .fields group ∧ j < group.items.length := by
  cases m with
  | fields group => exact ⟨group, rfl, (List.findIdx?_eq_some_iff_getElem.1 h).1⟩
  | _ => cases h

theorem Stmt.importedIdx?_eq_some {path : String} {s : Stmt} {j : Nat}
    (h : s.importedIdx? path = some j) :
    ∃ decl, s = .import_ decl ∧ j < decl.items.length := by
  cases s with
  | import_ decl => exact ⟨decl, rfl, (List.findIdx?_eq_some_iff_getElem.1 h).1⟩
  | _ => cases h

/-- What is found in a class is there: at the place of the member stands one of the kind that was
looked for, and at the place in it there is an item. -/
structure ClassDecl.PlacesHold (c : ClassDecl) : Prop where
  position : ∀ category, memberPosition c.members category ≤ c.members.length
  mixin : ∀ name i j, c.findMixin name = some (i, j) →
    ∃ m use, c.members[i]? = some m ∧ m.member = .mixins use ∧ j < use.names.length
  constant : ∀ name i j, c.findConstant name = some (i, j) →
    ∃ m group, c.members[i]? = some m ∧ m.member = .constants group ∧ j < group.items.length
  field : ∀ name i j, c.findField name = some (i, j) →
    ∃ m group, c.members[i]? = some m ∧ m.member = .fields group ∧ j < group.items.length
  routine : ∀ name i, c.findRoutine name = some i → ∃ m r, c.members[i]? = some m ∧
    m.member = .routine r

/-- What is found among statements is there. -/
structure Stmt.PlacesHold (stmts : List Stmt) : Prop where
  position : importPosition stmts ≤ stmts.length
  declares : leadingDeclares stmts ≤ stmts.length
  imported : ∀ path i j, findIn (Stmt.importedIdx? path) stmts = some (i, j) →
    ∃ decl, stmts[i]? = some (.import_ decl) ∧ j < decl.items.length

/-- What is found in a class by name is there, and a new member has a place among the others. -/
theorem ClassDecl.placesHold (c : ClassDecl) : c.PlacesHold where
  position := memberPosition_le c.members
  mixin name i j h := by
    obtain ⟨m, hm, hj⟩ := findIn_eq_some h
    obtain ⟨use, huse, hlt⟩ := Member.mixinIdx?_eq_some hj
    exact ⟨m, use, hm, huse, hlt⟩
  constant name i j h := by
    obtain ⟨m, hm, hj⟩ := findIn_eq_some h
    obtain ⟨group, hgroup, hlt⟩ := Member.constantIdx?_eq_some hj
    exact ⟨m, group, hm, hgroup, hlt⟩
  field name i j h := by
    obtain ⟨m, hm, hj⟩ := findIn_eq_some h
    obtain ⟨group, hgroup, hlt⟩ := Member.fieldIdx?_eq_some hj
    exact ⟨m, group, hm, hgroup, hlt⟩
  routine name i h := by
    obtain ⟨m, r, hm, hr, -⟩ := findRoutine_eq_some h
    exact ⟨m, r, hm, hr⟩

theorem Stmt.placesHold (stmts : List Stmt) : Stmt.PlacesHold stmts where
  position := importPosition_le stmts
  declares := leadingDeclares_le stmts
  imported path i j h := by
    obtain ⟨s, hs, hj⟩ := findIn_eq_some h
    obtain ⟨decl, rfl, hlt⟩ := importedIdx?_eq_some hj
    exact ⟨decl, hs, hlt⟩

end Places

namespace Access

variable {α β : Type} {xs : List α} {i : Nat} {x : α}

@[simp] theorem again_some (x : β) : again (some x) = .ok x :=
  rfl

theorem get_of_getElem? (h : xs[i]? = some x) : get xs i = .ok x := by
  rw [get, h]
  rfl

theorem set_of_getElem? (h : xs[i]? = some x) (y : α) : set xs i y = .ok (xs.set i y) :=
  if_pos (List.getElem?_eq_some_iff.1 h).1

theorem erase_of_lt (h : i < xs.length) : erase xs i = .ok (xs.eraseIdx i) :=
  if_pos h

theorem modify_of_getElem? (h : xs[i]? = some x) (f : α → α) : xs.modify i f = xs.set i (f x) := by
  obtain ⟨hi, rfl⟩ := List.getElem?_eq_some_iff.1 h
  refine List.ext_getElem? fun j => ?_
  by_cases hj : i = j
  · subst hj
    simp [hi]
  · simp [hj]

variable [Spaced α]

theorem insert_of_le (h : i ≤ xs.length) (x : α) : insert xs i x = .ok (insertSpaced xs i x) :=
  if_pos h

theorem remove_of_getElem? (h : xs[i]? = some x) : remove xs i = .ok (removeSpaced xs i) :=
  if_pos (List.getElem?_eq_some_iff.1 h).1

end Access

section Groups

variable {c : ClassDecl} {i j : Nat} {m : MemberStmt}

theorem FieldGroup.changeChecked_eq {g : FieldGroup} (hj : j < g.items.length) (s : FieldSpec) :
    g.changeChecked s j = .ok (g.change s j) := by
  obtain ⟨name, default, visibility, type⟩ := s
  cases default <;> cases visibility <;> cases type <;>
    simp [changeChecked, change, Access.get_of_getElem? (List.getElem?_eq_getElem hj),
      Access.set_of_getElem? (List.getElem?_eq_getElem hj),
      Access.modify_of_getElem? (List.getElem?_eq_getElem hj), bind, Except.bind, pure, Except.pure]

theorem FieldGroup.extendChecked_eq {g : FieldGroup} (hj : j < g.items.length) (additions : Value) :
    g.extendChecked additions j = .ok (g.extend additions j) := by
  have hfield := List.getElem?_eq_getElem hj
  rw [extendChecked, extend, Access.get_of_getElem? hfield, Access.modify_of_getElem? hfield]
  simp [Access.set_of_getElem? hfield, bind, Except.bind, pure, Except.pure]

theorem ConstantGroup.changeChecked_eq {g : ConstantGroup} (hj : j < g.items.length)
    (value : Option Value) (visibility : Option Visibility) :
    g.changeChecked value visibility j = .ok (g.change value visibility j) := by
  have hconstant := List.getElem?_eq_getElem hj
  cases value with
  | none => rfl
  | some v =>
    rw [changeChecked, change, Access.get_of_getElem? hconstant, Option.elim_some,
      Access.modify_of_getElem? hconstant]
    simp [Access.set_of_getElem? hconstant, bind, Except.bind, pure, Except.pure]

namespace ClassDecl

theorem addUnlessChecked_eq {β : Type} (found : Option β) (m : Member) (c : ClassDecl) :
    addUnlessChecked found m c = .ok (addUnless found m c) := by
  unfold addUnlessChecked addUnless
  split
  next => rfl
  next =>
    rw [Access.insert_of_le (memberPosition_le c.members m.category)]
    rfl

theorem atPlaceChecked_eq {β : Type} {place : Option β} {f : β → Checked ClassDecl}
    {g : β → ClassDecl} (h : ∀ p, place = some p → f p = .ok (g p)) :
    atPlaceChecked place f = .ok (atPlace place g) := by
  cases place with
  | none => rfl
  | some p =>
    rw [atPlaceChecked, h p rfl]
    rfl

/-- To edit a group that stands at its place is to edit the member there. -/
theorem editGroup_eq {γ : Type} {group? : Member → Option γ} {edit : γ → Checked Member}
    {f : Member → Member} {g : γ} (hm : c.members[i]? = some m) (hg : group? m.member = some g)
    (hedit : edit g = .ok (f m.member)) :
    editGroup group? edit i c = .ok (c.mapMember i f) := by
  rw [mapMember, Access.modify_of_getElem? hm, editGroup, Access.get_of_getElem? hm]
  simp [hg, hedit, Access.set_of_getElem? hm, bind, Except.bind, pure, Except.pure]

theorem removeFromGroup_eq {γ ι : Type} {group? : Member → Option γ} {items : γ → List ι}
    {withItems : γ → List ι → Member} {g : γ} (hm : c.members[i]? = some m)
    (hg : group? m.member = some g) (hj : j < (items g).length)
    (hcount : m.member.itemCount = (items g).length)
    (herase : m.member.eraseItem j = withItems g ((items g).eraseIdx j)) :
    removeFromGroup group? items withItems (i, j) c = .ok (c.removeItem (i, j)) := by
  rw [removeFromGroup, removeItem, Access.get_of_getElem? hm, hm]
  simp only [hg, Access.again_some, Option.any_some, hcount, decide_eq_true_eq, bind, Except.bind]
  split
  next => exact editGroup_eq hm hg (by rw [Access.erase_of_lt hj, herase]; rfl)
  next =>
    rw [Access.remove_of_getElem? hm]
    rfl

theorem removeMixinChecked_eq (name : String) (c : ClassDecl) :
    removeMixinChecked name c = .ok (removeMixin name c) := by
  refine atPlaceChecked_eq fun (i, j) hplace => ?_
  obtain ⟨m, use, hm, huse, hj⟩ := c.placesHold.mixin name i j hplace
  exact removeFromGroup_eq hm (by rw [huse]; rfl) hj (by rw [huse]; rfl) (by rw [huse]; rfl)

theorem removeFieldChecked_eq (name : String) (c : ClassDecl) :
    removeFieldChecked name c = .ok (removeField name c) := by
  refine atPlaceChecked_eq fun (i, j) hplace => ?_
  obtain ⟨m, group, hm, hgroup, hj⟩ := c.placesHold.field name i j hplace
  exact removeFromGroup_eq hm (by rw [hgroup]; rfl) hj (by rw [hgroup]; rfl) (by rw [hgroup]; rfl)

theorem removeConstantChecked_eq (name : String) (c : ClassDecl) :
    removeConstantChecked name c = .ok (removeConstant name c) := by
  refine atPlaceChecked_eq fun (i, j) hplace => ?_
  obtain ⟨m, group, hm, hgroup, hj⟩ := c.placesHold.constant name i j hplace
  exact removeFromGroup_eq hm (by rw [hgroup]; rfl) hj (by rw [hgroup]; rfl) (by rw [hgroup]; rfl)

theorem changeFieldChecked_eq (s : FieldSpec) (c : ClassDecl) :
    changeFieldChecked s c = .ok (changeField s c) := by
  refine atPlaceChecked_eq fun (i, j) hplace => ?_
  obtain ⟨m, group, hm, hgroup, hj⟩ := c.placesHold.field s.name i j hplace
  refine editGroup_eq hm (by rw [hgroup]; rfl) ?_
  rw [FieldGroup.changeChecked_eq hj, hgroup]
  rfl

theorem extendFieldChecked_eq (name : String) (additions : Value) (c : ClassDecl) :
    extendFieldChecked name additions c = .ok (extendField name additions c) := by
  refine atPlaceChecked_eq fun (i, j) hplace => ?_
  obtain ⟨m, group, hm, hgroup, hj⟩ := c.placesHold.field name i j hplace
  refine editGroup_eq hm (by rw [hgroup]; rfl) ?_
  rw [FieldGroup.extendChecked_eq hj, hgroup]
  rfl

theorem changeConstantChecked_eq (name : String) (value : Option Value)
    (visibility : Option Visibility) (c : ClassDecl) :
    changeConstantChecked name value visibility c =
      .ok (changeConstant name value visibility c) := by
  refine atPlaceChecked_eq fun (i, j) hplace => ?_
  obtain ⟨m, group, hm, hgroup, hj⟩ := c.placesHold.constant name i j hplace
  refine editGroup_eq hm (by rw [hgroup]; rfl) ?_
  rw [ConstantGroup.changeChecked_eq hj, hgroup]
  rfl

theorem changeRoutineChecked_eq (change : RoutineChange) (c : ClassDecl) :
    changeRoutineChecked change c = .ok (changeRoutine change c) := by
  refine atPlaceChecked_eq fun i hplace => ?_
  obtain ⟨m, r, hm, hr⟩ := c.placesHold.routine change.name i hplace
  refine editGroup_eq hm (by rw [hr]; rfl) ?_
  rw [hr]
  rfl

theorem removeRoutineChecked_eq (name : String) (c : ClassDecl) :
    removeRoutineChecked name c = .ok (removeRoutine name c) := by
  refine atPlaceChecked_eq fun i hplace => ?_
  obtain ⟨m, r, hm, -⟩ := c.placesHold.routine name i hplace
  rw [Access.remove_of_getElem? hm]
  rfl

/-- A routine is replaced at the place where it was found, so no access fails. -/
theorem addRoutineChecked_eq (s : RoutineSpec) (c : ClassDecl) :
    addRoutineChecked s c = .ok (addRoutine s c) := by
  unfold addRoutineChecked addRoutine
  cases hplace : c.findRoutine s.name with
  | none => rfl
  | some i =>
    obtain ⟨m, r, hm, -⟩ := c.placesHold.routine s.name i hplace
    dsimp only
    rw [Access.modify_of_getElem? hm, Access.get_of_getElem? hm]
    split
    next => simp [Access.set_of_getElem? hm, bind, Except.bind, pure, Except.pure]
    next => rfl

end ClassDecl

end Groups

namespace SourceFile

/-- An edit of the first class is asked for nothing but that class. -/
theorem onFirstClass_eq (edit : Edit ClassDecl) (f : SourceFile) : onFirstClass edit f =
    f.firstClass.elim (.error .notFound) fun c => onFirstClass (fun _ => edit c) f := by
  have hreason := reason?_onFirstClass edit f
  cases hfirst : f.firstClass with
  | none =>
    rw [hfirst] at hreason
    exact Edit.reason?_eq_some.1 hreason
  | some c =>
    rw [hfirst, Option.elim_some] at hreason
    have hreason' := reason?_onFirstClass (fun _ => edit c) f
    rw [hfirst, Option.elim_some] at hreason'
    cases hedit : edit c with
    | error reason =>
      rw [hedit] at hreason hreason'
      rw [Edit.reason?_eq_some.1 hreason, Option.elim_some, hedit, Edit.reason?_eq_some.1 hreason']
    | ok c' =>
      obtain ⟨hole, rfl, hleads⟩ := exists_leads hfirst
      have hconst : onFirstClass (fun _ => edit c) (hole.fill c) = _ :=
        hleads.onFirstClass_fill hedit
      rw [hleads.onFirstClass_fill hedit, Option.elim_some, hconst]

theorem onFirstClassChecked_eq {edit : CheckedEdit ClassDecl} {edit' : Edit ClassDecl}
    (h : ∀ c, edit c = .ok (edit' c)) (f : SourceFile) :
    onFirstClassChecked edit f = .ok (onFirstClass edit' f) := by
  rw [onFirstClassChecked, onFirstClass_eq edit']
  cases f.firstClass with
  | none => rfl
  | some c =>
    dsimp only
    rw [h c]
    rfl

theorem importIntoChecked_eq (path : String) (localName : Option String) (stmts : List Stmt) :
    importIntoChecked path localName stmts = .ok (importInto path localName stmts) := by
  unfold importIntoChecked importInto
  split
  next => rfl
  next =>
    rw [Access.insert_of_le (importPosition_le stmts)]
    rfl

/-- The namespace that imports go to is a statement of the file, so no access fails. -/
theorem addImportChecked_eq (path : String) (localName : Option String) (f : SourceFile) :
    addImportChecked path localName f = .ok (addImport path localName f) := by
  unfold addImportChecked addImport
  rcases importScope_cases f with ⟨hplace, -, -⟩ | ⟨i, n, hplace, hn, -⟩
  · rw [hplace]
    dsimp only [Option.bind_none]
    rw [importIntoChecked_eq]
    rfl
  · rw [hplace]
    simp only [Access.get_of_getElem? hn, hn, Stmt.namespace?, Access.again_some, Option.bind_some,
      Option.map_some, importIntoChecked_eq, Access.set_of_getElem? hn, bind, Except.bind]
    cases importInto path localName n.stmts <;> rfl

/-- The import that was found is there to be removed. -/
theorem removeImportFromChecked_eq (path : String) (stmts : List Stmt) :
    removeImportFromChecked path stmts = .ok (removeImportFrom path stmts) := by
  unfold removeImportFromChecked removeImportFrom
  cases hplace : findIn (Stmt.importedIdx? path) stmts with
  | none => rfl
  | some place =>
    obtain ⟨decl, hs, hj⟩ := (Stmt.placesHold stmts).imported path place.1 place.2 hplace
    simp only [Access.get_of_getElem? hs, hs, Stmt.import?, Access.again_some, Option.bind_some,
      bind, Except.bind]
    split
    next =>
      rw [Access.remove_of_getElem? hs]
      rfl
    next =>
      rw [Access.erase_of_lt hj]
      simp only [Access.set_of_getElem? hs]
      rfl

/-- The removal from the namespaces goes to no place that is not there. -/
theorem removeImportWithinChecked_eq (path : String) (stmts : List Stmt) :
    removeImportWithinChecked path stmts =
    .ok (Edit.atFirst (fun s => s.namespace?.bind fun n =>
      (removeImportFrom path n.stmts).toOption.map fun stmts => .ok (.namespace_ { n with stmts }))
        stmts) := by
  induction stmts with
  | nil => rfl
  | cons s stmts ih =>
    unfold removeImportWithinChecked Edit.atFirst
    cases s.namespace? with
    | none =>
      rw [ih]
      rfl
    | some n =>
      dsimp only [Option.bind_some]
      rw [removeImportFromChecked_eq, ih]
      cases removeImportFrom path n.stmts <;> rfl

theorem removeImportChecked_eq (path : String) (f : SourceFile) :
    removeImportChecked path f = .ok (removeImport path f) := by
  unfold removeImportChecked removeImport
  rw [removeImportFromChecked_eq, removeImportWithinChecked_eq]
  cases removeImportFrom path f.stmts <;> rfl

theorem addNamespaceChecked_eq (name : String) (f : SourceFile) :
    addNamespaceChecked name f = .ok (addNamespace name f) := by
  unfold addNamespaceChecked addNamespace
  split
  next => rfl
  next =>
    rw [Access.split, if_pos (leadingDeclares_le f.stmts)]
    rfl

end SourceFile

namespace Operation

open SourceFile

/-- No operation accesses what is not there, on any file. -/
theorem editChecked_eq (op : Operation) (f : SourceFile) : op.editChecked f = .ok (op.edit f) := by
  cases op with
  | addMixin name => exact onFirstClassChecked_eq (fun c => ClassDecl.addUnlessChecked_eq _ _ c) f
  | removeMixin name => exact onFirstClassChecked_eq (ClassDecl.removeMixinChecked_eq name) f
  | addImport path localName => exact addImportChecked_eq path localName f
  | removeImport path => exact removeImportChecked_eq path f
  | addField s => exact onFirstClassChecked_eq (fun c => ClassDecl.addUnlessChecked_eq _ _ c) f
  | removeField name => exact onFirstClassChecked_eq (ClassDecl.removeFieldChecked_eq name) f
  | changeField s => exact onFirstClassChecked_eq (ClassDecl.changeFieldChecked_eq s) f
  | extendField name additions =>
      exact onFirstClassChecked_eq (ClassDecl.extendFieldChecked_eq name additions) f
  | addRoutine s => exact onFirstClassChecked_eq (ClassDecl.addRoutineChecked_eq s) f
  | changeRoutine change =>
      exact onFirstClassChecked_eq (ClassDecl.changeRoutineChecked_eq change) f
  | removeRoutine name => exact onFirstClassChecked_eq (ClassDecl.removeRoutineChecked_eq name) f
  | addConstant name value visibility =>
      exact onFirstClassChecked_eq (fun c => ClassDecl.addUnlessChecked_eq _ _ c) f
  | changeConstant name value visibility =>
    exact onFirstClassChecked_eq (ClassDecl.changeConstantChecked_eq name value visibility) f
  | removeConstant name => exact onFirstClassChecked_eq (ClassDecl.removeConstantChecked_eq name) f
  | renameClass name => exact onFirstClassChecked_eq (fun _ => rfl) f
  | extendClass parent => exact onFirstClassChecked_eq (fun _ => rfl) f
  | implementInterface interface => exact onFirstClassChecked_eq (fun _ => rfl) f
  | changeNamespace name => rfl
  | addNamespace name => exact addNamespaceChecked_eq name f

/-- No operation goes to a place outside of a list or misses what it found, whatever the file is:
every place that is looked for in a class or among statements is there, and so is the namespace
that takes an import. -/
theorem applyChecked_eq (op : Operation) (f : SourceFile) : op.applyChecked f = .ok (op.apply f) ∧
    (∀ c : ClassDecl, c.PlacesHold) ∧ (∀ stmts : List Stmt, Stmt.PlacesHold stmts) ∧
      ∀ i, f.importNamespace? = some i → ∃ n, f.stmts[i]? = some (.namespace_ n) := by
  refine ⟨?_, ClassDecl.placesHold, Stmt.placesHold, fun i hplace => ?_⟩
  swap
  · rcases importScope_cases f with ⟨hnone, -, -⟩ | ⟨i, n, hsome, hn, -⟩
    · cases hnone.symm.trans hplace
    · cases hsome.symm.trans hplace
      exact ⟨n, hn⟩
  rw [applyChecked, editChecked_eq]
  rfl

end Operation

end ClassEdit
