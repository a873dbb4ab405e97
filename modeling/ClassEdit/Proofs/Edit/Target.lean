import ClassEdit.Proofs.Edit.DistinctNames
import ClassEdit.Proofs.Edit.Splitting

/-!
What operations leave alone. An operation on a class fills the place of the first class with the
edited one, and of its members all but the one that it is meant for stay as they are; only what
follows a member that comes or goes may get another gap. The operations on imports and namespaces
leave all classes as they are.
-/

namespace ClassEdit

namespace Stmt

/-- A statement without the class that it is or holds directly. -/
inductive Hole where
  | itself
  | inside (n : NamespaceDecl) (front back : List Stmt)

def Hole.fill : Hole → ClassDecl → Stmt
  | itself, c => .class_ c
  | inside n front back, c => .namespace_ { n with stmts := front ++ .class_ c :: back }

def Hole.Leads : Hole → Prop
  | itself => True
  | inside _ front _ => ∀ s ∈ front, s.class? = none

namespace Hole.Leads

variable {hole : Hole}

theorem firstClass?_fill (h : hole.Leads) (c : ClassDecl) : (hole.fill c).firstClass? = some c := by
  cases hole with
  | itself => rfl
  | inside n front back => exact findSome?_behind h _ _ rfl

theorem editFirstClass?_fill (h : hole.Leads) {edit : Edit ClassDecl} {c c' : ClassDecl}
    (hedit : edit c = .ok c') :
    editFirstClass? edit (hole.fill c) = some (.ok (hole.fill c')) := by
  cases hole with
  | itself => simp [editFirstClass?, fill, hedit, Except.map]
  | inside n front back =>
    have hholds : (front ++ .class_ c :: back).any (·.class?.isSome) = true := by simp [class?]
    simp only [editFirstClass?, fill, hholds, if_true]
    rw [Edit.atFirst_behind (y := .class_ c') (fun s hs => by simp [h s hs]) back]
    · rfl
    · simp [class?, hedit, Except.map]

end Hole.Leads

/-- The first class of a statement fills a hole that it can be put back into. -/
theorem exists_leads {s : Stmt} {c : ClassDecl} (h : s.firstClass? = some c) :
    ∃ hole : Hole, s = hole.fill c ∧ hole.Leads := by
  cases s with
  | class_ d =>
    cases h
    exact ⟨.itself, rfl, trivial⟩
  | namespace_ n =>
    obtain ⟨front, s, back, hn, hs, hfront⟩ := List.findSome?_eq_some_iff.1 h
    obtain rfl := eq_class hs
    exact ⟨.inside n front back, by rw [Hole.fill, ← hn, n.eta], hfront⟩
  | _ => cases h

end Stmt

namespace SourceFile

/-- A file without a class that stands among its statements or in a namespace. -/
structure Hole where
  file : SourceFile
  front : List Stmt
  stmt : Stmt.Hole
  back : List Stmt

namespace Hole

def fill (hole : Hole) (c : ClassDecl) : SourceFile :=
  { hole.file with stmts := hole.front ++ hole.stmt.fill c :: hole.back }

/-- The hole is where the first class is looked for. -/
def IsFirst (hole : Hole) : Prop :=
  ∀ c, (hole.fill c).firstClass = some c

/-- No class stands before the hole. -/
structure Leads (hole : Hole) : Prop where
  front : ∀ s ∈ hole.front, s.firstClass? = none
  stmt : hole.stmt.Leads

namespace Leads

variable {hole : Hole}

theorem isFirst (h : hole.Leads) : hole.IsFirst :=
  fun c => findSome?_behind h.front _ _ (h.stmt.firstClass?_fill c)

/-- An edit of the first class fills the hole with the edited one. -/
theorem onFirstClass_fill (h : hole.Leads) {edit : Edit ClassDecl} {c c' : ClassDecl}
    (hedit : edit c = .ok c') :
    onFirstClass edit (hole.fill c) = .ok (hole.fill c') := by
  have hfront : ∀ s ∈ hole.front, Stmt.editFirstClass? edit s = none :=
    fun s hs => Stmt.editFirstClass?_eq_none_iff.2 (h.front s hs)
  rw [onFirstClass, fill, Edit.atFirst_behind hfront _ (h.stmt.editFirstClass?_fill hedit)]
  rfl

end Leads

end Hole

theorem exists_leads {f : SourceFile} {c : ClassDecl} (h : f.firstClass = some c) :
    ∃ hole : Hole, f = hole.fill c ∧ hole.Leads := by
  obtain ⟨front, s, back, hf, hs, hfront⟩ := List.findSome?_eq_some_iff.1 h
  obtain ⟨hole, rfl, hleads⟩ := Stmt.exists_leads hs
  exact ⟨⟨f, front, hole, back⟩, by rw [Hole.fill, ← hf], hfront, hleads⟩

theorem onFirstClass_hole {edit : Edit ClassDecl} {f f' : SourceFile}
    (h : onFirstClass edit f = .ok f') :
    ∃ (hole : Hole) (c c' : ClassDecl), edit c = .ok c' ∧ f = hole.fill c ∧
      f' = hole.fill c' ∧ hole.Leads := by
  obtain ⟨c, c', hc, hfirst, -, -⟩ := onFirstClass_eq_ok h
  obtain ⟨hole, rfl, hleads⟩ := exists_leads hfirst
  rw [hleads.onFirstClass_fill hc] at h
  cases h
  exact ⟨hole, c, c', hc, rfl, rfl, hleads⟩

end SourceFile

/-- What becomes of the members of a class if one is meant by the test, or none. The first that is
meant goes or is replaced; if there is none, a member may come in. -/
inductive MembersTouched (target : Member → Bool) : List MemberStmt → List MemberStmt → Prop where
  | put {front back back' : List MemberStmt} (m : MemberStmt)
      (hnone : ∀ m ∈ front ++ back, target m.member = false) (hback : Respaced back back') :
      MembersTouched target (front ++ back) (front ++ m :: back')
  | drop {front back back' : List MemberStmt} {m : MemberStmt}
      (hfront : ∀ m ∈ front, target m.member = false) (hm : target m.member = true)
      (hback : Respaced back back') :
      MembersTouched target (front ++ m :: back) (front ++ back')
  | replace {front back : List MemberStmt} {m : MemberStmt} (m' : MemberStmt)
      (hfront : ∀ m ∈ front, target m.member = false) (hm : target m.member = true) :
      MembersTouched target (front ++ m :: back) (front ++ m' :: back)

namespace ClassDecl

/-- Of the class only members have changed, and of these only the one that is meant. -/
def TouchedAt (target : Member → Bool) (c c' : ClassDecl) : Prop :=
  ∃ ms, MembersTouched target c.members ms ∧ c' = { c with members := ms }

section Members

variable {c c' : ClassDecl} {target : Member → Bool} {front back : List MemberStmt} {m : MemberStmt}

theorem mapMember_split (hc : c.members = front ++ m :: back) (f : Member → Member) :
    c.mapMember front.length f =
      { c with members := front ++ { m with member := f m.member } :: back } := by
  rw [mapMember, hc, modify_append_cons]

theorem touchedAt_modify (hc : c.members = front ++ m :: back)
    (hfront : ∀ m ∈ front, target m.member = false) (hm : target m.member = true)
    (f : MemberStmt → MemberStmt) :
    c.TouchedAt target { c with members := c.members.modify front.length f } := by
  refine ⟨_, ?_, rfl⟩
  rw [hc, modify_append_cons]
  exact .replace (f m) hfront hm

theorem touchedAt_removeSpaced (hc : c.members = front ++ m :: back)
    (hfront : ∀ m ∈ front, target m.member = false) (hm : target m.member = true) :
    c.TouchedAt target { c with members := removeSpaced c.members front.length } := by
  obtain ⟨back', hremoved, hback⟩ := removeSpaced_split front m back
  refine ⟨_, ?_, rfl⟩
  rw [hc, hremoved]
  exact .drop hfront hm hback

theorem touchedAt_removeItem (hc : c.members = front ++ m :: back)
    (hfront : ∀ m ∈ front, target m.member = false) (hm : target m.member = true) (j : Nat) :
    c.TouchedAt target (c.removeItem (front.length, j)) := by
  unfold removeItem
  split
  · exact touchedAt_modify hc hfront hm _
  · exact touchedAt_removeSpaced hc hfront hm

variable {f : MemberStmt → Option Nat}

theorem touchedAt_of_addUnless {m : Member} (hf : ∀ m, (f m).isSome = target m.member)
    (h : addUnless (findIn f c.members) m c = .ok c') : c.TouchedAt target c' := by
  obtain ⟨hnone, rfl⟩ := addUnless_eq_ok h
  obtain ⟨front, back, back', hc, hnew, hback⟩ :=
    insertSpaced_eq (memberPosition_le c.members m.category) (.made m)
  refine ⟨_, ?_, rfl⟩
  rw [hnew, hc]
  refine .put _ (fun x hx => ?_) hback
  rw [← hf, findIn_eq_none hnone x (hc ▸ hx)]
  rfl

/-- What is done at the place of the first member that is meant touches no other. -/
theorem touchedAt_of_atPlace {g : Nat × Nat → ClassDecl} (hf : ∀ m, (f m).isSome = target m.member)
    (hg : ∀ {front m back} (j : Nat), c.members = front ++ m :: back →
      (∀ m ∈ front, target m.member = false) → target m.member = true →
        c.TouchedAt target (g (front.length, j)))
    (h : atPlace (findIn f c.members) g = .ok c') : c.TouchedAt target c' := by
  obtain ⟨⟨i, j⟩, hplace, rfl⟩ := atPlace_eq_ok h
  obtain ⟨front, m, back, hc, rfl, hm, hfront⟩ := findIn_eq_some_split hplace
  refine hg j hc (fun x hx => ?_) ?_
  · rw [← hf, hfront x hx]
    rfl
  · rw [← hf, hm]
    rfl

theorem touchedAt_of_mapMember {g : Nat → Member → Member}
    (hf : ∀ m, (f m).isSome = target m.member)
    (h : atPlace (findIn f c.members) (fun (i, j) => c.mapMember i (g j)) = .ok c') :
    c.TouchedAt target c' :=
  touchedAt_of_atPlace hf (fun _ hc hfront hm => touchedAt_modify hc hfront hm _) h

theorem touchedAt_of_removeItem (hf : ∀ m, (f m).isSome = target m.member)
    (h : atPlace (findIn f c.members) c.removeItem = .ok c') : c.TouchedAt target c' :=
  touchedAt_of_atPlace hf (fun j hc hfront hm => touchedAt_removeItem hc hfront hm j) h

end Members

section Routines

variable {c c' : ClassDecl} {name : String}

theorem touchedAt_of_findRoutine {g : Nat → ClassDecl}
    (hg : ∀ {front m back}, c.members = front ++ m :: back →
      (∀ m ∈ front, m.member.isRoutine name = false) →
      m.member.isRoutine name = true → c.TouchedAt (Member.isRoutine name) (g front.length))
    (h : atPlace (c.findRoutine name) g = .ok c') : c.TouchedAt (Member.isRoutine name) c' := by
  obtain ⟨i, hplace, rfl⟩ := atPlace_eq_ok h
  obtain ⟨front, m, back, hc, rfl, hm, hfront⟩ := findIdx?_eq_some_split hplace
  exact hg hc hfront hm

/-- A routine that is added touches nothing but a routine of its name. -/
theorem touchedAt_of_addRoutine {s : RoutineSpec} (h : addRoutine s c = .ok c') :
    c.TouchedAt (Member.isRoutine s.name) c' := by
  unfold addRoutine at h
  split at h
  next i hi =>
    split at h
    next =>
      cases h
      obtain ⟨front, m, back, hc, rfl, hm, hfront⟩ := findIdx?_eq_some_split hi
      exact touchedAt_modify hc hfront hm _
    next => cases h
  next hnone =>
    cases h
    refine ⟨_, ?_, rfl⟩
    have hput : MembersTouched (Member.isRoutine s.name) (c.members ++ [])
        (c.members ++ [.made (.routine s.toRoutine)]) :=
      .put _ (by simpa using List.findIdx?_eq_none_iff.1 hnone) (.inl rfl)
    rwa [List.append_nil] at hput

end Routines

end ClassDecl

namespace Operation

/-- The members that an operation on members is meant for: those with the name that it is about. -/
def target? : Operation → Option (Member → Bool)
  | addMixin name | removeMixin name => some fun m => (m.mixinIdx? name).isSome
  | addField spec | changeField spec => some fun m => (m.fieldIdx? spec.name).isSome
  | removeField name | extendField name _ => some fun m => (m.fieldIdx? name).isSome
  | addConstant name .. | changeConstant name .. | removeConstant name =>
    some fun m => (m.constantIdx? name).isSome
  | addRoutine spec => some (Member.isRoutine spec.name)
  | changeRoutine change => some (Member.isRoutine change.name)
  | removeRoutine name => some (Member.isRoutine name)
  | renameClass _ | extendClass _ | implementInterface _ => none
  | addImport .. | removeImport _ | changeNamespace _ | addNamespace _ => none

/-- What an operation changes of the first class: its name, its parent, its interfaces, or a member
that it is meant for. -/
inductive TouchesClass : Operation → ClassDecl → ClassDecl → Prop where
  | name (c : ClassDecl) (name : String) : TouchesClass (renameClass name) c { c with name }
  | parent (c : ClassDecl) (parent : String) :
      TouchesClass (extendClass parent) c { c with parent := some parent }
  | interfaces (c : ClassDecl) (interface : String) :
      TouchesClass (implementInterface interface) c
        { c with interfaces := c.interfaces ++ [interface] }
  | members {op : Operation} {target : Member → Bool} {c c' : ClassDecl}
      (hop : op.target? = some target) (h : c.TouchedAt target c') : TouchesClass op c c'

open ClassDecl

/-- An operation on a class touches nothing but its target. -/
theorem touchesClass_of_edit {op : Operation} {edit : Edit ClassDecl} {c c' : ClassDecl}
    (hop : op.classEdit? = some edit) (h : edit c = .ok c') : TouchesClass op c c' := by
  cases op <;> cases hop
  case addMixin name => exact .members rfl (touchedAt_of_addUnless (fun _ => rfl) h)
  case removeMixin name => exact .members rfl (touchedAt_of_removeItem (fun _ => rfl) h)
  case addField spec => exact .members rfl (touchedAt_of_addUnless (fun _ => rfl) h)
  case removeField name => exact .members rfl (touchedAt_of_removeItem (fun _ => rfl) h)
  case changeField spec =>
    exact .members rfl
      (touchedAt_of_mapMember (g := fun j => .mapFields (.change spec j)) (fun _ => rfl) h)
  case extendField name additions =>
    exact .members rfl (touchedAt_of_mapMember (g := fun j => .mapFields (.extend additions j))
      (fun _ => rfl) h)
  case addRoutine spec => exact .members rfl (touchedAt_of_addRoutine h)
  case changeRoutine change =>
    exact .members rfl
      (touchedAt_of_findRoutine (fun hc hfront hm => touchedAt_modify hc hfront hm _) h)
  case removeRoutine name => exact .members rfl (touchedAt_of_findRoutine touchedAt_removeSpaced h)
  case addConstant name value visibility =>
    exact .members rfl (touchedAt_of_addUnless (fun _ => rfl) h)
  case changeConstant name value visibility =>
    exact .members rfl
      (touchedAt_of_mapMember (g := fun j => .mapConstants (.change value visibility j))
      (fun _ => rfl) h)
  case removeConstant name => exact .members rfl (touchedAt_of_removeItem (fun _ => rfl) h)
  case renameClass name =>
    cases h
    exact .name c name
  case extendClass parent =>
    unfold extend at h
    split at h <;> cases h
    exact .parent c parent
  case implementInterface interface =>
    unfold implement at h
    split at h <;> cases h
    exact .interfaces c interface

end Operation

def ClassDecl.unspaced (c : ClassDecl) : ClassDecl :=
  { c with trivia := { c.trivia with blankBefore := none } }

namespace Stmt

mutual

/-- The classes in a statement and in the namespaces in it, at any depth and in order. -/
def classes : Stmt → List ClassDecl
  | .class_ c => [c]
  | .namespace_ n => namespaceClasses n
  | _ => []

def namespaceClasses : NamespaceDecl → List ClassDecl
  | ⟨_, _, _, stmts, _⟩ => listClasses stmts

def listClasses : List Stmt → List ClassDecl
  | [] => []
  | s :: ss => classes s ++ listClasses ss

end

theorem listClasses_eq (ss : List Stmt) : listClasses ss = ss.flatMap classes := by
  induction ss with
  | nil => rfl
  | cons s ss ih => rw [listClasses, ih, List.flatMap_cons]

theorem classes_namespace (n : NamespaceDecl) :
    (namespace_ n).classes = n.stmts.flatMap classes := by
  cases n
  exact listClasses_eq _

def unspacedClasses (s : Stmt) : List ClassDecl :=
  s.classes.map ClassDecl.unspaced

theorem unspacedClasses_namespace (n : NamespaceDecl) :
    (namespace_ n).unspacedClasses = n.stmts.flatMap unspacedClasses := by
  rw [unspacedClasses, classes_namespace, List.map_flatMap]
  rfl

theorem unspacedClasses_mapTrivia (gap : Trivia → Option Bool) (s : Stmt) :
    unspacedClasses (Spaced.mapTrivia (fun t => { t with blankBefore := gap t }) s) =
      s.unspacedClasses := by
  cases s with
  | namespace_ n =>
    rw [unspacedClasses_namespace]
    exact unspacedClasses_namespace _
  | _ => rfl

theorem flatMap_unspacedClasses_respaced {ss ss' : List Stmt} (h : Respaced ss ss') :
    ss'.flatMap unspacedClasses = ss.flatMap unspacedClasses := by
  rcases h with rfl | ⟨gap, rfl⟩
  · rfl
  · cases ss <;> simp [unspacedClasses_mapTrivia]

theorem flatMap_unspacedClasses_importInto {path : String} {localName : Option String}
    {ss ss' : List Stmt} (h : SourceFile.importInto path localName ss = .ok ss') :
    ss'.flatMap unspacedClasses = ss.flatMap unspacedClasses := by
  obtain rfl := SourceFile.importInto_eq_ok h
  obtain ⟨front, back, back', hss, hnew, hback⟩ :=
    insertSpaced_eq (importPosition_le ss) (.import_ (.single (bareName path) localName))
  rw [hnew, List.flatMap_append, List.flatMap_cons, flatMap_unspacedClasses_respaced hback]
  conv => rhs; rw [hss]
  simp [unspacedClasses, classes]

/-- The classes stay, whatever import is removed. -/
theorem flatMap_unspacedClasses_removeImportFrom {path : String} {ss ss' : List Stmt}
    (h : SourceFile.removeImportFrom path ss = .ok ss') :
    ss'.flatMap unspacedClasses = ss.flatMap unspacedClasses := by
  obtain ⟨i, decl, hi, ⟨-, rfl⟩ | ⟨j, -, rfl⟩⟩ := SourceFile.removeImportFrom_eq_ok h
  · obtain ⟨hlt, hget⟩ := List.getElem?_eq_some_iff.1 hi
    obtain ⟨front, back, back', hss, hnew, hback⟩ := removeSpaced_eq hlt
    rw [hnew, List.flatMap_append, flatMap_unspacedClasses_respaced hback]
    conv => rhs; rw [hss, hget]
    simp [unspacedClasses, classes]
  · obtain ⟨front, back, hss, hnew⟩ :=
      splices_set hi (.import_ { decl with items := decl.items.eraseIdx j })
    rw [hnew]
    conv => rhs; rw [hss]
    simp [unspacedClasses, classes]

end Stmt

namespace SourceFile

def classes (f : SourceFile) : List ClassDecl :=
  f.stmts.flatMap Stmt.classes

theorem map_unspaced_classes (f : SourceFile) :
    f.classes.map ClassDecl.unspaced = f.stmts.flatMap Stmt.unspacedClasses := by
  rw [classes, List.map_flatMap]
  rfl

variable {f f' : SourceFile}

theorem Scoped.unspaced_classes_eq {R : List Stmt → List Stmt → Prop} (h : Scoped R f f')
    (hR : ∀ {ss ss'}, R ss ss' → ss'.flatMap Stmt.unspacedClasses =
      ss.flatMap Stmt.unspacedClasses) :
    f'.classes.map ClassDecl.unspaced = f.classes.map ClassDecl.unspaced := by
  rw [map_unspaced_classes, map_unspaced_classes]
  cases h with
  | own f h => exact hR h
  | inside f front n back h =>
    simp only [List.flatMap_append, List.flatMap_cons, Stmt.unspacedClasses_namespace, hR h]

theorem changeNamespace_classes {name : String} (h : changeNamespace name f = .ok f') :
    f'.classes = f.classes := by
  obtain ⟨front, n, back, hf, rfl⟩ := changeNamespace_eq_ok h
  simp only [classes, hf, List.flatMap_append, List.flatMap_cons, Stmt.classes_namespace]

/-- The first statement of a new namespace gets a gap before it. -/
theorem addNamespace_unspaced_classes {name : String} (h : addNamespace name f = .ok f') :
    f'.classes.map ClassDecl.unspaced = f.classes.map ClassDecl.unspaced := by
  unfold addNamespace at h
  split at h
  next => cases h
  next =>
    cases h
    have hgap : Respaced (f.stmts.drop (leadingDeclares f.stmts)) _ :=
      .inr ⟨fun _ => some true, rfl⟩
    simp only [map_unspaced_classes, List.flatMap_append, List.flatMap_cons, List.flatMap_nil,
      List.append_nil, Stmt.unspacedClasses_namespace]
    rw [Stmt.flatMap_unspacedClasses_respaced hgap, ← List.flatMap_append, List.take_append_drop]

end SourceFile

namespace Operation

theorem unspaced_classes_of_edit {op : Operation} {f f' : SourceFile} (hop : op.classEdit? = none)
    (h : op.edit f = .ok f') :
    f'.classes.map ClassDecl.unspaced = f.classes.map ClassDecl.unspaced := by
  cases op <;> cases hop
  case addImport path localName =>
    exact (SourceFile.addImport_eq_ok h).unspaced_classes_eq Stmt.flatMap_unspacedClasses_importInto
  case removeImport path =>
    exact (SourceFile.removeImport_eq_ok h).unspaced_classes_eq
      Stmt.flatMap_unspacedClasses_removeImportFrom
  case changeNamespace name => rw [SourceFile.changeNamespace_classes h]
  case addNamespace name => exact SourceFile.addNamespace_unspaced_classes h

/-- What an operation does to a file as far as it touches it. An operation on a class fills the hole
of the first class; any other leaves the classes as they are, but for the gaps before them. -/
structure Touches (op : Operation) (f f' : SourceFile) : Prop where
  onClass : op.classEdit?.isSome → ∃ (hole : SourceFile.Hole) (c c' : ClassDecl),
    f = hole.fill c ∧ f' = hole.fill c' ∧ hole.IsFirst ∧ op.TouchesClass c c'
  onScope : op.classEdit? = none → f'.classes.map ClassDecl.unspaced =
    f.classes.map ClassDecl.unspaced

theorem touches_of_edit {op : Operation} {f f' : SourceFile} (h : op.edit f = .ok f') :
    Touches op f f' := by
  refine ⟨fun hop => ?_, fun hop => unspaced_classes_of_edit hop h⟩
  obtain ⟨edit, hedit⟩ := Option.isSome_iff_exists.1 hop
  rw [edit_of_classEdit? hedit] at h
  obtain ⟨hole, c, c', hc, hf, hf', hleads⟩ := SourceFile.onFirstClass_hole h
  exact ⟨hole, c, c', hf, hf', hleads.isFirst, touchesClass_of_edit hedit hc⟩

/-- An operation that is skipped changes nothing, and one that applies changes nothing but
what it is meant for. -/
theorem apply_eq_or_touches (op : Operation) (f : SourceFile) :
    (∀ reason, (op.apply f).2 = .skipped reason → (op.apply f).1 = f) ∧
      ((op.apply f).2 = .applied → Touches op f (op.apply f).1) := by
  refine ⟨fun _ h => Edit.apply_of_skipped h, fun h => ?_⟩
  unfold apply Edit.apply at h ⊢
  split
  next f' hf' => exact touches_of_edit hf'
  next _ herror => rw [herror] at h; cases h

end Operation

end ClassEdit
