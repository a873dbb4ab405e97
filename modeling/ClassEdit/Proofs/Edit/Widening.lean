import ClassEdit.Proofs.Class.Normalization
import ClassEdit.Proofs.Edit.Building
import ClassEdit.Proofs.File.Widening
import Mathlib.Data.List.InsertIdx

/-!
Edits of files that differ in the spelling of their values alone. An edit finds what it looks for by
names, and the values it puts in are made and not spelled; only the extension of a collection looks
into a value that was read. Main statement: any other operation does the same to a file that was
read with carriage returns as to the one without them.
-/

namespace ClassEdit

section Lists

variable {α β : Type}

theorem map_modify {h : α → β} {g : α → α} {g' : β → β} (hg : ∀ x, g' (h x) = h (g x))
    (xs : List α) (i : Nat) :
    (xs.map h).modify i g' = (xs.modify i g).map h := by
  induction xs generalizing i with
  | nil => simp
  | cons x xs ih => cases i <;> simp [hg, ih]

theorem lastIdx?_map (p : β → Bool) (h : α → β) (xs : List α) :
    lastIdx? p (xs.map h) = lastIdx? (p ∘ h) xs := by
  induction xs with
  | nil => rfl
  | cons x xs ih => rw [List.map_cons, lastIdx?, lastIdx?, ih]; rfl

theorem findIn_map (f : β → Option Nat) (h : α → β) (xs : List α) :
    findIn f (xs.map h) = findIn (f ∘ h) xs := by
  induction xs with
  | nil => rfl
  | cons x xs ih => rw [List.map_cons, findIn, findIn, ih]; rfl

variable [Spaced α] {h : α → α}

theorem insertSpaced_map (hmap : ∀ f x, Spaced.mapTrivia f (h x) = h (Spaced.mapTrivia f x))
    (xs : List α) (i : Nat) (x : α) :
    insertSpaced (xs.map h) i (h x) = (insertSpaced xs i x).map h := by
  unfold insertSpaced
  split
  next => simp only [List.modifyHead_eq_modify_zero, map_modify (hmap _), List.map_insertIdx]
  next => rw [List.map_insertIdx]

theorem removeSpaced_map (hmap : ∀ f x, Spaced.mapTrivia f (h x) = h (Spaced.mapTrivia f x))
    (htrivia : ∀ x, Spaced.trivia? (h x) = Spaced.trivia? x) (xs : List α) (i : Nat) :
    removeSpaced (xs.map h) i = (removeSpaced xs i).map h := by
  have hgap : ((xs.map h)[i]?.bind Spaced.trivia?) = xs[i]?.bind Spaced.trivia? := by
    rw [List.getElem?_map, Option.bind_map, Function.comp_def]
    simp only [htrivia]
  rw [removeSpaced, removeSpaced, hgap, List.eraseIdx_map, map_modify (hmap _)]

end Lists

namespace Edit

variable {α : Type} {g : α → α} {edit : Edit α}

/-- The edit does the same to what the function makes of a value as to the value. -/
def Commutes (g : α → α) (edit : Edit α) : Prop :=
  ∀ x, edit (g x) = (edit x).map g

theorem Commutes.apply (h : Commutes g edit) (x : α) :
    edit.apply (g x) = (g (edit.apply x).1, (edit.apply x).2) := by
  unfold Edit.apply
  rw [h x]
  cases edit x <;> rfl

/-- What is put in unless it is there. -/
theorem Commutes.unless {test : α → Bool} {reason : SkipReason} {f : α → α}
    (htest : ∀ x, test (g x) = test x) (hf : ∀ x, f (g x) = g (f x)) :
    Commutes g fun x => if test x then .error reason else .ok (f x) := by
  intro x
  simp only [htest, hf]
  cases test x <;> rfl

theorem Commutes.atFirst {f : α → Option (Except SkipReason α)}
    (h : ∀ x, f (g x) = (f x).map (·.map g)) :
    Commutes (List.map g) (Edit.atFirst f) := by
  intro xs
  induction xs with
  | nil => rfl
  | cons x xs ih =>
      rw [List.map_cons, Edit.atFirst, Edit.atFirst, h, ih]
      cases f x with
      | none => cases Edit.atFirst f xs <;> rfl
      | some result => cases result <;> rfl

end Edit

section Members

variable {f : Expr → Expr}

namespace Member

theorem mixinIdx?_mapValues (name : String) (m : Member) :
    (m.mapValues f).mixinIdx? name = m.mixinIdx? name := by
  cases m <;> rfl

theorem constantIdx?_mapValues (name : String) (m : Member) :
    (m.mapValues f).constantIdx? name = m.constantIdx? name := by
  cases m with
  | constants g => exact List.findIdx?_map
  | _ => rfl

theorem fieldIdx?_mapValues (name : String) (m : Member) :
    (m.mapValues f).fieldIdx? name = m.fieldIdx? name := by
  cases m with
  | fields g => exact List.findIdx?_map
  | _ => rfl

theorem isRoutine_mapValues (name : String) (m : Member) :
    (m.mapValues f).isRoutine name = m.isRoutine name := by
  cases m <;> rfl

theorem itemCount_mapValues (m : Member) : (m.mapValues f).itemCount = m.itemCount := by
  cases m with
  | constants g => exact List.length_map _
  | fields g => exact List.length_map _
  | _ => rfl

theorem eraseItem_mapValues (j : Nat) (m : Member) :
    (m.mapValues f).eraseItem j = (m.eraseItem j).mapValues f := by
  cases m with
  | constants g => simp [mapValues, eraseItem, ConstantGroup.mapValues, List.eraseIdx_map]
  | fields g => simp [mapValues, eraseItem, FieldGroup.mapValues, List.eraseIdx_map]
  | _ => rfl

end Member

variable (hf : ∀ v, f (.ofValue v) = .ofValue v)
include hf

theorem ParamSpec.mapValue_toParam (p : ParamSpec) : p.toParam.mapValue f = p.toParam := by
  simp only [Param.mapValue, toParam, Option.map_map, Function.comp_def, hf]

theorem RoutineSpec.mapValues_toRoutine (s : RoutineSpec) :
    s.toRoutine.mapValues f = s.toRoutine := by
  simp only [Routine.mapValues, toRoutine, List.map_map, Function.comp_def,
    ParamSpec.mapValue_toParam hf]

theorem Routine.change_mapValues (c : RoutineChange) (r : Routine) :
    (r.mapValues f).change c = (r.change c).mapValues f := by
  have hparams (params : List ParamSpec) : (r.mapValues f).withParams params =
      (r.withParams params).mapValues f := by
    simp only [mapValues, withParams, List.map_map, Function.comp_def,
      ParamSpec.mapValue_toParam hf]
  obtain ⟨name, params, body, visibility⟩ := c
  cases params <;> cases body <;> cases visibility <;> simp only [change, Option.elim, hparams] <;>
    rfl

/-- A change puts in a made value or keeps one that was read, so it does not matter
when these are mapped. -/
theorem FieldGroup.change_mapValues (s : FieldSpec) (j : Nat) (g : FieldGroup) :
    (g.mapValues f).change s j = (g.change s j).mapValues f := by
  have hitems (d : Value) :
      (g.items.map (·.mapValue f)).modify j
        (fun field => { field with default := some (.ofValue d) }) =
        (g.items.modify j fun field => { field with default := some (.ofValue d) }).map
          (·.mapValue f) :=
    map_modify (fun field => by simp [Field.mapValue, hf]) _ _
  obtain ⟨name, default, visibility, type⟩ := s
  cases default with
  | none => cases visibility <;> cases type <;> rfl
  | some d => cases visibility <;> cases type <;>
      simp only [change, Option.elim, mapValues, hitems]

theorem ConstantGroup.change_mapValues (value : Option Value)
    (visibility : Option Visibility) (j : Nat) (g : ConstantGroup) :
    (g.mapValues f).change value visibility j = (g.change value visibility j).mapValues f := by
  have hitems (v : Value) :
      (g.items.map (·.mapValue f)).modify j (fun c => { c with value := .ofValue v }) =
        (g.items.modify j fun c => { c with value := .ofValue v }).map (·.mapValue f) :=
    map_modify (fun c => by simp [Constant.mapValue, hf]) _ _
  cases value with
  | none => cases visibility <;> rfl
  | some v => cases visibility <;> simp only [change, Option.elim, mapValues, hitems]

end Members

namespace ClassDecl

open Edit (Commutes)

variable {f : Expr → Expr}

theorem findMixin_mapValues (name : String) (c : ClassDecl) :
    (c.mapValues f).findMixin name = c.findMixin name := by
  rw [findMixin, mapValues, findIn_map, findMixin]
  exact congrArg (findIn · c.members) (funext fun m => m.member.mixinIdx?_mapValues name)

theorem findConstant_mapValues (name : String) (c : ClassDecl) :
    (c.mapValues f).findConstant name = c.findConstant name := by
  rw [findConstant, mapValues, findIn_map, findConstant]
  exact congrArg (findIn · c.members) (funext fun m => m.member.constantIdx?_mapValues name)

theorem findField_mapValues (name : String) (c : ClassDecl) :
    (c.mapValues f).findField name = c.findField name := by
  rw [findField, mapValues, findIn_map, findField]
  exact congrArg (findIn · c.members) (funext fun m => m.member.fieldIdx?_mapValues name)

theorem findRoutine_mapValues (name : String) (c : ClassDecl) :
    (c.mapValues f).findRoutine name = c.findRoutine name := by
  rw [findRoutine, mapValues, List.findIdx?_map, findRoutine]
  exact congrArg (List.findIdx? · c.members) (funext fun m => m.member.isRoutine_mapValues name)

theorem category_mapValues (m : MemberStmt) : (m.mapValues f).category = m.category :=
  m.member.category_mapValues f

theorem memberPosition_mapValues (members : List MemberStmt) (category : MemberCategory) :
    memberPosition (members.map (·.mapValues f)) category = memberPosition members category := by
  simp only [memberPosition, lastIdx?_map, List.findIdx?_map, Function.comp_def,
    category_mapValues, List.length_map]

theorem insertMember_mapValues {m : Member} (hm : m.mapValues f = m) (c : ClassDecl) :
    (c.mapValues f).insertMember m = (c.insertMember m).mapValues f := by
  have hmade : MemberStmt.made m = (MemberStmt.made m).mapValues f := by
    rw [MemberStmt.mapValues, MemberStmt.made, hm]
  simp only [insertMember, mapValues, memberPosition_mapValues]
  rw [hmade, insertSpaced_map (fun _ _ => rfl), ← hmade]

theorem mapMember_mapValues {g : Member → Member} (hg : ∀ m, g (m.mapValues f) = (g m).mapValues f)
    (c : ClassDecl) (i : Nat) : (c.mapValues f).mapMember i g = (c.mapMember i g).mapValues f := by
  have hmembers : (c.members.map (·.mapValues f)).modify i
      (fun m => { m with member := g m.member }) =
      (c.members.modify i fun m => { m with member := g m.member }).map (·.mapValues f) :=
    map_modify (fun m => by simp [MemberStmt.mapValues, hg]) _ _
  simp only [mapMember, mapValues, hmembers]

theorem removeSpaced_mapValues (members : List MemberStmt) (i : Nat) :
    removeSpaced (members.map (·.mapValues f)) i = (removeSpaced members i).map (·.mapValues f) :=
  removeSpaced_map (h := MemberStmt.mapValues f) (fun _ _ => rfl) (fun _ => rfl) members i

theorem removeItem_mapValues (c : ClassDecl) (place : Nat × Nat) :
    (c.mapValues f).removeItem place = (c.removeItem place).mapValues f := by
  have hcount : ((c.mapValues f).members[place.1]?.any (1 < ·.member.itemCount)) =
      c.members[place.1]?.any (1 < ·.member.itemCount) := by
    rw [mapValues, List.getElem?_map, Option.any_map]
    simp only [MemberStmt.mapValues, Member.itemCount_mapValues]
  unfold removeItem
  rw [hcount]
  split
  next => exact mapMember_mapValues (Member.eraseItem_mapValues place.2) c place.1
  next => simp only [mapValues, removeSpaced_mapValues]

theorem commutes_addUnless {β : Type} {find : ClassDecl → Option β}
    (hfind : ∀ c, find (c.mapValues f) = find c) {m : Member} (hm : m.mapValues f = m) :
    Commutes (mapValues f) fun c => addUnless (find c) m c :=
  .unless (fun c => by rw [hfind]) (insertMember_mapValues hm)

theorem commutes_atPlace {β : Type} {find : ClassDecl → Option β}
    (hfind : ∀ c, find (c.mapValues f) = find c) {g : ClassDecl → β → ClassDecl}
    (hg : ∀ c p, g (c.mapValues f) p = (g c p).mapValues f) :
    Commutes (mapValues f) fun c => atPlace (find c) (g c) := by
  intro c
  simp only [hfind]
  cases find c with
  | none => rfl
  | some p => exact congrArg Except.ok (hg c p)

theorem commutes_removeRoutine (name : String) : Commutes (mapValues f) (removeRoutine name) := by
  refine commutes_atPlace (findRoutine_mapValues name) fun c i => ?_
  simp only [mapValues, removeSpaced_mapValues]

variable (hf : ∀ v, f (.ofValue v) = .ofValue v)
include hf

theorem commutes_addField (s : FieldSpec) : Commutes (mapValues f) (addField s) := by
  refine commutes_addUnless (findField_mapValues s.name) ?_
  simp [Member.mapValues, FieldGroup.mapValues, Field.mapValue, Function.comp_def, hf]

theorem commutes_changeField (s : FieldSpec) : Commutes (mapValues f) (changeField s) := by
  refine commutes_atPlace (findField_mapValues s.name) fun c ⟨i, j⟩ =>
    mapMember_mapValues (fun m => ?_) c i
  cases m with
  | fields g => exact congrArg Member.fields (g.change_mapValues hf s j)
  | _ => rfl

theorem commutes_addConstant (name : String) (value : Value) (visibility : Option Visibility) :
    Commutes (mapValues f) (addConstant name value visibility) := by
  refine commutes_addUnless (findConstant_mapValues name) ?_
  simp [Member.mapValues, ConstantGroup.mapValues, Constant.mapValue, hf]

theorem commutes_changeConstant (name : String) (value : Option Value)
    (visibility : Option Visibility) :
    Commutes (mapValues f) (changeConstant name value visibility) := by
  refine commutes_atPlace (findConstant_mapValues name) fun c ⟨i, j⟩ =>
    mapMember_mapValues (fun m => ?_) c i
  cases m with
  | constants g => exact congrArg Member.constants (g.change_mapValues hf value visibility j)
  | _ => rfl

theorem commutes_changeRoutine (change : RoutineChange) :
    Commutes (mapValues f) (changeRoutine change) := by
  refine commutes_atPlace (findRoutine_mapValues change.name) fun c i =>
    mapMember_mapValues (fun m => ?_) c i
  cases m with
  | routine r => exact congrArg Member.routine (r.change_mapValues hf change)
  | _ => rfl

/-- A routine is looked for by its name, and what is added has made values alone. -/
theorem commutes_addRoutine (s : RoutineSpec) : Commutes (mapValues f) (addRoutine s) := by
  intro c
  have hroutine := s.mapValues_toRoutine hf
  unfold addRoutine
  rw [findRoutine_mapValues]
  cases c.findRoutine s.name with
  | none =>
      simp [Except.map, mapValues, MemberStmt.mapValues, MemberStmt.made,
        Member.mapValues, hroutine]
  | some i =>
      have hmembers :
          (c.members.map (·.mapValues f)).modify i (fun m =>
              ⟨{ Trivia.empty with blankBefore := m.trivia.blankBefore }, .routine s.toRoutine⟩) =
            (c.members.modify i fun m =>
              ⟨{ Trivia.empty with blankBefore := m.trivia.blankBefore }, .routine s.toRoutine⟩).map
                (·.mapValues f) :=
        map_modify (fun m => by simp [MemberStmt.mapValues, Member.mapValues, hroutine]) _ _
      cases s.overwrite with
      | true => simp [Except.map, mapValues, hmembers]
      | false => rfl

end ClassDecl

namespace Expr

mutual

/-- A value that was made has no spelling. -/
theorem widened_ofValue : (v : Value) → (ofValue v).widened = ofValue v
  | .null => rfl
  | .bool _ => rfl
  | .int _ => rfl
  | .float x => by
    rw [ofValue]
    split <;> rfl
  | .string _ => rfl
  | .list items => by
    rw [ofValue, widened, ArrayLiteral.ofItems, widenedArray, widenedItems_ofItems items]
  | .map entries => by
    rw [ofValue, widened, ArrayLiteral.ofItems, widenedArray, widenedItems_ofEntries entries]

theorem widenedItems_ofItems : (items : List Value) → widenedItems (ofItems items) = ofItems items
  | [] => rfl
  | v :: r => by
    rw [ofItems, widenedItems, ArrayItem.positional, widenedItem, widened_ofValue v,
      widenedItems_ofItems r]

theorem widenedItems_ofEntries :
    (entries : List (Key × Value)) → widenedItems (ofEntries entries) = ofEntries entries
  | [] => rfl
  | (.string k, v) :: r => by
    rw [ofEntries, widenedItems, ArrayItem.keyed, widenedItem, widened_ofValue v,
      widenedItems_ofEntries r]
    rfl
  | (.int _, v) :: r => by
    rw [ofEntries, widenedItems, ArrayItem.positional, widenedItem, widened_ofValue v,
      widenedItems_ofEntries r]

end

end Expr

namespace Stmt

theorem widened_namespace (n : NamespaceDecl) :
    (namespace_ n).widened = namespace_ { n with stmts := n.stmts.map widened } := by
  cases n
  rw [widened, widenedNamespace, widenedStmts_eq_map]

theorem class?_widened (s : Stmt) : s.widened.class? = s.class?.map ClassDecl.widened := by
  cases s <;> rfl

theorem namespace?_widened (s : Stmt) :
    s.widened.namespace? = s.namespace?.map fun n => { n with stmts := n.stmts.map widened } := by
  cases s with
  | namespace_ n => rw [widened_namespace]; rfl
  | _ => rfl

theorem isDeclare_widened (s : Stmt) : s.widened.isDeclare = s.isDeclare := by
  cases s <;> rfl

theorem mapTrivia_widened (f : Trivia → Trivia) (s : Stmt) :
    Spaced.mapTrivia f s.widened = Stmt.widened (Spaced.mapTrivia f s) := by
  cases s with
  | namespace_ n => cases n; rfl
  | _ => rfl

theorem any_class?_widened (ss : List Stmt) :
    (ss.map widened).any (·.class?.isSome) = ss.any (·.class?.isSome) := by
  simp only [List.any_map, Function.comp_def, class?_widened, Option.isSome_map]

theorem insertSpaced_widened (ss : List Stmt) (i : Nat) (s : Stmt) :
    insertSpaced (ss.map widened) i s.widened = (insertSpaced ss i s).map widened :=
  insertSpaced_map (h := widened) mapTrivia_widened ss i s

theorem removeSpaced_widened (ss : List Stmt) (i : Nat) :
    removeSpaced (ss.map widened) i = (removeSpaced ss i).map widened :=
  removeSpaced_map (h := widened) mapTrivia_widened trivia?_widened ss i

/-- The first class is the same with widened values. -/
theorem editFirstClass?_widened {edit : Edit ClassDecl} (h : Edit.Commutes ClassDecl.widened edit)
    (s : Stmt) :
    editFirstClass? edit s.widened = (editFirstClass? edit s).map (·.map widened) := by
  have hclass (c : ClassDecl) : (edit c.widened).map class_ =
      ((edit c).map class_).map widened := by
    rw [h c]
    cases edit c <;> rfl
  cases s with
  | class_ c => exact congrArg some (hclass c)
  | namespace_ n =>
      have hinner : Edit.Commutes (List.map widened)
          (Edit.atFirst fun s => s.class?.map fun c => (edit c).map class_) := by
        refine .atFirst fun s => ?_
        rw [class?_widened, Option.map_map, Option.map_map]
        exact congrArg (Option.map · s.class?) (funext hclass)
      simp only [widened_namespace, editFirstClass?, any_class?_widened, hinner n.stmts]
      split
      next =>
        refine congrArg some ?_
        cases Edit.atFirst (fun s => s.class?.map fun c => (edit c).map class_) n.stmts with
        | error => rfl
        | ok stmts => exact congrArg Except.ok (widened_namespace { n with stmts }).symm
      next => rfl
  | _ => rfl

theorem importsAs_widened (path : String) (localName : Option String) (s : Stmt) :
    s.widened.importsAs path localName = s.importsAs path localName := by
  rw [importsAs, importsAs, import?_widened]

theorem importedIdx?_widened (path : String) (s : Stmt) :
    s.widened.importedIdx? path = s.importedIdx? path := by
  rw [importedIdx?, importedIdx?, import?_widened]

theorem leadingDeclares_widened (ss : List Stmt) :
    leadingDeclares (ss.map widened) = leadingDeclares ss := by
  simp only [leadingDeclares, List.takeWhile_map, Function.comp_def, isDeclare_widened,
    List.length_map]

theorem importPosition_widened (ss : List Stmt) :
    importPosition (ss.map widened) = importPosition ss := by
  simp only [importPosition, lastIdx?_map, List.findIdx?_map, Function.comp_def, import?_widened,
    class?_widened, Option.isSome_map, leadingDeclares_widened]

theorem isNamespaceOfClass_widened (s : Stmt) :
    s.widened.isNamespaceOfClass = s.isNamespaceOfClass := by
  simp only [isNamespaceOfClass, namespace?_widened, Option.any_map, any_class?_widened]

end Stmt

namespace SourceFile

open Edit (Commutes)

/-- An edit of the statements of a file, which leaves the rest of it as it is. -/
theorem commutes_onStmts {edit : Edit (List Stmt)} (h : Commutes (List.map Stmt.widened) edit) :
    Commutes widened fun f => (edit f.stmts).map fun stmts => { f with stmts } := by
  intro f
  have hstmts : edit f.widened.stmts = (edit f.stmts).map (List.map Stmt.widened) := h f.stmts
  simp only [hstmts]
  cases edit f.stmts <;> rfl

theorem commutes_onFirstClass {edit : Edit ClassDecl} (h : Commutes ClassDecl.widened edit) :
    Commutes widened (onFirstClass edit) :=
  commutes_onStmts (.atFirst (Stmt.editFirstClass?_widened h))

theorem commutes_importInto (path : String) (localName : Option String) :
    Commutes (List.map Stmt.widened) (importInto path localName) := by
  refine .unless (fun ss => ?_) fun ss => ?_
  · simp only [List.any_map, Function.comp_def, Stmt.importsAs_widened]
  · rw [Stmt.importPosition_widened]
    exact Stmt.insertSpaced_widened ss _ (.import_ _)

theorem importNamespace?_widened (f : SourceFile) :
    f.widened.importNamespace? = f.importNamespace? := by
  simp only [importNamespace?, widened, List.findIdx?_map, Function.comp_def,
    Stmt.isNamespaceOfClass_widened, Stmt.namespace?_widened, Option.isSome_map]

/-- Imports have no values. -/
theorem commutes_addImport (path : String) (localName : Option String) :
    Commutes widened (addImport path localName) := by
  intro f
  have hnamespace (i : Nat) : f.widened.stmts[i]?.bind Stmt.namespace? =
      (f.stmts[i]?.bind Stmt.namespace?).map fun n =>
        { n with stmts := n.stmts.map Stmt.widened } := by
    rw [widened, List.getElem?_map, Option.bind_map, Option.map_bind]
    exact congrArg (Option.bind _) (funext Stmt.namespace?_widened)
  have hnone := commutes_onStmts (commutes_importInto path localName) f
  simp only [addImport, importNamespace?_widened, hnamespace]
  cases f.importNamespace? with
  | none => exact hnone
  | some i =>
      simp only [Option.bind_some]
      cases f.stmts[i]?.bind Stmt.namespace? with
      | none => exact hnone
      | some n =>
          simp only [Option.map_some]
          rw [commutes_importInto path localName n.stmts]
          cases importInto path localName n.stmts with
          | error => rfl
          | ok stmts => simp [Except.map, widened, List.map_set, Stmt.widened_namespace]

/-- It does not matter whether an import is removed before or after the values are widened. -/
theorem commutes_removeImportFrom (path : String) :
    Commutes (List.map Stmt.widened) (removeImportFrom path) := by
  intro ss
  have hfind : findIn (Stmt.importedIdx? path) (ss.map Stmt.widened) =
      findIn (Stmt.importedIdx? path) ss := by
    rw [findIn_map, Function.comp_def]
    simp only [Stmt.importedIdx?_widened]
  have himport (i : Nat) : (ss.map Stmt.widened)[i]?.bind Stmt.import? =
      ss[i]?.bind Stmt.import? := by
    rw [List.getElem?_map, Option.bind_map, Function.comp_def]
    simp only [Stmt.import?_widened]
  unfold removeImportFrom
  simp only [hfind, himport]
  cases findIn (Stmt.importedIdx? path) ss with
  | none => rfl
  | some place =>
      obtain ⟨i, j⟩ := place
      dsimp only
      cases ss[i]?.bind Stmt.import? with
      | none => rfl
      | some decl =>
          dsimp only
          split
          next => exact congrArg Except.ok (Stmt.removeSpaced_widened ss i)
          next => exact congrArg Except.ok (by rw [List.map_set]; rfl)

/-- Imports have no values, and none of them is looked for by one. -/
theorem commutes_removeImport (path : String) : Commutes widened (removeImport path) := by
  intro f
  have hown : removeImportFrom path f.widened.stmts = (removeImportFrom path f.stmts).map
      (List.map Stmt.widened) :=
    commutes_removeImportFrom path f.stmts
  unfold removeImport
  rw [hown]
  cases removeImportFrom path f.stmts with
  | ok stmts => rfl
  | error reason =>
      refine commutes_onStmts (.atFirst fun s => ?_) f
      rw [Stmt.namespace?_widened]
      cases s.namespace? with
      | none => rfl
      | some n =>
          simp only [Option.map_some, Option.bind_some]
          rw [commutes_removeImportFrom path n.stmts]
          cases removeImportFrom path n.stmts with
          | error => rfl
          | ok stmts =>
              exact congrArg (fun s => some (Except.ok s))
                (Stmt.widened_namespace { n with stmts }).symm

theorem commutes_changeNamespace (name : String) : Commutes widened (changeNamespace name) := by
  refine commutes_onStmts (.atFirst fun s => ?_)
  rw [Stmt.namespace?_widened]
  cases s.namespace? with
  | none => rfl
  | some n =>
      exact congrArg (fun s => some (Except.ok s))
        (Stmt.widened_namespace { n with name := some (bareName name) }).symm

/-- Statements go into a namespace as they are. -/
theorem commutes_addNamespace (name : String) : Commutes widened (addNamespace name) := by
  intro f
  have hspaced (g : Trivia → Trivia) (ss : List Stmt) : (ss.map Stmt.widened).modifyHead
      (Spaced.mapTrivia g) =
      (ss.modifyHead (Spaced.mapTrivia g)).map Stmt.widened := by
    rw [List.modifyHead_eq_modify_zero, List.modifyHead_eq_modify_zero,
      map_modify (Stmt.mapTrivia_widened g)]
  simp only [addNamespace, widened, List.any_map, Function.comp_def, Stmt.namespace?_widened,
    Option.isSome_map, Stmt.leadingDeclares_widened, ← List.map_drop, ← List.map_take, hspaced]
  split
  next => rfl
  next => simp [Except.map, widened, Stmt.widened_namespace]

end SourceFile

namespace Operation

/-- Every operation but the extension of a collection does the same to widened values. -/
theorem commutes_edit {op : Operation} {k : EditKind} (hk : k ∈ op.kinds)
    (hne : k ≠ .extendCollectionField) :
    Edit.Commutes SourceFile.widened op.edit := by
  have hf := Expr.widened_ofValue
  cases op with
  | addMixin name =>
      exact SourceFile.commutes_onFirstClass
        (ClassDecl.commutes_addUnless (ClassDecl.findMixin_mapValues name) rfl)
  | removeMixin name =>
      exact SourceFile.commutes_onFirstClass
        (ClassDecl.commutes_atPlace (ClassDecl.findMixin_mapValues name)
          ClassDecl.removeItem_mapValues)
  | addImport path localName => exact SourceFile.commutes_addImport path localName
  | removeImport path => exact SourceFile.commutes_removeImport path
  | addField s => exact SourceFile.commutes_onFirstClass (ClassDecl.commutes_addField hf s)
  | removeField name =>
      exact SourceFile.commutes_onFirstClass
        (ClassDecl.commutes_atPlace (ClassDecl.findField_mapValues name)
          ClassDecl.removeItem_mapValues)
  | changeField s => exact SourceFile.commutes_onFirstClass (ClassDecl.commutes_changeField hf s)
  | extendField name additions => exact absurd (List.mem_singleton.1 hk) hne
  | addRoutine s => exact SourceFile.commutes_onFirstClass (ClassDecl.commutes_addRoutine hf s)
  | changeRoutine change =>
      exact SourceFile.commutes_onFirstClass (ClassDecl.commutes_changeRoutine hf change)
  | removeRoutine name =>
      exact SourceFile.commutes_onFirstClass (ClassDecl.commutes_removeRoutine name)
  | addConstant name value visibility =>
      exact SourceFile.commutes_onFirstClass
        (ClassDecl.commutes_addConstant hf name value visibility)
  | changeConstant name value visibility =>
      exact SourceFile.commutes_onFirstClass
        (ClassDecl.commutes_changeConstant hf name value visibility)
  | removeConstant name =>
      exact SourceFile.commutes_onFirstClass
        (ClassDecl.commutes_atPlace (ClassDecl.findConstant_mapValues name)
          ClassDecl.removeItem_mapValues)
  | renameClass name => exact SourceFile.commutes_onFirstClass fun _ => rfl
  | extendClass parent =>
      exact SourceFile.commutes_onFirstClass (.unless (fun _ => rfl) fun _ => rfl)
  | implementInterface interface =>
      exact SourceFile.commutes_onFirstClass (.unless (fun _ => rfl) fun _ => rfl)
  | changeNamespace name => exact SourceFile.commutes_changeNamespace name
  | addNamespace name => exact SourceFile.commutes_addNamespace name

end Operation

end ClassEdit
