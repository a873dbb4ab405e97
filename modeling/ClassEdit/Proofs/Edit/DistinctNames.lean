import ClassEdit.Proofs.Edit.Effect
import ClassEdit.Proofs.Edit.Members

/-!
Names that are distinct in a class. What counts as the same name depends on what is named: the
separator before a symbol and the capitals of a routine do not matter. What is added is looked
for first, under the same notion; what takes the place of something has its name; and nothing
else brings in a name. Main statement: the names in the first class of a file stay distinct in
every run of operations.
-/

namespace ClassEdit

/-- Distinct things stay so if what comes in is distinct and new, or was there in its place. -/
theorem Splices.nodup {α : Type} {old new xs ys : List α} (h : Splices old new xs ys)
    (hxs : xs.Nodup) (hnew : new.Nodup) (hfresh : ∀ x ∈ new, x ∈ xs → x ∈ old) : ys.Nodup := by
  obtain ⟨front, back, rfl, rfl⟩ := h
  simp only [List.nodup_append, List.mem_append] at hxs hfresh ⊢
  obtain ⟨⟨hfront, -, hfrontOld⟩, hback, hbehind⟩ := hxs
  have hfrontNew : ∀ a ∈ front, ∀ b ∈ new, a ≠ b := by
    rintro a ha _ hb rfl
    exact hfrontOld a ha a (hfresh a hb (.inl (.inl ha))) rfl
  have hnewBack : ∀ a ∈ new, ∀ b ∈ back, a ≠ b := by
    rintro a ha _ hb rfl
    exact hbehind a (.inr (hfresh a ha (.inr hb))) a hb rfl
  refine ⟨⟨hfront, hnew, hfrontNew⟩, hback, fun a ha b hb => ?_⟩
  rcases ha with ha | ha
  · exact hbehind a (.inl ha) b hb
  · exact hnewBack a ha b hb

theorem map_modify_eq {α β : Type} {g : α → β} {f : α → α} (h : ∀ x, g (f x) = g x) (xs : List α)
    (i : Nat) : (xs.modify i f).map g = xs.map g := by
  induction xs generalizing i with
  | nil => simp
  | cons x xs ih => cases i <;> simp [h, ih]

theorem findIn_eq_none {α : Type} {f : α → Option Nat} {xs : List α} (h : findIn f xs = none) :
    ∀ x ∈ xs, f x = none := by
  induction xs with
  | nil => exact nofun
  | cons x xs ih =>
      unfold findIn at h
      split at h
      next => cases h
      next hx => exact List.forall_mem_cons.2 ⟨hx, ih (Option.map_eq_none_iff.1 h)⟩

namespace MemberCategory

/-- What names of the same thing have in common. -/
def key : MemberCategory → String → String
  | mixin, name => bareName name
  | routine, name => String.ofList (name.toList.map Char.toLower)
  | constant, name | field, name => name

theorem sameWord_iff_key (a b : String) : sameWord a b ↔ key .routine a = key .routine b := by
  rw [sameWord, beq_iff_eq, key, key, String.ofList_inj]

end MemberCategory

namespace Member

def names : MemberCategory → Member → List String
  | .mixin, mixins use => use.names
  | .constant, constants g => g.items.map Constant.name
  | .field, fields g => g.items.map Field.name
  | .routine, routine r => [r.name]
  | _, _ => []

def keys (k : MemberCategory) (m : Member) : List String :=
  (m.names k).map k.key

theorem keys_eraseItem (k : MemberCategory) (m : Member) (j : Nat) :
    ((m.eraseItem j).keys k).Sublist (m.keys k) := by
  refine List.Sublist.map _ ?_
  cases m <;> cases k <;>
    first | exact List.Sublist.refl _ | exact List.eraseIdx_sublist _ _ |
      exact (List.eraseIdx_sublist _ _).map _

theorem keys_mapConstants (k : MemberCategory) (m : Member) {f : ConstantGroup → ConstantGroup}
    (hf : ∀ g, (f g).items.map Constant.name = g.items.map Constant.name) :
    (m.mapConstants f).keys k = m.keys k := by
  cases m with
  | constants g => cases k <;> simp only [mapConstants, keys, names, hf]
  | _ => rfl

theorem keys_mapFields (k : MemberCategory) (m : Member) {f : FieldGroup → FieldGroup}
    (hf : ∀ g, (f g).items.map Field.name = g.items.map Field.name) :
    (m.mapFields f).keys k = m.keys k := by
  cases m with
  | fields g => cases k <;> simp only [mapFields, keys, names, hf]
  | _ => rfl

theorem keys_mapRoutine (k : MemberCategory) (m : Member) {f : Routine → Routine}
    (hf : ∀ r, (f r).name = r.name) : (m.mapRoutine f).keys k = m.keys k := by
  cases m with
  | routine r => cases k <;> simp only [mapRoutine, keys, names, hf]
  | _ => rfl

theorem not_mem_keys_of_mixinIdx? {name : String} {m : Member} (h : m.mixinIdx? name = none) :
    bareName name ∉ m.keys .mixin := by
  cases m with
  | mixins use =>
      simp only [mixinIdx?, List.findIdx?_eq_none_iff, sameSymbol] at h
      simpa [keys, names, MemberCategory.key] using h
  | _ => exact nofun

theorem not_mem_keys_of_constantIdx? {name : String} {m : Member} (h : m.constantIdx? name = none) :
    name ∉ m.keys .constant := by
  cases m with
  | constants g =>
      simp only [constantIdx?, List.findIdx?_eq_none_iff] at h
      simpa [keys, names, MemberCategory.key] using h
  | _ => exact nofun

theorem not_mem_keys_of_fieldIdx? {name : String} {m : Member} (h : m.fieldIdx? name = none) :
    name ∉ m.keys .field := by
  cases m with
  | fields g =>
      simp only [fieldIdx?, List.findIdx?_eq_none_iff] at h
      simpa [keys, names, MemberCategory.key] using h
  | _ => exact nofun

theorem not_mem_keys_of_isRoutine {name : String} {m : Member} (h : m.isRoutine name = false) :
    MemberCategory.key .routine name ∉ m.keys .routine := by
  cases m with
  | routine r =>
      intro hkey
      simp only [keys, names, List.map_singleton, List.mem_singleton] at hkey
      rw [isRoutine, (MemberCategory.sameWord_iff_key _ _).2 hkey.symm] at h
      cases h
  | _ => exact nofun

end Member

namespace FieldGroup

theorem names_change (s : FieldSpec) (j : Nat) (g : FieldGroup) :
    (g.change s j).items.map Field.name = g.items.map Field.name := by
  obtain ⟨name, default, visibility, type⟩ := s
  cases default <;> cases visibility <;> cases type <;>
    first | rfl | exact map_modify_eq (by intro; rfl) _ _

theorem names_extend (additions : Value) (j : Nat) (g : FieldGroup) :
    (g.extend additions j).items.map Field.name = g.items.map Field.name :=
  map_modify_eq (by intro; rfl) _ _

end FieldGroup

theorem ConstantGroup.names_change (value : Option Value) (visibility : Option Visibility) (j : Nat)
    (g : ConstantGroup) :
    (g.change value visibility j).items.map Constant.name = g.items.map Constant.name := by
  cases value <;> cases visibility <;> first | rfl | exact map_modify_eq (by intro; rfl) _ _

theorem Routine.name_change (change : RoutineChange) (r : Routine) :
    (r.change change).name = r.name := by
  obtain ⟨name, params, body, visibility⟩ := change
  cases params <;> cases body <;> cases visibility <;> rfl

namespace ClassDecl

variable {c c' : ClassDecl}

/-- The names of all that a class declares of a kind, as far as they tell things apart. -/
def keys (k : MemberCategory) (c : ClassDecl) : List String :=
  c.content.flatMap (·.keys k)

/-- No two mixins, constants, fields, routines or interfaces of a class have the same name. -/
structure HasDistinctNames (c : ClassDecl) : Prop where
  members : ∀ k, (c.keys k).Nodup
  interfaces : (c.interfaces.map bareName).Nodup

theorem not_mem_keys {k : MemberCategory} {n : String} (h : ∀ m ∈ c.members, n ∉ m.member.keys k) :
    n ∉ c.keys k := by
  simp only [keys, content, List.flatMap_map, List.mem_flatMap, not_exists, not_and]
  exact h

namespace HasDistinctNames

/-- The names stay distinct if every kind of them does where members are replaced. -/
theorem splices {old new : List Member} (h : c.HasDistinctNames)
    (hsplices : Splices old new c.content c'.content) (hinterfaces : c'.interfaces = c.interfaces)
    (hnew : ∀ k, (new.flatMap (·.keys k)).Nodup)
    (hfresh : ∀ k, ∀ n ∈ new.flatMap (·.keys k), n ∈ c.keys k → n ∈ old.flatMap (·.keys k)) :
    c'.HasDistinctNames where
  members k := (hsplices.flatMap (·.keys k)).nodup (h.members k) (hnew k) (hfresh k)
  interfaces := hinterfaces ▸ h.interfaces

/-- A member that declares one thing of a new name. -/
theorem add {m : Member} {k : MemberCategory} {n : String} (h : c.HasDistinctNames)
    (hsplices : Splices [] [m] c.content c'.content) (hinterfaces : c'.interfaces = c.interfaces)
    (hkeys : ∀ k', m.keys k' = if k' = k then [n] else []) (hn : n ∉ c.keys k) :
    c'.HasDistinctNames := by
  refine h.splices hsplices hinterfaces (fun k' => ?_) fun k' => ?_
  · rw [List.flatMap_singleton, hkeys]
    split <;> simp
  · rw [List.flatMap_singleton, hkeys]
    split
    next heq =>
      subst heq
      intro x hx hmem
      rw [List.mem_singleton.1 hx] at hmem
      exact absurd hmem hn
    next => exact nofun

/-- A member that gives way to one with no other names. -/
theorem replace {m : Member} {rest : List Member} (h : c.HasDistinctNames)
    (hsplices : Splices [m] rest c.content c'.content) (hinterfaces : c'.interfaces = c.interfaces)
    (hkeys : ∀ k, (rest.flatMap (·.keys k)).Sublist (m.keys k)) : c'.HasDistinctNames := by
  refine h.splices hsplices hinterfaces (fun k => ?_) fun k n hn _ => ?_
  · obtain ⟨front, back, hold, -⟩ := hsplices.flatMap (·.keys k)
    have hm : (m.keys k).Nodup := by
      have hall := h.members k
      rw [keys, hold, List.flatMap_singleton] at hall
      exact (List.nodup_append.1 (List.nodup_append.1 hall).1).2.1
    exact (hkeys k).nodup hm
  · rw [List.flatMap_singleton]
    exact (hkeys k).subset hn

theorem addUnless {β : Type} {found : Option β} {m : Member} {k : MemberCategory} {n : String}
    (h : c.HasDistinctNames) (hedit : addUnless found m c = .ok c')
    (hkeys : ∀ k', m.keys k' = if k' = k then [n] else []) (hn : found = none → n ∉ c.keys k) :
    c'.HasDistinctNames := by
  obtain ⟨hnone, rfl⟩ := addUnless_eq_ok hedit
  exact h.add (content_insertMember c m) rfl hkeys (hn hnone)

theorem removeItem {f : MemberStmt → Option Nat} (h : c.HasDistinctNames)
    (hedit : atPlace (findIn f c.members) c.removeItem = .ok c') : c'.HasDistinctNames := by
  obtain ⟨i, j, m, hm, rfl⟩ := atPlace_findIn_eq_ok hedit
  have hinterfaces : (c.removeItem (i, j)).interfaces = c.interfaces := by
    unfold ClassDecl.removeItem
    split <;> rfl
  rcases content_removeItem hm j with hgone | ⟨-, hless⟩
  · exact h.replace hgone hinterfaces fun k => List.nil_sublist _
  · exact h.replace hless hinterfaces fun k => by simpa using m.member.keys_eraseItem k j

theorem mapMember {i : Nat} {m : MemberStmt} {g : Member → Member} (h : c.HasDistinctNames)
    (hm : c.members[i]? = some m) (hg : ∀ k, (g m.member).keys k = m.member.keys k) :
    (c.mapMember i g).HasDistinctNames :=
  h.replace (content_mapMember hm g) rfl fun k => by simp [hg]

theorem changeItem {f : MemberStmt → Option Nat} {g : Nat → Member → Member}
    (h : c.HasDistinctNames) (hg : ∀ j m k, (g j m).keys k = m.keys k)
    (hedit : atPlace (findIn f c.members) (fun (i, j) => c.mapMember i (g j)) = .ok c') :
    c'.HasDistinctNames := by
  obtain ⟨i, j, m, hm, rfl⟩ := atPlace_findIn_eq_ok hedit
  exact h.mapMember hm (hg j m.member)

/-- A routine of the same name is replaced or refuses the new one, so the names stay distinct. -/
theorem addRoutine {s : RoutineSpec} (h : c.HasDistinctNames) (hedit : addRoutine s c = .ok c') :
    c'.HasDistinctNames := by
  obtain ⟨hinterfaces, ⟨hnone, hsplices⟩ | ⟨r, hname, hsplices⟩⟩ := addRoutine_eq_ok hedit
  · refine h.add hsplices hinterfaces (k := .routine) (n := MemberCategory.key .routine s.name)
      (by rintro (_ | _ | _ | _) <;> rfl) (not_mem_keys fun m hm => ?_)
    have hother := List.findIdx?_eq_none_iff.1 hnone m hm
    exact Member.not_mem_keys_of_isRoutine (by simpa using hother)
  · refine h.replace hsplices hinterfaces fun k => ?_
    cases k with
    | routine =>
        have hkey := (MemberCategory.sameWord_iff_key _ _).1 hname
        simp [Member.keys, Member.names, hkey, RoutineSpec.toRoutine]
    | _ => exact List.nil_sublist _

/-- An interface that is there already is not added again. -/
theorem implement {interface : String} (h : c.HasDistinctNames)
    (hedit : implement interface c = .ok c') :
    c'.HasDistinctNames := by
  unfold ClassDecl.implement at hedit
  split at hedit
  next => cases hedit
  next hnew =>
    cases hedit
    refine ⟨h.members, ?_⟩
    simp only [List.any_eq_true, sameSymbol, beq_iff_eq, not_exists, not_and] at hnew
    rw [List.map_append, List.nodup_append]
    refine ⟨h.interfaces, by simp, ?_⟩
    simpa using hnew

/-- No operation on a class gives two of its members the same name. -/
theorem edit {op : Operation} {edit : Edit ClassDecl} (h : c.HasDistinctNames)
    (hop : op.classEdit? = some edit) (hedit : edit c = .ok c') : c'.HasDistinctNames := by
  cases op <;> cases hop
  case addMixin name =>
    exact h.addUnless hedit (k := .mixin) (by rintro (_ | _ | _ | _) <;> rfl) fun hnone =>
      not_mem_keys fun m hm => Member.not_mem_keys_of_mixinIdx? (findIn_eq_none hnone m hm)
  case addField spec =>
    exact h.addUnless hedit (k := .field) (by rintro (_ | _ | _ | _) <;> rfl) fun hnone =>
      not_mem_keys fun m hm => Member.not_mem_keys_of_fieldIdx? (findIn_eq_none hnone m hm)
  case addConstant name value visibility =>
    exact h.addUnless hedit (k := .constant) (by rintro (_ | _ | _ | _) <;> rfl) fun hnone =>
      not_mem_keys fun m hm => Member.not_mem_keys_of_constantIdx? (findIn_eq_none hnone m hm)
  case removeMixin name => exact h.removeItem hedit
  case removeField name => exact h.removeItem hedit
  case removeConstant name => exact h.removeItem hedit
  case changeField spec =>
    exact h.changeItem (fun j m k => m.keys_mapFields k (FieldGroup.names_change spec j)) hedit
  case extendField name additions =>
    exact h.changeItem (fun j m k => m.keys_mapFields k (FieldGroup.names_extend additions j)) hedit
  case changeConstant name value visibility =>
    exact h.changeItem
      (fun j m k => m.keys_mapConstants k (ConstantGroup.names_change value visibility j)) hedit
  case addRoutine spec => exact h.addRoutine hedit
  case changeRoutine change =>
    obtain ⟨i, m, hm, rfl⟩ := atPlace_findRoutine_eq_ok hedit
    exact h.mapMember hm fun k => m.member.keys_mapRoutine k (Routine.name_change change)
  case removeRoutine name =>
    obtain ⟨i, m, hm, rfl⟩ := atPlace_findRoutine_eq_ok hedit
    exact h.replace (content_removeSpaced hm) rfl fun k => List.nil_sublist _
  case renameClass name =>
    cases hedit
    exact ⟨h.members, h.interfaces⟩
  case extendClass parent =>
    simp only [extend] at hedit
    split at hedit <;> cases hedit
    exact ⟨h.members, h.interfaces⟩
  case implementInterface interface => exact h.implement hedit

theorem bare_iff (c : ClassDecl) : c.bare.HasDistinctNames ↔ c.HasDistinctNames :=
  ⟨fun h => ⟨h.members, h.interfaces⟩, fun h => ⟨h.members, h.interfaces⟩⟩

end HasDistinctNames

end ClassDecl

namespace SourceFile

/-- Replaced imports leave the first class as it is, spacing aside. -/
theorem ImportsReplaced.firstClass_eq {f f' : SourceFile}
    (h : ImportsReplaced f.contents f'.contents) :
    f'.firstClass.map ClassDecl.bare = f.firstClass.map ClassDecl.bare := by
  obtain ⟨old, new, -, hsplices⟩ := h
  have hnone (is : List Import) : ((is.map Stmt.import_).map Stmt.bare).filterMap Stmt.class? =
      [] := by
    rw [List.map_map, List.filterMap_map, List.filterMap_eq_nil_iff]
    exact fun _ _ => rfl
  have hclasses := hsplices.filterMap Stmt.class?
  rw [hnone, hnone] at hclasses
  rw [← head?_classes, ← head?_classes, hclasses.eq_of_nil]

/-- If the names in the first class of a file are distinct, they are distinct after every run of
operations. -/
theorem hasDistinctNames_run {f : SourceFile} {c : ClassDecl} (hf : f.firstClass = some c)
    (h : c.HasDistinctNames) (ops : List Operation) :
    ∃ c', (Operation.run ops f).firstClass = some c' ∧ c'.HasDistinctNames := by
  refine Operation.run_induction (P := fun f => ∃ c, f.firstClass = some c ∧ c.HasDistinctNames) ?_
    ⟨c, hf, h⟩ ops
  rintro op f f' heffect ⟨c, hfirst, hc⟩
  cases heffect with
  | @onClass edit d d' hedit hd before behind _ _ =>
      rw [hfirst, Option.some.injEq] at before
      exact ⟨d', behind, (before ▸ hc).edit hedit hd⟩
  | onScope contents _ =>
      have hsame := contents.firstClass_eq
      rw [hfirst, Option.map_some] at hsame
      obtain ⟨c', hc', hbare⟩ := Option.map_eq_some_iff.1 hsame
      refine ⟨c', hc', ?_⟩
      rwa [← ClassDecl.HasDistinctNames.bare_iff, hbare, ClassDecl.HasDistinctNames.bare_iff]

/-- A mixin and a routine of which the names are written differently afterwards. -/
theorem hasDistinctNames_run_override :
    let run : Routine := ⟨.ofVisibility .everyone, false, "run", [], false, none, none, .nextLine⟩
    let c : ClassDecl :=
      ⟨.empty, [], "A", none, ["I"], [.made (.mixins ⟨["\\M"], none⟩), .made (.routine run)], []⟩
    let ops : List Operation :=
      [.addRoutine ⟨"RUN", [], "", none, true⟩, .addMixin "M", .addNamespace "N",
        .implementInterface "\\I"]
    c.HasDistinctNames ∧
      ∃ c', (Operation.run ops ⟨none, [.class_ c], [], none⟩).firstClass = some c' ∧
        c'.HasDistinctNames := by
  intro run c ops
  have hc : c.HasDistinctNames :=
    ⟨fun k => by cases k <;> decide, by decide⟩
  exact ⟨hc, hasDistinctNames_run rfl hc ops⟩

end SourceFile

end ClassEdit
