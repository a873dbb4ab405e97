import ClassEdit.Edit.Operation

/-!
Where an edit that applies works. An edit of the first class changes that class and nothing else;
the operations on imports change one list of statements, the file's own or that of one of its
namespaces. Each edit is taken apart here once, and what it keeps is read off its parts.
-/

namespace ClassEdit

theorem map_eq_ok {α β : Type} {g : α → β} {x : Except SkipReason α} {b : β} (h : x.map g = .ok b) :
    ∃ a, x = .ok a ∧ g a = b := by
  cases x with
  | error e => cases h
  | ok a => exact ⟨a, rfl, by cases h; rfl⟩

/-- Of a list in which the first fitting element is edited, everything else stays. -/
theorem Edit.atFirst_eq_ok {α : Type} {f : α → Option (Except SkipReason α)} {xs ys : List α}
    (h : Edit.atFirst f xs = .ok ys) :
    ∃ front x y back, xs = front ++ x :: back ∧ ys = front ++ y :: back ∧ f x = some (.ok y) ∧
      ∀ z ∈ front, f z = none := by
  induction xs generalizing ys with
  | nil => cases h
  | cons x xs ih =>
      unfold atFirst at h
      cases hx : f x with
      | some result =>
          simp only [hx] at h
          obtain ⟨y, rfl, rfl⟩ := map_eq_ok h
          exact ⟨[], x, y, xs, rfl, rfl, hx, nofun⟩
      | none =>
          simp only [hx] at h
          obtain ⟨ys', hys', rfl⟩ := map_eq_ok h
          obtain ⟨front, z, y, back, rfl, rfl, hz, hfront⟩ := ih hys'
          exact ⟨x :: front, z, y, back, rfl, rfl, hz, List.forall_mem_cons.2 ⟨hx, hfront⟩⟩

/-- The edit of an element before which none fits is the edit of the list. -/
theorem Edit.atFirst_behind {α : Type} {f : α → Option (Except SkipReason α)} {front : List α}
    (hfront : ∀ z ∈ front, f z = none) {x y : α} (back : List α) (hx : f x = some (.ok y)) :
    Edit.atFirst f (front ++ x :: back) = .ok (front ++ y :: back) := by
  induction front with
  | nil => simp [atFirst, hx, Except.map]
  | cons z front ih =>
      obtain ⟨hz, hrest⟩ := List.forall_mem_cons.1 hfront
      rw [List.cons_append, atFirst, hz, ih hrest]
      rfl

theorem findSome?_behind {α β : Type} {g : α → Option β} {front : List α}
    (h : ∀ z ∈ front, g z = none) (x : α) (back : List α) {b : β} (hx : g x = some b) :
    (front ++ x :: back).findSome? g = some b := by
  rw [List.findSome?_append, List.findSome?_eq_none_iff.2 h, Option.none_or,
    List.findSome?_cons_of_isSome]
  · exact hx
  · simp [hx]

namespace ClassDecl

variable {β : Type} {c c' : ClassDecl}

theorem addUnless_eq_ok {found : Option β} {m : Member} (h : addUnless found m c = .ok c') :
    found = none ∧ c' = c.insertMember m := by
  unfold addUnless at h
  cases found with
  | some x => cases h
  | none => exact ⟨rfl, by cases h; rfl⟩

theorem atPlace_eq_ok {place : Option β} {f : β → ClassDecl} (h : atPlace place f = .ok c') :
    ∃ p, place = some p ∧ c' = f p := by
  cases place with
  | none => cases h
  | some p => exact ⟨p, rfl, by cases h; rfl⟩

end ClassDecl

namespace NamespaceDecl

theorem eta (n : NamespaceDecl) :
    (⟨n.trivia, n.name, n.braced, n.stmts, n.closingComments⟩ : NamespaceDecl) = n := by
  cases n
  rfl

end NamespaceDecl

namespace Stmt

theorem eq_class {s : Stmt} {c : ClassDecl} (h : s.class? = some c) : s = .class_ c := by
  cases s <;> simp_all [class?]

theorem eq_namespace {s : Stmt} {n : NamespaceDecl} (h : s.namespace? = some n) :
    s = .namespace_ n := by
  cases s <;> simp_all [namespace?]

theorem eq_import {s : Stmt} {i : Import} (h : s.import? = some i) : s = .import_ i := by
  cases s <;> simp_all [import?]

/-- The second list is the first with another class in the place of one. -/
def ClassReplaced (c c' : ClassDecl) (ss ss' : List Stmt) : Prop :=
  ∃ front back, ss = front ++ .class_ c :: back ∧ ss' = front ++ .class_ c' :: back

variable {edit : Edit ClassDecl}

theorem editFirstClass?_eq_none_iff {s : Stmt} :
    editFirstClass? edit s = none ↔ s.firstClass? = none := by
  cases s with
  | class_ c => simp [editFirstClass?, firstClass?]
  | namespace_ n =>
      simp only [editFirstClass?, firstClass?, List.findSome?_eq_none_iff]
      split
      next hn =>
        obtain ⟨s, hs, hclass⟩ := List.any_eq_true.1 hn
        refine iff_of_false (Option.some_ne_none _) fun hnone => ?_
        simp [hnone s hs] at hclass
      next hn => exact iff_of_true rfl (by simpa using hn)
  | _ => exact iff_of_true rfl rfl

/-- The edit of a class in a statement is an edit of that class, which stands by itself or in a
namespace. -/
theorem editFirstClass?_eq_ok {s s' : Stmt} (h : editFirstClass? edit s = some (.ok s')) :
    ∃ c c', edit c = .ok c' ∧ s.firstClass? = some c ∧ s'.firstClass? = some c' ∧
      ((s = .class_ c ∧ s' = .class_ c') ∨ ∃ n ss', s = .namespace_ n ∧
        s' = .namespace_ { n with stmts := ss' } ∧ ClassReplaced c c' n.stmts ss') := by
  cases s with
  | class_ c =>
      simp only [editFirstClass?, Option.some.injEq] at h
      obtain ⟨c', hc', rfl⟩ := map_eq_ok h
      exact ⟨c, c', hc', rfl, rfl, .inl ⟨rfl, rfl⟩⟩
  | namespace_ n =>
      simp only [editFirstClass?] at h
      split at h
      next =>
        obtain ⟨ss', hss', rfl⟩ := map_eq_ok (Option.some.inj h)
        obtain ⟨front, x, y, back, hx, rfl, hy, hfront⟩ := Edit.atFirst_eq_ok hss'
        obtain ⟨c, hc, hedit⟩ := Option.map_eq_some_iff.1 hy
        obtain ⟨c', hc', rfl⟩ := map_eq_ok hedit
        obtain rfl := eq_class hc
        have hnone : ∀ z ∈ front, z.class? = none := fun z hz => by simpa using hfront z hz
        refine ⟨c, c', hc', ?_, findSome?_behind hnone _ _ rfl,
          .inr ⟨n, _, rfl, rfl, front, back, hx, rfl⟩⟩
        rw [firstClass?, hx]
        exact findSome?_behind hnone _ _ rfl
      next => cases h
  | _ => cases h

end Stmt

namespace SourceFile

/-- The files differ in one list of statements, their own or that of a namespace. -/
inductive Scoped (R : List Stmt → List Stmt → Prop) : SourceFile → SourceFile → Prop where
  | own (f : SourceFile) {ss ss' : List Stmt} (h : R ss ss') :
      Scoped R { f with stmts := ss } { f with stmts := ss' }
  | inside (f : SourceFile) (front : List Stmt) (n : NamespaceDecl) (back : List Stmt)
      {ss ss' : List Stmt} (h : R ss ss') :
      Scoped R { f with stmts := front ++ .namespace_ { n with stmts := ss } :: back }
        { f with stmts := front ++ .namespace_ { n with stmts := ss' } :: back }

namespace Scoped

variable {R : List Stmt → List Stmt → Prop} {f f' : SourceFile}

theorem of_inside {front back ss' : List Stmt} {n : NamespaceDecl}
    (hf : f.stmts = front ++ .namespace_ n :: back) (h : R n.stmts ss') :
    Scoped R f { f with stmts := front ++ .namespace_ { n with stmts := ss' } :: back } := by
  have hscoped := inside f front n back h
  rwa [n.eta, ← hf] at hscoped

theorem symm (h : Scoped R f f') : Scoped (flip R) f' f := by
  cases h with
  | own f h => exact .own f h
  | inside f front n back h => exact .inside f front n back h

end Scoped

/-- An edit of the first class leaves an edited class in its place, and all else as it was. -/
theorem onFirstClass_eq_ok {edit : Edit ClassDecl} {f f' : SourceFile}
    (h : onFirstClass edit f = .ok f') :
    ∃ c c', edit c = .ok c' ∧ f.firstClass = some c ∧ f'.firstClass = some c' ∧
      Scoped (Stmt.ClassReplaced c c') f f' := by
  obtain ⟨ss', hss', rfl⟩ := map_eq_ok h
  obtain ⟨front, s, s', back, hs, rfl, hedit, hfront⟩ := Edit.atFirst_eq_ok hss'
  obtain ⟨c, c', hc', hfirst, hfirst', hplace⟩ := Stmt.editFirstClass?_eq_ok hedit
  have hnone : ∀ z ∈ front, z.firstClass? = none :=
    fun z hz => Stmt.editFirstClass?_eq_none_iff.1 (hfront z hz)
  refine ⟨c, c', hc', ?_, findSome?_behind hnone _ _ hfirst', ?_⟩
  · rw [firstClass, hs]
    exact findSome?_behind hnone _ _ hfirst
  · rcases hplace with ⟨rfl, rfl⟩ | ⟨n, inner, rfl, rfl, hinner⟩
    · exact .own f ⟨front, back, hs, rfl⟩
    · exact .of_inside hs hinner

/-- An import changes one list of statements, that of the file or that of a namespace. -/
theorem addImport_eq_ok {path : String} {localName : Option String} {f f' : SourceFile}
    (h : addImport path localName f = .ok f') :
    Scoped (fun ss ss' => importInto path localName ss = .ok ss') f f' := by
  unfold addImport at h
  dsimp only at h
  split at h
  next i n hplace =>
    obtain ⟨ss', hss', rfl⟩ := map_eq_ok h
    obtain ⟨j, -, hj⟩ := Option.bind_eq_some_iff.1 hplace
    obtain ⟨n', hn', heq⟩ := Option.map_eq_some_iff.1 hj
    cases heq
    obtain ⟨s, hs, hsn⟩ := Option.bind_eq_some_iff.1 hn'
    obtain rfl := Stmt.eq_namespace hsn
    obtain ⟨hi, hget⟩ := List.getElem?_eq_some_iff.1 hs
    have hstmts : f.stmts = f.stmts.take i ++ .namespace_ n :: f.stmts.drop (i + 1) := by
      rw [← hget]
      simp
    rw [List.set_eq_take_append_cons_drop, if_pos hi]
    exact .of_inside hstmts hss'
  next =>
    obtain ⟨ss', hss', rfl⟩ := map_eq_ok h
    exact .own f hss'

theorem importInto_eq_ok {path : String} {localName : Option String} {ss ss' : List Stmt}
    (h : importInto path localName ss = .ok ss') :
    ss' = insertSpaced ss (importPosition ss) (.import_ (.single (bareName path) localName)) := by
  unfold importInto at h
  split at h <;> cases h
  rfl

/-- Of an import statement one symbol goes, or all of it if there is no other. -/
theorem removeImportFrom_eq_ok {path : String} {ss ss' : List Stmt}
    (h : removeImportFrom path ss = .ok ss') :
    ∃ i decl, ss[i]? = some (.import_ decl) ∧
      ((decl.items.length = 1 ∧ ss' = removeSpaced ss i) ∨
        ∃ j, 1 < decl.items.length ∧
          ss' = ss.set i (.import_ { decl with items := decl.items.eraseIdx j })) := by
  unfold removeImportFrom at h
  split at h
  next => cases h
  next i j hplace =>
    obtain ⟨s, hs, hj⟩ := findIn_eq_some hplace
    rw [hs, Option.bind_some] at h
    split at h
    next => cases h
    next decl hdecl =>
      obtain rfl := Stmt.eq_import hdecl
      have hlen : j < decl.items.length := by
        rw [Stmt.importedIdx?, hdecl, Option.bind_some] at hj
        exact (List.findIdx?_eq_some_iff_getElem.1 hj).1
      refine ⟨i, decl, hs, ?_⟩
      split at h
      next hone =>
        cases h
        exact .inl ⟨hone, rfl⟩
      next hmore =>
        cases h
        exact .inr ⟨j, by omega, rfl⟩

/-- An import is removed from one list of statements, that of the file or that of a namespace. -/
theorem removeImport_eq_ok {path : String} {f f' : SourceFile} (h : removeImport path f = .ok f') :
    Scoped (fun ss ss' => removeImportFrom path ss = .ok ss') f f' := by
  unfold removeImport at h
  dsimp only at h
  split at h
  next ss' hss' =>
    cases h
    exact .own f hss'
  next =>
    obtain ⟨ss', hss', rfl⟩ := map_eq_ok h
    obtain ⟨front, s, s', back, hs, rfl, hedit, -⟩ := Edit.atFirst_eq_ok hss'
    obtain ⟨n, hn, hedit⟩ := Option.bind_eq_some_iff.1 hedit
    obtain ⟨inner, hinner, heq⟩ := Option.map_eq_some_iff.1 hedit
    cases heq
    obtain rfl := Stmt.eq_namespace hn
    have hremove : removeImportFrom path n.stmts = .ok inner := by
      cases hr : removeImportFrom path n.stmts with
      | error e => simp [hr, Except.toOption] at hinner
      | ok ss => simpa [hr, Except.toOption] using hinner
    exact .of_inside hs hremove

theorem changeNamespace_eq_ok {name : String} {f f' : SourceFile}
    (h : changeNamespace name f = .ok f') :
    ∃ front n back, f.stmts = front ++ .namespace_ n :: back ∧
      f' = { f with stmts := front ++ .namespace_ { n with name := some (bareName name) } ::
        back } := by
  obtain ⟨ss', hss', rfl⟩ := map_eq_ok h
  obtain ⟨front, s, s', back, hs, rfl, hedit, -⟩ := Edit.atFirst_eq_ok hss'
  obtain ⟨n, hn, heq⟩ := Option.map_eq_some_iff.1 hedit
  cases heq
  obtain rfl := Stmt.eq_namespace hn
  exact ⟨front, n, back, hs, rfl⟩

end SourceFile

end ClassEdit
