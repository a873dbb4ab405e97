import ClassEdit.Proofs.Edit.Contiguous
import ClassEdit.Proofs.Edit.DistinctNames

/-!
Additions that are made again. An addition looks first for what it adds, and finds what it
added itself; nothing that is added later hides it. An addition is therefore refused once it
was made, and from then on. Main statements: an addition is done once it was applied, and stays
done under any other addition.
-/

namespace ClassEdit

namespace Edit

variable {α β : Type}

def reason? : Except SkipReason α → Option SkipReason
  | .ok _ => none
  | .error reason => some reason

theorem reason?_eq_some {r : Except SkipReason α} {reason : SkipReason} :
    reason? r = some reason ↔ r = .error reason := by
  cases r <;> simp [reason?]

theorem reason?_map (g : α → β) (r : Except SkipReason α) : reason? (r.map g) = reason? r := by
  cases r <;> rfl

theorem apply_of_reason? {edit : Edit α} {x : α} {reason : SkipReason}
    (h : reason? (edit x) = some reason) :
    edit.apply x = (x, .skipped reason) := by
  rw [apply, reason?_eq_some.1 h]

/-- The edit of the first fitting element is refused for the reason that this element gives. -/
theorem reason?_atFirst (f : α → Option (Except SkipReason α)) (xs : List α) :
    reason? (atFirst f xs) = (xs.findSome? f).elim (some .notFound) reason? := by
  induction xs with
  | nil => rfl
  | cons x xs ih =>
      unfold atFirst
      cases hx : f x with
      | some result => simp [hx, reason?_map]
      | none => simp [hx, reason?_map, ih]

end Edit

theorem isSome_findIn {α : Type} {f : α → Option Nat} {xs : List α} :
    (findIn f xs).isSome ↔ ∃ x ∈ xs, (f x).isSome := by
  constructor
  · intro h
    obtain ⟨⟨i, j⟩, hplace⟩ := Option.isSome_iff_exists.1 h
    obtain ⟨x, hx, hj⟩ := findIn_eq_some hplace
    exact ⟨x, List.mem_of_getElem? hx, by simp [hj]⟩
  · rintro ⟨x, hx, hj⟩
    cases hfound : findIn f xs with
    | some place => rfl
    | none => simp [findIn_eq_none hfound x hx] at hj

namespace ClassDecl

/-- The second class declares all that the first does. -/
structure Within (c c' : ClassDecl) : Prop where
  members : ∀ m ∈ c.content, m ∈ c'.content
  interfaces : ∀ i ∈ c.interfaces, i ∈ c'.interfaces

namespace Within

variable {c c' c'' : ClassDecl}

theorem refl (c : ClassDecl) : c.Within c := ⟨fun _ h => h, fun _ h => h⟩

theorem trans (h : c.Within c') (h' : c'.Within c'') : c.Within c'' :=
  ⟨fun m hm => h'.members m (h.members m hm), fun i hi => h'.interfaces i (h.interfaces i hi)⟩

theorem of_bare_eq (h : c'.bare = c.bare) : c.Within c' := by
  have hmembers : c'.bare.content = c.bare.content := by rw [h]
  have hinterfaces : c'.bare.interfaces = c.bare.interfaces := by rw [h]
  exact ⟨fun m hm => (hmembers : c'.content = c.content) ▸ hm,
    fun i hi => (hinterfaces : c'.interfaces = c.interfaces) ▸ hi⟩

theorem of_splices {m : Member} (h : Splices [] [m] c.content c'.content)
    (hinterfaces : c'.interfaces = c.interfaces) : c.Within c' ∧ m ∈ c'.content := by
  obtain ⟨front, back, hold, hnew⟩ := h
  refine ⟨⟨fun m hm => ?_, fun i hi => hinterfaces ▸ hi⟩, by simp [hnew]⟩
  rw [hold] at hm
  simp only [List.append_nil, List.mem_append] at hm
  rcases hm with hm | hm <;> simp [hnew, hm]

end Within

/-- The edit adds what a class may have: it is refused for a class that has it, and puts it
into one that has it not. -/
structure AddsOnce (has : ClassDecl → Prop) (edit : Edit ClassDecl) : Prop where
  refused : ∀ {c}, has c → Edit.reason? (edit c) = some .duplicate
  added : ∀ {c}, ¬has c → ∃ c', edit c = .ok c' ∧ has c' ∧ c.Within c'
  stays : ∀ {c c'}, has c → c.Within c' → has c'

theorem AddsOnce.of_ok {has : ClassDecl → Prop} {edit : Edit ClassDecl} (h : AddsOnce has edit)
    {c c' : ClassDecl} (hc : edit c = .ok c') : has c' ∧ c.Within c' := by
  by_cases hhas : has c
  · rw [Edit.reason?_eq_some.1 (h.refused hhas)] at hc
    cases hc
  · obtain ⟨d, hd, hwithin⟩ := h.added hhas
    rw [hd, Except.ok.injEq] at hc
    exact hc ▸ hwithin

/-- A member is added unless one is found that does what the test says. -/
theorem addsOnce_addUnless (test : Member → Option Nat) {m : Member} (hm : (test m).isSome) :
    AddsOnce (fun c => ∃ m ∈ c.content, (test m).isSome)
      (fun c => addUnless (findIn (fun m : MemberStmt => test m.member) c.members) m c) where
  refused := by
    rintro c ⟨m, hm, htest⟩
    obtain ⟨stmt, hstmt, rfl⟩ := List.mem_map.1 hm
    have hfound := isSome_findIn (f := fun m : MemberStmt => test m.member).2 ⟨stmt, hstmt, htest⟩
    rw [Edit.reason?_eq_some, addUnless, if_pos hfound]
  added := by
    intro c hnone
    refine ⟨c.insertMember m, ?_, ?_⟩
    · rw [addUnless, if_neg]
      intro hfound
      obtain ⟨stmt, hstmt, htest⟩ := isSome_findIn.1 hfound
      exact hnone ⟨stmt.member, List.mem_map_of_mem hstmt, htest⟩
    · have hsplices := c.content_insertMember m
      obtain ⟨hwithin, hmem⟩ := Within.of_splices hsplices rfl
      exact ⟨⟨m, hmem, hm⟩, hwithin⟩
  stays := by
    rintro c c' ⟨m, hm, htest⟩ hwithin
    exact ⟨m, hwithin.members m hm, htest⟩

/-- A routine that replaces no other is added once. -/
theorem addsOnce_addRoutine {s : RoutineSpec} (hkept : s.overwrite = false) :
    AddsOnce (fun c => ∃ m ∈ c.content, m.isRoutine s.name) (addRoutine s) where
  refused := by
    rintro c ⟨m, hm, hname⟩
    obtain ⟨stmt, hstmt, rfl⟩ := List.mem_map.1 hm
    rw [Edit.reason?_eq_some, addRoutine]
    cases hfound : c.findRoutine s.name with
    | some i => simp [hkept]
    | none =>
        have hother := List.findIdx?_eq_none_iff.1 hfound stmt hstmt
        exact absurd hname (by simpa using hother)
  added := by
    intro c hnone
    have hfound : c.findRoutine s.name = none := by
      refine List.findIdx?_eq_none_iff.2 fun stmt hstmt => ?_
      exact Bool.eq_false_iff.2 fun hname => hnone ⟨stmt.member, List.mem_map_of_mem hstmt, hname⟩
    let c' : ClassDecl := { c with members := c.members ++ [.made (.routine s.toRoutine)] }
    have hsplices : Splices [] [.routine s.toRoutine] c.content c'.content :=
      ⟨c.content, [], by simp, by simp [c', content, MemberStmt.made]⟩
    obtain ⟨hwithin, hmem⟩ := Within.of_splices hsplices rfl
    have hname : (Member.routine s.toRoutine).isRoutine s.name := by
      simp [Member.isRoutine, RoutineSpec.toRoutine, sameWord]
    exact ⟨c', by rw [addRoutine, hfound], ⟨_, hmem, hname⟩, hwithin⟩
  stays := by
    rintro c c' ⟨m, hm, hname⟩ hwithin
    exact ⟨m, hwithin.members m hm, hname⟩

/-- An interface is added once, in whatever case its name is written. -/
theorem addsOnce_implement (interface : String) :
    AddsOnce (fun c => ∃ i ∈ c.interfaces, sameSymbol i interface) (implement interface) where
  refused := by
    intro c hc
    rw [Edit.reason?_eq_some, implement, if_pos (List.any_eq_true.2 hc)]
  added := by
    intro c hnone
    let c' : ClassDecl := { c with interfaces := c.interfaces ++ [interface] }
    have hwithin : c.Within c' := ⟨fun _ h => h, fun i hi => List.mem_append_left _ hi⟩
    have hthere : interface ∈ c'.interfaces := List.mem_append_right _ (List.mem_singleton_self _)
    exact ⟨c', by rw [implement, if_neg (mt List.any_eq_true.1 hnone)],
      ⟨interface, hthere, by simp [sameSymbol]⟩, hwithin⟩
  stays := by
    rintro c c' ⟨i, hi, hname⟩ hwithin
    exact ⟨i, hwithin.interfaces i hi, hname⟩

end ClassDecl

namespace Stmt

def holdsClass? (s : Stmt) : Option Bool :=
  s.namespace?.map fun n => n.stmts.any (·.class?.isSome)

/-- What can be told of a statement when a class is looked for among the imports. -/
structure ImportView where
  holdsClass? : Option Bool
  /-- Of a namespace, whether the class is imported in it. -/
  inside? : Option Bool
  /-- Whether the statement imports the class itself. -/
  itself : Bool

def importView (path : String) (localName : Option String) (s : Stmt) : ImportView :=
  ⟨s.holdsClass?, s.namespace?.map (·.stmts.any (·.importsAs path localName)),
    s.importsAs path localName⟩

theorem holdsClass?_mapTrivia (f : Trivia → Trivia) (s : Stmt) :
    (Spaced.mapTrivia f s).holdsClass? = s.holdsClass? := by
  cases s <;> rfl

theorem importsAs_mapTrivia (path : String) (localName : Option String)
    (f : Trivia → Trivia) (s : Stmt) :
    (Spaced.mapTrivia f s).importsAs path localName = s.importsAs path localName := by
  cases s <;> rfl

/-- An edit of the first class is skipped for the reason that the class gives. -/
theorem reason?_editFirstClass? (edit : Edit ClassDecl) (s : Stmt) :
    (editFirstClass? edit s).map Edit.reason? = s.firstClass?.map fun c =>
      Edit.reason? (edit c) := by
  cases s with
  | class_ c => simp [editFirstClass?, firstClass?, Edit.reason?_map]
  | namespace_ n =>
      have hfirst : (n.stmts.findSome? fun s => s.class?.map fun c => (edit c).map class_) =
          (n.stmts.findSome? class?).map fun c => (edit c).map class_ := by
        rw [List.map_findSome?]
        rfl
      simp only [editFirstClass?, firstClass?]
      cases hclass : n.stmts.findSome? class? with
      | some c =>
          obtain ⟨s, hs, hc⟩ := List.exists_of_findSome?_eq_some hclass
          have hany : n.stmts.any (·.class?.isSome) = true :=
            List.any_eq_true.2 ⟨s, hs, by simp [hc]⟩
          rw [if_pos hany]
          simp [Edit.reason?_map, Edit.reason?_atFirst, hfirst, hclass]
      | none =>
          have hany : ¬n.stmts.any (·.class?.isSome) = true := by
            simpa using List.findSome?_eq_none_iff.1 hclass
          rw [if_neg hany]
          rfl
  | _ => rfl

end Stmt

namespace SourceFile

/-- The edit of the first class is refused for the reason that the class gives, or for want of a
class. -/
theorem reason?_onFirstClass (edit : Edit ClassDecl) (f : SourceFile) :
    Edit.reason? (onFirstClass edit f) = f.firstClass.elim (some .notFound) fun c =>
      Edit.reason? (edit c) := by
  have hreason : (f.stmts.findSome? (Stmt.editFirstClass? edit)).map Edit.reason? =
      f.firstClass.map fun c => Edit.reason? (edit c) := by
    rw [firstClass, List.map_findSome?, List.map_findSome?]
    exact congrArg (List.findSome? · f.stmts) (funext (Stmt.reason?_editFirstClass? edit))
  rw [onFirstClass, Edit.reason?_map, Edit.reason?_atFirst]
  cases hclass : f.firstClass <;> cases hedit : f.stmts.findSome? (Stmt.editFirstClass? edit) <;>
    simp_all

/-- The statements that a new import is put among: those of the namespace that takes it,
or those of the file. -/
def importScope (f : SourceFile) : List Stmt :=
  (f.importNamespace?.bind fun i => f.stmts[i]?.bind Stmt.namespace?).elim f.stmts (·.stmts)

/-- Whether the class is imported under the local name where a new import would be put. -/
def importsAs (f : SourceFile) (path : String) (localName : Option String) : Bool :=
  f.importScope.any (·.importsAs path localName)

theorem importNamespace?_eq (f : SourceFile) : f.importNamespace? =
    ((f.stmts.map Stmt.holdsClass?).findIdx? (· == some true)).or
      ((f.stmts.map Stmt.holdsClass?).findIdx? (·.isSome)) := by
  rw [importNamespace?, List.findIdx?_map, List.findIdx?_map]
  congr 2
  · funext s
    cases s <;> simp [Stmt.isNamespaceOfClass, Stmt.holdsClass?, Stmt.namespace?]
  · funext s
    cases s <;> rfl

/-- A file has no namespace, or one of its namespaces takes the imports. -/
theorem importScope_cases (f : SourceFile) :
    (f.importNamespace? = none ∧ (∀ s ∈ f.stmts, s.holdsClass? = none) ∧ f.importScope = f.stmts) ∨
      ∃ i n, f.importNamespace? = some i ∧ f.stmts[i]? = some (.namespace_ n) ∧
        f.importScope = n.stmts := by
  cases hi : f.importNamespace? with
  | none =>
      have hnone := hi
      rw [importNamespace?_eq, Option.or_eq_none_iff, List.findIdx?_eq_none_iff,
        List.findIdx?_eq_none_iff] at hnone
      exact .inl ⟨rfl, by simpa using hnone.2, by simp [importScope, hi]⟩
  | some i =>
      have hplace := hi
      rw [importNamespace?_eq, Option.or_eq_some_iff] at hplace
      have hsome : ∃ b, (f.stmts.map Stmt.holdsClass?)[i]? = some (some b) := by
        rcases hplace with h | ⟨-, h⟩ <;>
          obtain ⟨hlt, htest, -⟩ := List.findIdx?_eq_some_iff_getElem.1 h
        · exact ⟨true, by rw [List.getElem?_eq_getElem hlt, beq_iff_eq.1 htest]⟩
        · obtain ⟨b, hb⟩ := Option.isSome_iff_exists.1 htest
          exact ⟨b, by rw [List.getElem?_eq_getElem hlt, hb]⟩
      obtain ⟨b, hb⟩ := hsome
      obtain ⟨s, hs, hholds⟩ := Option.map_eq_some_iff.1 (List.getElem?_map ▸ hb)
      obtain ⟨n, hn, -⟩ := Option.map_eq_some_iff.1 hholds
      obtain rfl := Stmt.eq_namespace hn
      exact .inr ⟨i, n, rfl, hs, by simp [importScope, hi, hs, Stmt.namespace?]⟩

theorem importScope_of_none {f : SourceFile} (h : ∀ s ∈ f.stmts, s.holdsClass? = none) :
    f.importNamespace? = none ∧ f.importScope = f.stmts := by
  have hnone : f.importNamespace? = none := by
    rw [importNamespace?_eq, Option.or_eq_none_iff, List.findIdx?_eq_none_iff,
      List.findIdx?_eq_none_iff]
    constructor <;> simp +contextual [h]
  exact ⟨hnone, by simp [importScope, hnone]⟩

theorem reason?_importInto (path : String) (localName : Option String) (ss : List Stmt) :
    Edit.reason? (importInto path localName ss) =
      if ss.any (·.importsAs path localName) then some .duplicate else none := by
  unfold importInto
  split <;> rfl

theorem reason?_addImport (path : String) (localName : Option String) (f : SourceFile) :
    Edit.reason? (addImport path localName f) =
      if f.importsAs path localName then some .duplicate else none := by
  rw [importsAs, ← reason?_importInto]
  rcases f.importScope_cases with ⟨hi, -, hscope⟩ | ⟨i, n, hi, hn, hscope⟩
  · simp [addImport, hi, hscope, Edit.reason?_map]
  · simp [addImport, hi, hn, hscope, Stmt.namespace?, Edit.reason?_map]

/-- An import that is added goes where it will be looked for. -/
theorem addImport_importScope {path : String} {localName : Option String} {f f' : SourceFile}
    (h : addImport path localName f = .ok f') :
    importInto path localName f.importScope = .ok f'.importScope := by
  have hplaced {ss ss' : List Stmt} (hss : importInto path localName ss = .ok ss')
      {γ : Type} (g : Stmt → γ)
      (hg : ∀ t s, g (Spaced.mapTrivia t s) = g s) :
      Splices [] [g (.import_ (.single (bareName path) localName))] (ss.map g) (ss'.map g) := by
    rw [importInto_eq_ok hss]
    exact splices_insertSpaced hg (importPosition_le ss) _
  rcases f.importScope_cases with ⟨hi, hold, hscope⟩ | ⟨i, n, hi, hn, hscope⟩
  · simp only [addImport, hi, Option.bind_none] at h
    obtain ⟨ss', hss', rfl⟩ := map_eq_ok h
    have hnone : ∀ s ∈ ss', s.holdsClass? = none := by
      have hnew := (hplaced hss' Stmt.holdsClass? Stmt.holdsClass?_mapTrivia).forall_mem
        (P := (· = none)) (by simpa using hold) (by simp [Stmt.holdsClass?, Stmt.namespace?])
      simpa using hnew
    rw [hscope, (importScope_of_none (f := { f with stmts := ss' }) hnone).2]
    exact hss'
  · simp only [addImport, hi, hn, Option.bind_some, Stmt.namespace?, Option.map_some] at h
    obtain ⟨ss', hss', rfl⟩ := map_eq_ok h
    have hclass : ss'.any (·.class?.isSome) = n.stmts.any (·.class?.isSome) := by
      obtain ⟨front, back, hold, hnew⟩ :=
        hplaced hss' (fun s => s.class?.isSome) (by intro t s; cases s <;> rfl)
      have hany (xs : List Stmt) : xs.any (·.class?.isSome) =
          (xs.map (·.class?.isSome)).any id := by
        rw [List.any_map]
        rfl
      rw [hany, hany, hold, hnew]
      simp [Stmt.class?]
    let f' : SourceFile := { f with stmts := f.stmts.set i (.namespace_ { n with stmts := ss' }) }
    have hsame : f'.stmts.map Stmt.holdsClass? = f.stmts.map Stmt.holdsClass? := by
      obtain ⟨front, back, hold, hnew⟩ :=
        (splices_set hn (.namespace_ { n with stmts := ss' })).map Stmt.holdsClass?
      rw [hold, hnew]
      simp [Stmt.holdsClass?, Stmt.namespace?, hclass]
    have hi' : f'.importNamespace? = some i := by
      rw [importNamespace?_eq, hsame, ← importNamespace?_eq, hi]
    have hlt : i < f.stmts.length := (List.getElem?_eq_some_iff.1 hn).1
    have hscope' : f'.importScope = ss' := by
      simp [importScope, hi', f', hlt, Stmt.namespace?]
    rw [hscope, hscope']
    exact hss'

theorem any_namespace_iff (f : SourceFile) :
    f.stmts.any (·.namespace?.isSome) ↔ f.headings ≠ [] := by
  rw [headings, ne_eq, List.filterMap_eq_nil_iff]
  simp [Stmt.heading?, Option.isSome_iff_ne_none]

theorem reason?_addNamespace (name : String) (f : SourceFile) :
    Edit.reason? (addNamespace name f) = if f.headings = [] then none else some .duplicate := by
  unfold addNamespace
  by_cases h : f.headings = []
  · rw [if_pos h, if_neg (mt (any_namespace_iff f).1 (not_not_intro h))]
    rfl
  · rw [if_neg h, if_pos ((any_namespace_iff f).2 h)]
    rfl

/-- The second file has all that the first one has: its class declares as much, it has a namespace
if the first has one, and it imports as much where imports are looked for. -/
structure Within (f f' : SourceFile) : Prop where
  firstClass : Option.Rel ClassDecl.Within f.firstClass f'.firstClass
  headings : f.headings ≠ [] → f'.headings ≠ []
  imports : ∀ path localName, f.importsAs path localName → f'.importsAs path localName

namespace Within

variable {f f' f'' : SourceFile}

theorem refl (f : SourceFile) : f.Within f := by
  refine ⟨?_, id, fun _ _ => id⟩
  cases f.firstClass with
  | none => exact .none
  | some c => exact .some (.refl c)

theorem trans (h : f.Within f') (h' : f'.Within f'') : f.Within f'' := by
  refine ⟨?_, h'.headings ∘ h.headings, fun p l => h'.imports p l ∘ h.imports p l⟩
  have hfirst := h.firstClass
  have hfirst' := h'.firstClass
  revert hfirst hfirst'
  generalize f.firstClass = c, f'.firstClass = c', f''.firstClass = c''
  rintro (⟨hc⟩ | _) (⟨hc'⟩ | _)
  · exact .some (hc.trans hc')
  · exact .none

theorem firstClass_of_bare_eq
    (h : f'.firstClass.map ClassDecl.bare = f.firstClass.map ClassDecl.bare) :
    Option.Rel ClassDecl.Within f.firstClass f'.firstClass := by
  cases hc : f.firstClass <;> cases hc' : f'.firstClass <;> rw [hc, hc'] at h
  · exact .none
  · cases h
  · cases h
  · exact .some (.of_bare_eq (Option.some.inj h))

/-- Where a class is imported depends on what each statement, and each namespace, imports and
holds. -/
theorem importsAs_congr {path : String} {localName : Option String}
    (h : f'.stmts.map (Stmt.importView path localName) =
      f.stmts.map (Stmt.importView path localName)) :
    f'.importsAs path localName = f.importsAs path localName := by
  have hview (g : SourceFile) : g.importsAs path localName =
      (g.importNamespace?.bind fun i => (g.stmts.map (Stmt.importView path localName))[i]?.bind
        (·.inside?)).getD
        ((g.stmts.map (Stmt.importView path localName)).any (·.itself)) := by
    rcases g.importScope_cases with ⟨hi, -, hscope⟩ | ⟨i, n, hi, hn, hscope⟩
    · simp [importsAs, hi, hscope, Stmt.importView, Function.comp_def]
    · simp [importsAs, hi, hn, hscope, Stmt.importView, Stmt.namespace?]
  have hplace (g : SourceFile) : g.stmts.map Stmt.holdsClass? =
      (g.stmts.map (Stmt.importView path localName)).map (·.holdsClass?) := by
    simp [Stmt.importView]
  rw [hview, hview, importNamespace?_eq, importNamespace?_eq, hplace, hplace, h]

/-- A class in the place of another one leaves the imports where they are. -/
theorem importsAs_of_classReplaced {c c' : ClassDecl} (h : Scoped (Stmt.ClassReplaced c c') f f')
    (path : String) (localName : Option String) :
    f'.importsAs path localName = f.importsAs path localName := by
  have hlist {ss ss' : List Stmt} (hss : Stmt.ClassReplaced c c' ss ss') (p : Stmt → Bool)
      (hp : p (.class_ c) = p (.class_ c')) : ss'.any p = ss.any p := by
    obtain ⟨front, back, rfl, rfl⟩ := hss
    simp [hp]
  apply importsAs_congr
  cases h with
  | @own f ss ss' hss =>
      obtain ⟨front, back, rfl, rfl⟩ := hss
      simp [Stmt.importView, Stmt.holdsClass?, Stmt.namespace?, Stmt.importsAs, Stmt.import?]
  | @inside f front n back ss ss' hss =>
      have hinside := hlist hss (·.importsAs path localName) rfl
      have hholds := hlist hss (·.class?.isSome) rfl
      have hself (m : NamespaceDecl) : (Stmt.namespace_ m).importsAs path localName = false := rfl
      simp [Stmt.importView, Stmt.holdsClass?, Stmt.namespace?, hinside, hholds, hself]

theorem onFirstClass {has : ClassDecl → Prop} {edit : Edit ClassDecl}
    (hedit : ClassDecl.AddsOnce has edit) (h : onFirstClass edit f = .ok f') :
    f.Within f' ∧ Edit.reason? (SourceFile.onFirstClass edit f') = some .duplicate := by
  obtain ⟨c, c', hc, hfirst, hfirst', hscoped⟩ := onFirstClass_eq_ok h
  obtain ⟨-, -, -, -, -, -, hheadings⟩ := onFirstClass_contents h
  obtain ⟨hhas, hwithin⟩ := hedit.of_ok hc
  refine ⟨⟨by
    rw [hfirst, hfirst']; exact .some hwithin, fun hf => hheadings ▸ hf, fun p l hf => ?_⟩, ?_⟩
  · rw [importsAs_of_classReplaced hscoped, hf]
  · rw [reason?_onFirstClass, hfirst']
    exact hedit.refused hhas

/-- An import that was added is a duplicate the next time. -/
theorem addImport {path : String} {localName : Option String}
    (hpath : bareName (bareName path) = bareName path)
    (h : SourceFile.addImport path localName f = .ok f') :
    f.Within f' ∧ Edit.reason? (SourceFile.addImport path localName f') = some .duplicate := by
  obtain ⟨hcontents, hheadings⟩ := addImport_contents h
  have hscope := importInto_eq_ok (addImport_importScope h)
  have hsplices (p : String) (l : Option String) :=
    splices_insertSpaced (Stmt.importsAs_mapTrivia p l)
    (importPosition_le f.importScope) (.import_ (.single (bareName path) localName))
  have hany (g : SourceFile) (p : String) (l : Option String) :
      g.importsAs p l = (g.importScope.map (·.importsAs p l)).any id := by
    simp [importsAs]
  refine ⟨⟨firstClass_of_bare_eq hcontents.firstClass_eq, fun hf => hheadings ▸ hf, ?_⟩, ?_⟩
  · intro p l hf
    rw [hany] at hf ⊢
    obtain ⟨front, back, hold, hnew⟩ := hsplices p l
    rw [hold] at hf
    rw [hscope, hnew]
    simp only [List.any_append, List.append_nil, Bool.or_eq_true] at hf ⊢
    exact hf.imp .inl id
  · rw [reason?_addImport, hany, hscope]
    obtain ⟨front, back, -, hnew⟩ := hsplices path localName
    have hitself : (Stmt.import_ (.single (bareName path) localName)).importsAs path localName =
        true := by
      simp [Stmt.importsAs, Stmt.import?, Import.single, Import.importsClass, Import.fullPath,
        sameSymbol, hpath]
    rw [hnew, hitself]
    simp

/-- What a file imported is looked for in the namespace that all its imports were put into. -/
theorem importsAs_addNamespace {name : String} (h : SourceFile.addNamespace name f = .ok f')
    {path : String} {localName : Option String} (hf : f.importsAs path localName) :
    f'.importsAs path localName := by
  unfold SourceFile.addNamespace at h
  split at h
  next => cases h
  next hnone =>
    cases h
    have hstmts : ∀ s ∈ f.stmts, s.namespace? = none := by simpa using hnone
    let front := f.stmts.take (leadingDeclares f.stmts)
    let back := f.stmts.drop (leadingDeclares f.stmts)
    let inner := back.modifyHead (Spaced.mapTrivia fun t => { t with blankBefore := some true })
    let n : NamespaceDecl := ⟨.empty, some (bareName name), false, inner, []⟩
    let f' : SourceFile := { f with stmts := front ++ [.namespace_ n] }
    have hscope : f'.importScope = inner := by
      rcases f'.importScope_cases with ⟨-, hholds, -⟩ | ⟨i, n', -, hn', hscope'⟩
      · exact absurd (hholds (.namespace_ n) (by simp [f']))
          (by simp [Stmt.holdsClass?, Stmt.namespace?])
      · rcases List.mem_append.1 (List.mem_of_getElem? hn') with hfront | hlast
        · cases hstmts _ (List.mem_of_mem_take hfront)
        · cases List.mem_singleton.1 hlast
          exact hscope'
    have hfile : f.importScope = f.stmts :=
      (importScope_of_none fun s hs => by simp [Stmt.holdsClass?, hstmts s hs]).2
    have hfront : front.any (·.importsAs path localName) = false := by
      refine List.any_eq_false.2 fun s hs => ?_
      have hdeclare : s.isDeclare := by
        have htake : front = f.stmts.takeWhile Stmt.isDeclare :=
          (List.prefix_iff_eq_take.1 (List.takeWhile_prefix _)).symm
        exact List.all_eq_true.1 List.all_takeWhile s (htake ▸ hs)
      cases s <;> simp [Stmt.isDeclare, Stmt.importsAs, Stmt.import?] at hdeclare ⊢
    have hback : inner.map (·.importsAs path localName) = back.map (·.importsAs path localName) :=
      Respaced.map_eq (Stmt.importsAs_mapTrivia path localName) (.inr ⟨fun _ => some true, rfl⟩)
    have hany (ss : List Stmt) :
        ss.any (·.importsAs path localName) = (ss.map (·.importsAs path localName)).any id := by
      simp
    rw [importsAs, hfile, ← List.take_append_drop (leadingDeclares f.stmts) f.stmts,
      List.any_append] at hf
    change f'.importsAs path localName
    rw [importsAs, hscope, hany, hback, ← hany]
    simpa [front, back, hfront] using hf

theorem addNamespace {name : String} (h : SourceFile.addNamespace name f = .ok f') :
    f.Within f' ∧ Edit.reason? (SourceFile.addNamespace name f') = some .duplicate := by
  obtain ⟨hcontents, hheadings⟩ := addNamespace_contents h
  have hnamed : f'.headings ≠ [] := by simp [hheadings]
  have hfirst : f'.firstClass.map ClassDecl.bare = f.firstClass.map ClassDecl.bare := by
    rw [← head?_classes, ← head?_classes, hcontents]
  refine ⟨⟨firstClass_of_bare_eq hfirst, fun _ => hnamed, fun p l hf =>
    importsAs_addNamespace h hf⟩, ?_⟩
  rw [reason?_addNamespace, if_neg hnamed]

end Within

end SourceFile

/-- The leading backslash is taken off once, so a name with one of them is bare at once. -/
theorem bareName_bareName {name : String} (h : ¬"\\\\".toList.isPrefixOf name.toList) :
    bareName (bareName name) = bareName name := by
  rcases hname : name.toList with _ | ⟨c, cs⟩
  · simp [bareName, hname]
  · by_cases hc : c = '\\'
    · subst hc
      have hbare : bareName name = String.ofList cs := by simp [bareName, hname]
      have hcs : ∀ r, cs ≠ '\\' :: r := by
        rintro r rfl
        exact h (by rw [hname]; simp)
      rw [hbare, bareName, String.toList_ofList]
      split
      next r => exact absurd rfl (hcs r)
      next => rfl
    · have hbare : bareName name = name := by
        rw [bareName, hname]
        split
        next r hr => exact absurd (List.cons.inj hr).1 hc
        next => rfl
      rw [hbare, hbare]

namespace Operation

/-- The additions that look for what they add. An import with two separators before its path does
not: it is added without the first and looked for without it, and then it has another one. -/
def isRepeatable : Operation → Bool
  | addImport path _ => !"\\\\".toList.isPrefixOf path.toList
  | op => op.isAddition

def skipReason (op : Operation) (f : SourceFile) : SkipReason :=
  if op.classEdit?.isSome && f.firstClass.isNone then .notFound else .duplicate

/-- The addition is refused, for the reason there is. -/
def IsDone (op : Operation) (f : SourceFile) : Prop :=
  Edit.reason? (op.edit f) = some (op.skipReason f)

/-- An addition is about the first class, or it adds an import or a namespace. -/
theorem isRepeatable_cases {op : Operation} (hop : op.isRepeatable) :
    (∃ edit has, op.classEdit? = some edit ∧ ClassDecl.AddsOnce has edit) ∨
      (∃ path localName, op = addImport path localName ∧ bareName (bareName path) = bareName path) ∨
        ∃ name, op = addNamespace name := by
  cases op with
  | addMixin name =>
      exact .inl ⟨_, _, rfl, ClassDecl.addsOnce_addUnless (Member.mixinIdx? name)
        (by simp [Member.mixinIdx?, sameSymbol])⟩
  | addField spec =>
      exact .inl ⟨_, _, rfl, ClassDecl.addsOnce_addUnless (Member.fieldIdx? spec.name)
        (by simp [Member.fieldIdx?])⟩
  | addConstant name value visibility =>
      exact .inl ⟨_, _, rfl, ClassDecl.addsOnce_addUnless (Member.constantIdx? name)
        (by simp [Member.constantIdx?])⟩
  | addRoutine spec =>
      exact .inl
        ⟨_, _, rfl, ClassDecl.addsOnce_addRoutine (by simpa [isRepeatable, isAddition] using hop)⟩
  | implementInterface interface => exact .inl ⟨_, _, rfl, ClassDecl.addsOnce_implement interface⟩
  | addImport path localName =>
      exact .inr
        (.inl
          ⟨_, _, rfl,
            bareName_bareName
              (by simpa only [isRepeatable, Bool.not_eq_true', Bool.not_eq_true] using hop)⟩)
  | addNamespace name => exact .inr (.inr ⟨_, rfl⟩)
  | _ => cases hop

variable {op : Operation} {f f' : SourceFile}

/-- There is one reason for which an addition is refused. -/
theorem IsDone.of_refused (hop : op.isRepeatable) (reason : SkipReason)
    (h : Edit.reason? (op.edit f) = some reason) : op.IsDone f := by
  suffices reason = op.skipReason f by rw [IsDone, h, this]
  rcases isRepeatable_cases hop with ⟨edit, has, hclass, hadds⟩ | ⟨path, localName,
    rfl, -⟩ | ⟨name, rfl⟩
  · rw [edit_of_classEdit? hclass, SourceFile.reason?_onFirstClass] at h
    cases hfirst : f.firstClass with
    | none => simpa [skipReason, hclass, hfirst] using h.symm
    | some c =>
        rw [hfirst, Option.elim_some] at h
        by_cases hc : has c
        · simpa [skipReason, hfirst, hadds.refused hc] using h.symm
        · obtain ⟨c', hc', -⟩ := hadds.added hc
          simp [hc', Edit.reason?] at h
  · rw [edit, SourceFile.reason?_addImport] at h
    split at h <;> cases h
    rfl
  · rw [edit, SourceFile.reason?_addNamespace] at h
    split at h <;> cases h
    rfl

/-- An addition that is done stays done as long as nothing is taken away. -/
theorem IsDone.within (hop : op.isRepeatable) (h : op.IsDone f) (hwithin : f.Within f') :
    op.IsDone f' := by
  rw [IsDone] at h
  rcases isRepeatable_cases hop with ⟨edit, has, hclass, hadds⟩ | ⟨path, localName,
    rfl, -⟩ | ⟨name, rfl⟩
  · rw [edit_of_classEdit? hclass, SourceFile.reason?_onFirstClass] at h
    have hfirst := hwithin.firstClass
    cases hf : f.firstClass with
    | none =>
        cases hf' : f'.firstClass with
        | some c' => rw [hf, hf'] at hfirst; cases hfirst
        | none =>
            refine .of_refused hop .notFound ?_
            rw [edit_of_classEdit? hclass, SourceFile.reason?_onFirstClass, hf', Option.elim_none]
    | some c =>
        cases hf' : f'.firstClass with
        | none => rw [hf, hf'] at hfirst; cases hfirst
        | some c' =>
            rw [hf, hf', Option.rel_some_some] at hfirst
            refine .of_refused hop .duplicate ?_
            rw [edit_of_classEdit? hclass, SourceFile.reason?_onFirstClass, hf', Option.elim_some]
            by_cases hhas : has c
            · exact hadds.refused (hadds.stays hhas hfirst)
            · obtain ⟨d, hd, -⟩ := hadds.added hhas
              simp [hf, hd, Edit.reason?] at h
  · rw [edit, SourceFile.reason?_addImport] at h
    refine .of_refused hop .duplicate ?_
    rw [edit, SourceFile.reason?_addImport]
    by_cases himports : f.importsAs path localName
    · rw [if_pos (hwithin.imports _ _ himports)]
    · rw [if_neg himports] at h
      cases h
  · rw [edit, SourceFile.reason?_addNamespace] at h
    refine .of_refused hop .duplicate ?_
    rw [edit, SourceFile.reason?_addNamespace]
    by_cases hheadings : f.headings = []
    · rw [if_pos hheadings] at h
      cases h
    · rw [if_neg (hwithin.headings hheadings)]

/-- An addition takes nothing away, and it is done. -/
theorem apply_isDone (hop : op.isRepeatable) (f : SourceFile) :
    f.Within (op.apply f).1 ∧ op.IsDone (op.apply f).1 := by
  cases hedit : op.edit f with
  | error reason =>
      have hsame : (op.apply f).1 = f := by rw [apply, Edit.apply, hedit]
      rw [hsame]
      exact ⟨.refl f, .of_refused hop reason (by rw [hedit]; rfl)⟩
  | ok f' =>
      have happlied : (op.apply f).1 = f' := by rw [apply, Edit.apply, hedit]
      have hagain : f.Within f' ∧ Edit.reason? (op.edit f') = some .duplicate := by
        rcases isRepeatable_cases hop with ⟨edit, has, hclass, hadds⟩ | ⟨path, localName, rfl,
          hpath⟩ | ⟨name, rfl⟩
        · rw [edit_of_classEdit? hclass] at hedit ⊢
          exact SourceFile.Within.onFirstClass hadds hedit
        · exact SourceFile.Within.addImport hpath hedit
        · exact SourceFile.Within.addNamespace hedit
      rw [happlied]
      exact hagain.imp id (.of_refused hop .duplicate)

theorem IsDone.apply_eq (h : op.IsDone f) : op.apply f = (f, .skipped (op.skipReason f)) :=
  Edit.apply_of_reason? h

end Operation

end ClassEdit
