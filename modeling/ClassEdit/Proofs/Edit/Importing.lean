import ClassEdit.Edit.Request
import ClassEdit.Proofs.Edit.Repeating
import ClassEdit.Proofs.Edit.Splitting

/-!
Imports as one sequence. What a list of statements imports is read as a sequence of symbols, with
the base of a group put before each of its names. Adding an import puts one class behind the others
of one list, and removing one takes the first class of that path out of the file, its own statements
before those of its namespaces. What functions and constants are imported stays.
-/

namespace ClassEdit

theorem takeWhile_prefix_of_not {α : Type} {p : α → Bool} (front : List α) {x : α} (back : List α)
    (hx : p x = false) : (front ++ x :: back).takeWhile p <+: front := by
  rw [List.takeWhile_append]
  split
  · simp [hx]
  · exact List.takeWhile_prefix p

/-- An imported symbol: its kind, its whole path without a leading separator, and its local name. -/
structure ImportedSymbol where
  kind : ImportKind
  path : String
  localName : Option String
deriving DecidableEq

def ImportedSymbol.isClass (path : String) (x : ImportedSymbol) : Bool :=
  x.kind == .class_ && x.path == path

namespace Import

/-- The kind of an item: its own in a group of several kinds, else that of the statement. -/
def kindOf (i : Import) (item : ImportItem) : ImportKind :=
  if i.kind = .class_ then item.kind.getD .class_ else i.kind

def symbol (i : Import) (item : ImportItem) : ImportedSymbol :=
  ⟨i.kindOf item, bareName (i.fullPath item), item.localName⟩

def symbols (i : Import) : List ImportedSymbol :=
  i.items.map i.symbol

theorem importsClass_eq (i : Import) (item : ImportItem) :
    i.importsClass item = (i.kindOf item == .class_) := by
  unfold importsClass kindOf
  cases i.kind <;> simp

theorem isClass_symbol (path : String) (i : Import) (item : ImportItem) :
    (i.symbol item).isClass (bareName path) =
      (i.importsClass item && sameSymbol (i.fullPath item) path) := by
  rw [importsClass_eq]
  rfl

theorem symbols_eraseIdx (i : Import) (j : Nat) :
    symbols { i with items := i.items.eraseIdx j } = i.symbols.eraseIdx j :=
  (List.eraseIdx_map i.symbol i.items j).symm

end Import

namespace Stmt

def imported (s : Stmt) : List ImportedSymbol :=
  s.import?.elim [] Import.symbols

def innerImported (s : Stmt) : List ImportedSymbol :=
  s.namespace?.elim [] (·.stmts.flatMap imported)

theorem imported_mapTrivia (f : Trivia → Trivia) (s : Stmt) :
    (Spaced.mapTrivia f s).imported = s.imported := by
  cases s <;> rfl

theorem innerImported_mapTrivia (f : Trivia → Trivia) (s : Stmt) :
    (Spaced.mapTrivia f s).innerImported = s.innerImported := by
  cases s <;> rfl

/-- A class is looked for among what the statement imports. -/
theorem importedIdx?_eq (path : String) (s : Stmt) :
    s.importedIdx? path = s.imported.findIdx? (·.isClass (bareName path)) := by
  cases s with
  | import_ i =>
    simp only [importedIdx?, imported, import?, Option.bind_some, Option.elim_some, Import.symbols,
      List.findIdx?_map]
    congr 1
    funext item
    exact (i.isClass_symbol path item).symm
  | _ => rfl

theorem importsAs_iff {path : String} {localName : Option String} {s : Stmt} :
    s.importsAs path localName ↔ ⟨.class_, bareName path, localName⟩ ∈ s.imported := by
  cases s with
  | import_ i =>
    simp [importsAs, imported, import?, Import.symbols, Import.symbol, Import.importsClass_eq,
      sameSymbol, and_assoc]
  | _ => simp [importsAs, imported, import?]

end Stmt

/-- A new import goes behind all others and behind the leading declarations. -/
theorem importPosition_split (ss : List Stmt) :
    ∃ front back, ss = front ++ back ∧ front.length = importPosition ss ∧
      (∀ s ∈ back, s.import? = none) ∧
      ss.takeWhile Stmt.isDeclare <+: front := by
  unfold importPosition
  cases hlast : lastIdx? (fun s : Stmt => s.import?.isSome) ss with
  | some i =>
    obtain ⟨front, s, back, rfl, rfl, hs, hback⟩ := lastIdx?_eq_some_split hlast
    have hother : s.isDeclare = false := by
      cases s <;> first | rfl | cases hs
    refine ⟨front ++ [s], back, by simp, by simp, by simpa using hback, ?_⟩
    exact (takeWhile_prefix_of_not front back hother).trans (List.prefix_append _ _)
  | none =>
    have hnone : ∀ s ∈ ss, s.import? = none := by simpa using lastIdx?_eq_none hlast
    cases hfirst : ss.findIdx? (·.class?.isSome) with
    | some i =>
      obtain ⟨front, s, back, rfl, rfl, hs, -⟩ := findIdx?_eq_some_split hfirst
      have hother : s.isDeclare = false := by
        cases s <;> first | rfl | cases hs
      exact ⟨front, s :: back, rfl, rfl, fun x hx => hnone x (List.mem_append_right _ hx),
        takeWhile_prefix_of_not front back hother⟩
    | none =>
      have htake := List.prefix_iff_eq_take.1 (List.takeWhile_prefix (l := ss) Stmt.isDeclare)
      refine ⟨ss.take (leadingDeclares ss), ss.drop (leadingDeclares ss), by simp, ?_, ?_, ?_⟩
      · exact List.length_take_of_le (leadingDeclares_le ss)
      · exact fun x hx => hnone x (List.mem_of_mem_drop hx)
      · exact htake ▸ List.prefix_refl _

/-- The second list is the first with the import of a class put in, behind all other imports and not
before a leading declaration. -/
structure ImportAdded (new : ImportedSymbol) (ss ss' : List Stmt) : Prop where
  imported : ss'.flatMap Stmt.imported = ss.flatMap Stmt.imported ++ [new]
  place : ∃ front back back', ss = front ++ back ∧
    ss' = front ++ .import_ (.single new.path new.localName) :: back' ∧ Respaced back back' ∧
      ss.takeWhile Stmt.isDeclare <+: front

/-- The second list is the first without one imported symbol. The statement goes with its last
symbol. -/
inductive ImportDropped : List Stmt → List Stmt → Prop where
  | symbol (front : List Stmt) (i : Import) (back : List Stmt) {j : Nat} (hj : j < i.items.length)
      (hmore : i.items.length ≠ 1) :
      ImportDropped (front ++ .import_ i :: back)
        (front ++ .import_ { i with items := i.items.eraseIdx j } :: back)
  | statement (front : List Stmt) (i : Import) {back back' : List Stmt} (hone : i.items.length = 1)
      (hback : Respaced back back') : ImportDropped (front ++ .import_ i :: back) (front ++ back')

theorem ImportDropped.innerImported_eq {ss ss' : List Stmt} (h : ImportDropped ss ss') :
    ss'.flatMap Stmt.innerImported = ss.flatMap Stmt.innerImported := by
  cases h with
  | symbol => simp [Stmt.innerImported, Stmt.namespace?]
  | statement front i hone hback =>
    rw [List.flatMap_append, hback.flatMap_eq Stmt.innerImported_mapTrivia]
    simp [Stmt.innerImported, Stmt.namespace?]

namespace SourceFile

/-- The new import stands behind all the others and behind the declarations at the top. -/
theorem importAdded_insertSpaced {path : String} (hpath : bareName (bareName path) = bareName path)
    (localName : Option String) (ss : List Stmt) :
    ImportAdded ⟨.class_, bareName path, localName⟩ ss
      (insertSpaced ss (importPosition ss) (.import_ (.single (bareName path) localName))) := by
  obtain ⟨front, back, hss, hlen, hback, hdeclares⟩ := importPosition_split ss
  obtain ⟨back', hnew, hgap⟩ :=
    insertSpaced_split front (.import_ (.single (bareName path) localName)) back
  rw [← hss, hlen] at hnew
  have hnone : back.flatMap Stmt.imported = [] := by
    rw [List.flatMap_eq_nil_iff]
    intro s hs
    rw [Stmt.imported, hback s hs]
    rfl
  refine ⟨?_, front, back, back', hss, hnew, hgap, hdeclares⟩
  rw [hnew, List.flatMap_append, List.flatMap_cons, hgap.flatMap_eq Stmt.imported_mapTrivia, hnone]
  conv => rhs; rw [hss, List.flatMap_append, hnone]
  simp [Stmt.imported, Stmt.import?, Import.symbols, Import.symbol, Import.single, Import.kindOf,
    Import.fullPath, hpath]

/-- An import is put into a list unless the class is imported there under that name. -/
theorem importInto_eq {path : String} (hpath : bareName (bareName path) = bareName path)
    (localName : Option String) (ss : List Stmt) :
    (⟨.class_, bareName path, localName⟩ ∈ ss.flatMap Stmt.imported ∧
        importInto path localName ss = .error .duplicate) ∨
      (⟨.class_, bareName path, localName⟩ ∉ ss.flatMap Stmt.imported ∧
        ∃ ss', importInto path localName ss = .ok ss' ∧
          ImportAdded ⟨.class_, bareName path, localName⟩ ss ss') := by
  have hany : ss.any (·.importsAs path localName) ↔
      ⟨.class_, bareName path, localName⟩ ∈ ss.flatMap Stmt.imported := by
    simp [List.mem_flatMap, Stmt.importsAs_iff]
  unfold importInto
  split
  next hin => exact .inl ⟨hany.1 hin, rfl⟩
  next hout => exact .inr ⟨mt hany.2 hout, _, rfl, importAdded_insertSpaced hpath localName ss⟩

/-- The symbol that is found goes, with its statement if that has no other. -/
theorem removeImportFrom_at {path : String} {front : List Stmt} {s : Stmt}
    (back : List Stmt) {j : Nat} (hfront : ∀ r ∈ front, r.importedIdx? path = none)
    (hs : s.importedIdx? path = some j) :
    ∃ ss', removeImportFrom path (front ++ s :: back) = .ok ss' ∧
      ImportDropped (front ++ s :: back) ss' ∧
      ss'.flatMap Stmt.imported =
        front.flatMap Stmt.imported ++ (s.imported.eraseIdx j ++ back.flatMap Stmt.imported) := by
  have hlt : j < s.imported.length :=
    (List.findIdx?_eq_some_iff_getElem.1 (Stmt.importedIdx?_eq path s ▸ hs)).1
  have hget : (front ++ s :: back)[front.length]? = some s := by simp
  simp only [removeImportFrom, findIn_behind hfront back hs, hget, Option.bind_some]
  cases s with
  | import_ i =>
    have hlen : (Stmt.imported (.import_ i)).length = i.items.length := List.length_map ..
    by_cases hone : i.items.length = 1
    · obtain ⟨back', hgone, hback⟩ := removeSpaced_split front (.import_ i) back
      refine ⟨_, if_pos hone, hgone ▸ .statement front i hone hback, ?_⟩
      have hleft : (Stmt.imported (.import_ i)).eraseIdx j = [] := by
        rw [← List.length_eq_zero_iff, List.length_eraseIdx_of_lt hlt, hlen, hone]
      rw [hgone, hleft, List.flatMap_append, hback.flatMap_eq Stmt.imported_mapTrivia]
      rfl
    · refine ⟨_, if_neg hone, ?_, ?_⟩
      · simpa using ImportDropped.symbol front i back (hlen ▸ hlt) hone
      · simp [Stmt.imported, Stmt.import?, Import.symbols_eraseIdx]
  | _ => cases hlt

/-- Of a list the first class of the path is removed, if there is one. -/
theorem removeImportFrom_eq (path : String) (ss : List Stmt) :
    ((∀ x ∈ ss.flatMap Stmt.imported, x.isClass (bareName path) = false) ∧
        removeImportFrom path ss = .error .notFound) ∨
      ((∃ x ∈ ss.flatMap Stmt.imported, x.isClass (bareName path) = true) ∧
        ∃ ss', removeImportFrom path ss = .ok ss' ∧ ImportDropped ss ss' ∧
          ss'.flatMap Stmt.imported = (ss.flatMap Stmt.imported).eraseP
            (·.isClass (bareName path))) := by
  cases hplace : findIn (Stmt.importedIdx? path) ss with
  | none =>
    refine .inl ⟨fun x hx => ?_, by rw [removeImportFrom, hplace]⟩
    obtain ⟨s, hs, hx⟩ := List.mem_flatMap.1 hx
    have hnone := findIn_eq_none hplace s hs
    rw [Stmt.importedIdx?_eq, List.findIdx?_eq_none_iff] at hnone
    exact hnone x hx
  | some place =>
    obtain ⟨i, j⟩ := place
    obtain ⟨front, s, back, rfl, rfl, hj, hfront⟩ := findIn_eq_some_split hplace
    obtain ⟨ss', hok, hdropped, hleft⟩ := removeImportFrom_at back hfront hj
    simp only [Stmt.importedIdx?_eq] at hj hfront
    obtain ⟨hlt, hclass, -⟩ := List.findIdx?_eq_some_iff_getElem.1 hj
    refine .inr ⟨⟨_, by simp, hclass⟩, ss', hok, hdropped, ?_⟩
    rw [hleft, eraseP_flatMap_split back hfront hj]

theorem removeImportFrom_eq_error {path : String} {ss : List Stmt}
    (h : ∀ x ∈ ss.flatMap Stmt.imported, x.isClass (bareName path) = false) :
    removeImportFrom path ss = .error .notFound := by
  rcases removeImportFrom_eq path ss with ⟨-, hnone⟩ | ⟨⟨x, hx, hclass⟩, -⟩
  · exact hnone
  · rw [h x hx] at hclass
    cases hclass

/-- A file without one of its lists of statements: its own, or that of a namespace. -/
inductive ListHole where
  | own (f : SourceFile)
  | inside (f : SourceFile) (front : List Stmt) (n : NamespaceDecl) (back : List Stmt)

namespace ListHole

def fill : ListHole → List Stmt → SourceFile
  | own f, ss => { f with stmts := ss }
  | inside f front n back, ss =>
      { f with stmts := front ++ .namespace_ { n with stmts := ss } :: back }

/-- What the file imports before the list in the order in which imports are removed. -/
def importedBefore : ListHole → List ImportedSymbol
  | own _ => []
  | inside _ front _ back =>
      (front ++ back).flatMap Stmt.imported ++ front.flatMap Stmt.innerImported

def importedBehind : ListHole → List Stmt → List ImportedSymbol
  | own _, ss => ss.flatMap Stmt.innerImported
  | inside _ _ _ back, _ => back.flatMap Stmt.innerImported

/-- The list is the one that imports are added to: that of the namespace that holds the first class,
and the file's own if there is no namespace. -/
structure TakesImports (hole : ListHole) (f : SourceFile) : Prop where
  ofClass : ∀ front n back, f.stmts = front ++ .namespace_ n :: back →
    (∀ s ∈ front, s.firstClass? = none) →
    (Stmt.namespace_ n).firstClass?.isSome → hole = inside f front n back
  ofFile : (∀ s ∈ f.stmts, s.namespace? = none) → hole = own f

end ListHole

/-- What a file imports: its own statements first, and then its namespaces in order. -/
def imported (f : SourceFile) : List ImportedSymbol :=
  f.stmts.flatMap Stmt.imported ++ f.stmts.flatMap Stmt.innerImported

theorem imported_fill (hole : ListHole) (ss : List Stmt) :
    (hole.fill ss).imported = hole.importedBefore ++
      (ss.flatMap Stmt.imported ++ hole.importedBehind ss) := by
  cases hole <;>
    simp [imported, ListHole.fill, ListHole.importedBefore, ListHole.importedBehind, Stmt.imported,
    Stmt.import?, Stmt.innerImported, Stmt.namespace?]

theorem isNamespaceOfClass_iff {s : Stmt} :
    s.isNamespaceOfClass ↔ ∃ n, s = .namespace_ n ∧ (Stmt.namespace_ n).firstClass?.isSome := by
  cases s <;> simp [Stmt.isNamespaceOfClass, Stmt.namespace?, Stmt.firstClass?]

theorem firstSplit_unique {α : Type} {p : α → Bool} {front front' back back' : List α} {x x' : α}
    (h : front ++ x :: back = front' ++ x' :: back') (hfront : ∀ y ∈ front, p y = false)
    (hx : p x = true) (hfront' : ∀ y ∈ front', p y = false) (hx' : p x' = true) :
    front = front' ∧ x = x' ∧ back = back' := by
  have hlen := findIdx?_behind hfront back hx
  rw [h, findIdx?_behind hfront' back' hx', Option.some.injEq] at hlen
  obtain ⟨hsame, hrest⟩ := List.append_inj h hlen.symm
  exact ⟨hsame, List.cons.inj hrest⟩

section Place

variable {f : SourceFile} {front back : List Stmt} {n : NamespaceDecl}

theorem fill_inside (hstmts : f.stmts = front ++ .namespace_ n :: back) :
    (ListHole.inside f front n back).fill n.stmts = f := by
  rw [ListHole.fill, n.eta, ← hstmts]

theorem addImport_inside (hstmts : f.stmts = front ++ .namespace_ n :: back)
    (hplace : f.importNamespace? = some front.length) (path : String) (localName : Option String) :
    addImport path localName f = (importInto path localName n.stmts).map
      (ListHole.inside f front n back).fill := by
  have hget : f.stmts[front.length]? = some (.namespace_ n) := by simp [hstmts]
  simp only [addImport, hplace, Option.bind_some, hget, Stmt.namespace?, Option.map_some]
  congr 1
  funext ss
  simp [hstmts, ListHole.fill]

/-- The namespace that imports go to is the one of the first class, if that is in a namespace. -/
theorem takesImports_inside (hstmts : f.stmts = front ++ .namespace_ n :: back)
    (hholds : (Stmt.namespace_ n).isNamespaceOfClass)
    (hfront : ∀ s ∈ front, s.isNamespaceOfClass = false) :
    (ListHole.inside f front n back).TakesImports f where
  ofClass := by
    intro front' n' back' hstmts' hfront' hn'
    have hclear : ∀ s ∈ front', s.isNamespaceOfClass = false := by
      intro s hs
      by_contra hclass
      obtain ⟨m, rfl, hm⟩ := isNamespaceOfClass_iff.1 (by simpa using hclass)
      simp [hfront' _ hs] at hm
    obtain ⟨rfl, hsame, rfl⟩ := firstSplit_unique (hstmts.symm.trans hstmts') hfront hholds hclear
      (isNamespaceOfClass_iff.2 ⟨n', rfl, hn'⟩)
    cases hsame
    rfl
  ofFile hnone := by cases hnone (.namespace_ n) (by simp [hstmts])

/-- An import is added to the list of the file that takes imports. -/
theorem exists_takesImports (f : SourceFile) :
    ∃ (hole : ListHole) (ss : List Stmt), f = hole.fill ss ∧ hole.TakesImports f ∧
      ∀ path localName, addImport path localName f =
        (importInto path localName ss).map hole.fill := by
  cases hclass : f.stmts.findIdx? Stmt.isNamespaceOfClass with
  | some i =>
    obtain ⟨front, s, back, hstmts, rfl, hs, hfront⟩ := findIdx?_eq_some_split hclass
    obtain ⟨n, rfl, -⟩ := isNamespaceOfClass_iff.1 hs
    have hplace : f.importNamespace? = some front.length := by
      rw [importNamespace?, hclass, Option.some_or]
    exact ⟨.inside f front n back, n.stmts, (fill_inside hstmts).symm,
      takesImports_inside hstmts hs hfront,
      addImport_inside hstmts hplace⟩
  | none =>
    have hnoClass {front n back} (hstmts : f.stmts = front ++ .namespace_ n :: back)
        (hn : (Stmt.namespace_ n).firstClass?.isSome) : False := by
      have hholds := List.findIdx?_eq_none_iff.1 hclass (.namespace_ n) (by simp [hstmts])
      rw [isNamespaceOfClass_iff.2 ⟨n, rfl, hn⟩] at hholds
      cases hholds
    cases hfirst : f.stmts.findIdx? (·.namespace?.isSome) with
    | some i =>
      obtain ⟨front, s, back, hstmts, rfl, hs, -⟩ := findIdx?_eq_some_split hfirst
      obtain ⟨n, hn⟩ := Option.isSome_iff_exists.1 hs
      obtain rfl := Stmt.eq_namespace hn
      have hplace : f.importNamespace? = some front.length := by
        rw [importNamespace?, hclass, hfirst, Option.none_or]
      refine ⟨.inside f front n back, n.stmts, (fill_inside hstmts).symm, ⟨?_, ?_⟩,
        addImport_inside hstmts hplace⟩
      · exact fun _ _ _ hstmts' _ hn' => (hnoClass hstmts' hn').elim
      · intro hfile
        cases hfile (.namespace_ n) (by simp [hstmts])
    | none =>
      have hplace : f.importNamespace? = none := by
        rw [importNamespace?, hclass, hfirst, Option.none_or]
      refine ⟨.own f, f.stmts, rfl, ⟨?_, fun _ => rfl⟩, fun path localName => ?_⟩
      · exact fun _ _ _ hstmts' _ hn' => (hnoClass hstmts' hn').elim
      · simp only [addImport, hplace, Option.bind_none]
        rfl

end Place

/-- A class that nothing before the list imports is removed from the list. -/
theorem removeImport_fill {path : String} {hole : ListHole} {ss ss' : List Stmt}
    (hbefore : ∀ x ∈ hole.importedBefore, x.isClass (bareName path) = false)
    (h : removeImportFrom path ss = .ok ss') :
    removeImport path (hole.fill ss) = .ok (hole.fill ss') := by
  cases hole with
  | own f => simp only [removeImport, ListHole.fill, h]
  | inside f front n back =>
    have hown : removeImportFrom path (front ++ .namespace_ { n with stmts := ss } :: back) =
      .error .notFound := by
      refine removeImportFrom_eq_error fun x hx => hbefore x (List.mem_append_left _ ?_)
      simpa [Stmt.imported, Stmt.import?] using hx
    simp only [removeImport, ListHole.fill, hown]
    rw [Edit.atFirst_behind (y := .namespace_ { n with stmts := ss' }) _ back]
    · rfl
    · simp [Stmt.namespace?, h, Except.toOption]
    · intro s hs
      cases hn : s.namespace? with
      | none => rfl
      | some m =>
        have hinner : removeImportFrom path m.stmts = .error .notFound := by
          refine removeImportFrom_eq_error fun x hx => hbefore x (List.mem_append_right _ ?_)
          refine List.mem_flatMap.2 ⟨s, hs, ?_⟩
          simpa [Stmt.innerImported, hn] using hx
        simp [hinner, Except.toOption]

/-- What a file imports, one of its lists imports, and nothing before that list. -/
theorem exists_first_list {p : ImportedSymbol → Bool} {f : SourceFile}
    (h : ∃ x ∈ f.imported, p x = true) :
    ∃ (hole : ListHole) (ss : List Stmt), f = hole.fill ss ∧
      (∀ x ∈ hole.importedBefore, p x = false) ∧
      ∃ x ∈ ss.flatMap Stmt.imported, p x = true := by
  by_cases hown : ∃ x ∈ f.stmts.flatMap Stmt.imported, p x = true
  · exact ⟨.own f, f.stmts, rfl, nofun, hown⟩
  · obtain ⟨x, hx, hp⟩ := h
    have hinner : x ∈ f.stmts.flatMap Stmt.innerImported :=
      (List.mem_append.1 hx).resolve_left fun hx => hown ⟨x, hx, hp⟩
    obtain ⟨s, hs, hxs⟩ := List.mem_flatMap.1 hinner
    cases hfirst : f.stmts.findIdx? (·.innerImported.any p) with
    | none =>
      have hnone := List.findIdx?_eq_none_iff.1 hfirst s hs
      rw [List.any_eq_true.2 ⟨x, hxs, hp⟩] at hnone
      cases hnone
    | some i =>
      obtain ⟨front, r, back, hstmts, -, hr, hfront⟩ := findIdx?_eq_some_split hfirst
      obtain ⟨y, hy, hpy⟩ := List.any_eq_true.1 hr
      cases r with
      | namespace_ n =>
        refine ⟨.inside f front n back, n.stmts, (fill_inside hstmts).symm,
          fun z hz => ?_, y, hy, hpy⟩
        -- The file's own statements come first in the search, and they import nothing that fits.
        rcases List.mem_append.1 hz with hz | hz
        · by_contra hpz
          refine hown ⟨z, ?_, by simpa using hpz⟩
          rw [hstmts, List.flatMap_append, List.flatMap_cons]
          simpa [Stmt.imported, Stmt.import?] using hz
        · obtain ⟨t, ht, hzt⟩ := List.mem_flatMap.1 hz
          simpa using List.any_eq_false.1 (hfront t ht) z hzt
      | _ => cases hy

/-- Of a file the first class of the path is removed, if it imports one. -/
theorem removeImport_eq (path : String) (f : SourceFile) :
    ((∀ x ∈ f.imported, x.isClass (bareName path) = false) ∧ removeImport path f =
      .error .notFound) ∨
      ((∃ x ∈ f.imported, x.isClass (bareName path) = true) ∧
        ∃ (hole : ListHole) (ss ss' : List Stmt),
        f = hole.fill ss ∧ ImportDropped ss ss' ∧ removeImport path f = .ok (hole.fill ss') ∧
          (hole.fill ss').imported = f.imported.eraseP (·.isClass (bareName path))) := by
  by_cases hsome : ∃ x ∈ f.imported, x.isClass (bareName path) = true
  · obtain ⟨hole, ss, rfl, hbefore, x, hx, hclass⟩ := exists_first_list hsome
    refine .inr ⟨hsome, ?_⟩
    rcases removeImportFrom_eq path ss with ⟨hnone, -⟩ | ⟨-, ss', hremoved, hdropped, herased⟩
    · rw [hnone x hx] at hclass
      cases hclass
    · -- Of the file's own list an import may go, but never a namespace.
      have hbehind : hole.importedBehind ss' = hole.importedBehind ss := by
        cases hole with
        | own f => exact hdropped.innerImported_eq
        | inside f front n back => rfl
      refine ⟨hole, ss, ss', rfl, hdropped, removeImport_fill hbefore hremoved, ?_⟩
      rw [imported_fill, imported_fill, herased, hbehind,
        List.eraseP_append_right _ (by simpa using hbefore), List.eraseP_append_left hclass _ hx]
  · have hnone : ∀ x ∈ f.imported, x.isClass (bareName path) = false := by simpa using hsome
    have hown : removeImportFrom path f.stmts = .error .notFound :=
      removeImportFrom_eq_error fun x hx => hnone x (List.mem_append_left _ hx)
    refine .inl ⟨hnone, ?_⟩
    simp only [removeImport, hown]
    rw [← Edit.reason?_eq_some, Edit.reason?_map, Edit.reason?_atFirst,
      List.findSome?_eq_none_iff.2]
    · rfl
    · intro s hs
      cases s with
      | namespace_ n =>
        have hinner : removeImportFrom path n.stmts = .error .notFound :=
          removeImportFrom_eq_error fun x hx =>
            hnone x (List.mem_append_right _ (List.mem_flatMap.2 ⟨_, hs, hx⟩))
        simp [Stmt.namespace?, hinner, Except.toOption]
      | _ => rfl

end SourceFile

namespace Operation

/-- An import is refused if the class is imported under that name in the list that takes imports,
and else put behind the other imports of that list. Removing an import takes the first class of the
path out of what the file imports, and is refused if there is none. -/
theorem apply_import (path : String) (localName : Option String) (f : SourceFile)
    (hpath : ¬"\\\\".toList.isPrefixOf path.toList) :
    let new : ImportedSymbol := ⟨.class_, bareName path, localName.filter (!·.isEmpty)⟩
    (∃ (hole : SourceFile.ListHole) (ss : List Stmt), f = hole.fill ss ∧ hole.TakesImports f ∧
      (((importOf path localName).apply f).2 = .skipped .duplicate ↔
        new ∈ ss.flatMap Stmt.imported) ∧
      (new ∉ ss.flatMap Stmt.imported →
        ∃ ss', ImportAdded new ss ss' ∧ (importOf path localName).apply f =
          (hole.fill ss', .applied))) ∧
    (((removeImport path).apply f).2 = .skipped .notFound ↔
      ∀ x ∈ f.imported, x.isClass (bareName path) = false) ∧
    ((∃ x ∈ f.imported, x.isClass (bareName path) = true) →
      ∃ (hole : SourceFile.ListHole) (ss ss' : List Stmt), f = hole.fill ss ∧ ImportDropped ss ss' ∧
        (removeImport path).apply f = (hole.fill ss', .applied) ∧
        (hole.fill ss').imported = f.imported.eraseP (·.isClass (bareName path))) := by
  intro new
  refine ⟨?_, ?_⟩
  · obtain ⟨hole, ss, hf, htakes, hadd⟩ := f.exists_takesImports
    have happly : (importOf path localName).apply f =
        (SourceFile.addImport path new.localName).apply f := rfl
    refine ⟨hole, ss, hf, htakes, ?_⟩
    rw [happly, Edit.apply, hadd]
    rcases SourceFile.importInto_eq (bareName_bareName hpath) new.localName ss with
      ⟨hthere, herror⟩ | ⟨hnew, ss', hok, hadded⟩
    · rw [herror]
      exact ⟨iff_of_true rfl hthere, fun hnew => absurd hthere hnew⟩
    · rw [hok]
      refine ⟨iff_of_false (fun houtcome => ?_) hnew, fun _ => ⟨ss', hadded, rfl⟩⟩
      cases houtcome
  · have happly : (removeImport path).apply f = (SourceFile.removeImport path).apply f := rfl
    rw [happly, Edit.apply]
    rcases f.removeImport_eq path with ⟨hnone, herror⟩ | ⟨hsome, hole, ss, ss', hf,
      hdropped, hok, herased⟩
    · rw [herror]
      refine ⟨iff_of_true rfl hnone, fun hsome => ?_⟩
      obtain ⟨x, hx, hclass⟩ := hsome
      simp [hnone x hx] at hclass
    · rw [hok]
      refine ⟨iff_of_false (fun houtcome => ?_) fun hnone => ?_, fun _ =>
        ⟨hole, ss, ss', hf, hdropped, rfl, herased⟩⟩
      · cases houtcome
      · obtain ⟨x, hx, hclass⟩ := hsome
        simp [hnone x hx] at hclass

/-- A class that the file imports in a group, beside a function, is imported once more in the
namespace of the first class. It is removed from the group, which keeps the function. -/
theorem apply_import_group :
    let group : Import :=
      ⟨.empty, .class_, some "Lib", [⟨some .function, "f", none⟩, ⟨none, "Foo", none⟩]⟩
    let c : ClassDecl := ⟨.empty, [], "A", none, [], [], []⟩
    let n : NamespaceDecl := ⟨.empty, some "App", true, [.class_ c], []⟩
    let f : SourceFile := ⟨none, [.import_ group, .namespace_ n], [], none⟩
    ¬"\\\\".toList.isPrefixOf "\\Lib\\Foo".toList ∧
      (∃ ss', ImportAdded ⟨.class_, "Lib\\Foo", none⟩ n.stmts ss' ∧
        (importOf "\\Lib\\Foo" (some "")).apply f =
        ({ f with stmts := [.import_ group, .namespace_ { n with stmts := ss' }] }, .applied)) ∧
      ((removeImport "\\Lib\\Foo").apply f).1.imported = [⟨.function, "Lib\\f", none⟩] := by
  intro group c n f
  have hpath : ¬"\\\\".toList.isPrefixOf "\\Lib\\Foo".toList := by decide
  have himported : f.imported = [⟨.function, "Lib\\f", none⟩, ⟨.class_, "Lib\\Foo", none⟩] := by
    decide
  obtain ⟨⟨hole, ss, hf, htakes, -, hadded⟩, -, hremoved⟩ :=
    apply_import "\\Lib\\Foo" (some "") f hpath
  refine ⟨hpath, ?_, ?_⟩
  · obtain rfl := htakes.ofClass [.import_ group] n [] rfl (by simp [Stmt.firstClass?]) rfl
    have hss : n.stmts = ss := by
      have hstmts := congrArg SourceFile.stmts hf
      simpa [f, n, SourceFile.ListHole.fill] using hstmts
    obtain rfl := hss
    exact hadded (by decide)
  · obtain ⟨hole, ss, ss', -, -, happly, herased⟩ :=
      hremoved ⟨⟨.class_, "Lib\\Foo", none⟩, by simp [himported], by decide⟩
    rw [happly, herased, himported]
    decide

end Operation

end ClassEdit
