import ClassEdit.Proofs.Edit.Importing
import ClassEdit.Proofs.Edit.Target

/-!
Additions that are taken back. What was just added is the first thing that its removal
finds, and it is alone in its statement, so it goes as it came. Main statement: afterwards
the file is the one before, but for the gap of what follows the place, and its text differs
at most in one empty line there.
-/

namespace ClassEdit

section Spaced

variable {α : Type} [Spaced α]

/-- An element comes into the first list, which makes the second, and goes out again,
which makes the third. -/
def ListUndone (x : α) (xs ys zs : List α) : Prop :=
  ∃ front back back₁ back₂, xs = front ++ back ∧ ys = front ++ x :: back₁ ∧ zs = front ++ back₂ ∧
    Respaced back back₁ ∧ Respaced back back₂

section Inserted

variable {xs : List α} {i : Nat}

theorem getElem?_insertSpaced (hi : i ≤ xs.length) (x : α) :
    (insertSpaced xs i x)[i]? = some x := by
  obtain ⟨front, back, rfl, rfl⟩ := exists_split_at hi
  obtain ⟨back', hnew, -⟩ := insertSpaced_split front x back
  simp [hnew]

/-- What a search finds nowhere it finds where it is put in. -/
theorem findIn_insertSpaced {f : α → Option Nat} {j : Nat} (hi : i ≤ xs.length)
    (hnone : findIn f xs = none) {x : α} (hx : f x = some j) :
    findIn f (insertSpaced xs i x) = some (i, j) := by
  obtain ⟨front, back, rfl, rfl⟩ := exists_split_at hi
  obtain ⟨back', hnew, -⟩ := insertSpaced_split front x back
  rw [hnew]
  exact findIn_behind (fun y hy => findIn_eq_none hnone y (List.mem_append_left _ hy)) back' hx

end Inserted

variable (hcomp : ∀ (f g : Trivia → Trivia) (x : α),
  Spaced.mapTrivia f (Spaced.mapTrivia g x) = Spaced.mapTrivia (f ∘ g) x)
include hcomp

theorem Respaced.trans {xs ys zs : List α} (h : Respaced xs ys) (h' : Respaced ys zs) :
    Respaced xs zs := by
  rcases h with rfl | ⟨gap, rfl⟩
  · exact h'
  · rcases h' with rfl | ⟨gap', rfl⟩
    · exact .inr ⟨gap, rfl⟩
    · -- The second gap is chosen by what the first one left.
      refine .inr ⟨fun t => gap' { t with blankBefore := gap t }, ?_⟩
      cases xs with
      | nil => rfl
      | cons x xs =>
        simp only [List.modifyHead_cons, hcomp]
        rfl

theorem undone_insertSpaced {xs : List α} {i : Nat} (hi : i ≤ xs.length) (x : α) :
    ListUndone x xs (insertSpaced xs i x) (removeSpaced (insertSpaced xs i x) i) := by
  obtain ⟨front, back, rfl, rfl⟩ := exists_split_at hi
  obtain ⟨back₁, hnew, hback₁⟩ := insertSpaced_split front x back
  obtain ⟨back₂, hgone, hback₂⟩ := removeSpaced_split front x back₁
  exact ⟨front, back, back₁, back₂, rfl,
    hnew, by rw [hnew, hgone], hback₁, hback₁.trans hcomp hback₂⟩

end Spaced

namespace ClassDecl

/-- Whatever member the first edit puts into a class, the second one takes it out again. -/
def UndoneBy (edit undo : Edit ClassDecl) : Prop :=
  ∀ {c c' : ClassDecl}, edit c = .ok c' → ∃ m ms ms', c' = { c with members := ms } ∧
    undo c' = .ok { c with members := ms' } ∧ ListUndone m c.members ms ms'

/-- A member with one thing in it is found by what it declares, and goes with that. -/
theorem undoneBy_removeItem {f : MemberStmt → Option Nat} {m : Member} {j : Nat}
    (hm : f (.made m) = some j) (hcount : m.itemCount = 1) :
    UndoneBy (fun c => addUnless (findIn f c.members) m c)
      (fun c => atPlace (findIn f c.members) c.removeItem) := by
  intro c c' h
  obtain ⟨hnone, rfl⟩ := addUnless_eq_ok h
  have hle := memberPosition_le c.members m.category
  refine ⟨.made m, _, _, rfl, ?_, undone_insertSpaced (fun _ _ _ => rfl) hle (.made m)⟩
  -- One thing is all that the new member declares, so its whole statement goes.
  have hone :
      ((insertSpaced c.members (memberPosition c.members m.category)
        (.made m))[memberPosition c.members
      m.category]?).any (1 < ·.member.itemCount) = false := by
    simp [getElem?_insertSpaced hle, MemberStmt.made, hcount]
  simp only [insertMember, findIn_insertSpaced hle hnone hm, atPlace, removeItem, hone]
  rfl

/-- A routine that replaced no other is removed again. -/
theorem undoneBy_removeRoutine {s : RoutineSpec} (hs : s.overwrite = false) :
    UndoneBy (addRoutine s) (removeRoutine s.name) := by
  intro c c' h
  unfold addRoutine at h
  split at h
  next => simp [hs] at h
  next hnone =>
    cases h
    let m : MemberStmt := .made (.routine s.toRoutine)
    have hm : m.member.isRoutine s.name = true := by
      simp [m, MemberStmt.made, Member.isRoutine, RoutineSpec.toRoutine, sameWord]
    have hfound : findRoutine { c with members := c.members ++ [m] } s.name =
      some c.members.length :=
      findIdx?_behind (List.findIdx?_eq_none_iff.1 hnone) [] hm
    obtain ⟨back, hgone, hback⟩ := removeSpaced_split c.members m []
    refine ⟨m, _, c.members ++ back, rfl, ?_, c.members, [], [],
      back, by simp, rfl, rfl, .inl rfl, hback⟩
    rw [removeRoutine, hfound, ← hgone]
    rfl

end ClassDecl

namespace SourceFile

/-- A member or an import came into the first file, which made the second, and went again, which
made the third. Nothing else differs. -/
inductive Undone : SourceFile → SourceFile → SourceFile → Prop where
  | member {hole : Hole} (c : ClassDecl) {m : MemberStmt} {ms ms' : List MemberStmt}
      (hfirst : hole.IsFirst) (h : ListUndone m c.members ms ms') :
      Undone (hole.fill c) (hole.fill { c with members := ms })
        (hole.fill { c with members := ms' })
  | stmt (hole : ListHole) {path : String} {localName : Option String} {ss ss' ss'' : List Stmt}
      (h : ListUndone (.import_ (.single path localName)) ss ss' ss'') :
      Undone (hole.fill ss) (hole.fill ss') (hole.fill ss'')

theorem undone_of_undoneBy {edit undo : Edit ClassDecl} (hundo : ClassDecl.UndoneBy edit undo)
    {f g : SourceFile} (h : onFirstClass edit f = .ok g) :
    ∃ r, onFirstClass undo g = .ok r ∧ Undone f g r := by
  obtain ⟨hole, c, c', hc, rfl, rfl, hleads⟩ := onFirstClass_hole h
  obtain ⟨m, ms, ms', rfl, hremoved, hlist⟩ := hundo hc
  exact ⟨_, hleads.onFirstClass_fill hremoved, .member c hleads.isFirst hlist⟩

/-- An import of a path that nothing else is imported from is the one that is removed. -/
theorem undone_of_addImport {path : String} {localName : Option String} {f g : SourceFile}
    (hpath : bareName (bareName path) = bareName path)
    (hnew : ∀ x ∈ f.imported, x.isClass (bareName path) = false)
    (h : addImport path localName f = .ok g) :
    ∃ r, removeImport path g = .ok r ∧ Undone f g r := by
  obtain ⟨hole, ss, rfl, -, hadd⟩ := exists_takesImports f
  rw [hadd] at h
  obtain ⟨ss', hss', rfl⟩ := map_eq_ok h
  obtain rfl := importInto_eq_ok hss'
  let s : Stmt := .import_ (.single (bareName path) localName)
  have hcomp (f g : Trivia → Trivia) (s : Stmt) : Spaced.mapTrivia f (Spaced.mapTrivia g s) =
      Spaced.mapTrivia (f ∘ g) s := by
    cases s <;> rfl
  rw [imported_fill] at hnew
  -- No list has a class of this path, so the search passes all lists before and ends
  -- at the new statement.
  have hnone : findIn (Stmt.importedIdx? path) ss = none := by
    rw [← Option.not_isSome_iff_eq_none, isSome_findIn]
    rintro ⟨t, ht, hfound⟩
    rw [Stmt.importedIdx?_eq, List.findIdx?_isSome, List.any_eq_true] at hfound
    obtain ⟨x, hx, hclass⟩ := hfound
    simp [hnew x
      (List.mem_append_right _ (List.mem_append_left _ (List.mem_flatMap.2 ⟨t, ht, hx⟩)))] at hclass
  have hs : s.importedIdx? path = some 0 := by
    simp [s, Stmt.importedIdx?, Stmt.import?, Import.single, Import.importsClass, Import.fullPath,
      sameSymbol, hpath]
  have hle := importPosition_le ss
  have hremoved : removeImportFrom path (insertSpaced ss (importPosition ss) s) =
      .ok (removeSpaced (insertSpaced ss (importPosition ss) s) (importPosition ss)) := by
    simp only [removeImportFrom, findIn_insertSpaced hle hnone hs, getElem?_insertSpaced hle]
    rfl
  exact ⟨_, removeImport_fill (fun x hx => hnew x (List.mem_append_left _ hx)) hremoved,
    .stmt hole (undone_insertSpaced hcomp hle s)⟩

end SourceFile

namespace LineEnding

def withEnding (ending t : String) : String :=
  String.ofList (replaceWith ending.toList (normalize t.toList))

theorem withEnding_newline (ending r : String) :
    withEnding ending ("\n" ++ r) = ending ++ withEnding ending r := by
  have hcut : ("\n" ++ r).toList = [] ++ '\n' :: r.toList := by simp
  have hempty : normalize ([] ++ ['\n']) = ['\n'] := rfl
  rw [withEnding, hcut, normalize_append_line, hempty, replaceWith_append, String.ofList_append]
  simp [replaceWith, withEnding]

/-- What stands before a newline comes out in the same way whatever is behind it. -/
theorem exists_withEnding_line (ending x : String) :
    ∃ x', ∀ r, withEnding ending (x ++ ("\n" ++ r)) = x' ++ (ending ++ withEnding ending r) := by
  -- A carriage return at the end of the text goes with the newline, so the two are normalized
  -- together.
  obtain ⟨e, he⟩ := normalize_append_newline x.toList
  refine ⟨String.ofList (replaceWith ending.toList e), fun r => ?_⟩
  have hcut : (x ++ ("\n" ++ r)).toList = x.toList ++ '\n' :: r.toList := by simp
  rw [withEnding, hcut, normalize_append_line, he, replaceWith_append, replaceWith_append,
    String.ofList_append, String.ofList_append, String.append_assoc]
  simp [replaceWith, withEnding]

end LineEnding

/-- Two texts joined by a line ending, or by two and so with an empty line between them. -/
def JoinedBy (ending u w t : String) : Prop :=
  t = u ++ ending ++ w ∨ t = u ++ ending ++ ending ++ w

/-- Three texts that differ behind one and the same place, the first and the last at
most in an empty line. -/
def UndoneText (ending a b c : String) : Prop :=
  ∃ u v w, JoinedBy ending u w a ∧ b = u ++ ending ++ v ++ ending ++ w ∧ JoinedBy ending u w c

namespace UndoneText

theorem joinedBy_lineBreak (u : String) (gap : Bool) (w : String) :
    JoinedBy "\n" u w (u ++ (lineBreak gap ++ w)) := by
  cases gap with
  | false => exact .inl (by simp [lineBreak, String.append_assoc])
  | true =>
    have htwo : lineBreak true = "\n" ++ "\n" := rfl
    exact .inr (by simp only [htwo, String.append_assoc])

theorem of_lineBreaks (u v w : String) (gap₁ gap gap₂ gap₃ : Bool) :
    UndoneText "\n" (u ++ (lineBreak gap₁ ++ w))
      (u ++ (lineBreak gap ++ (v ++ (lineBreak gap₂ ++ w))))
      (u ++ (lineBreak gap₃ ++ w)) := by
  obtain ⟨r, hr⟩ := lineBreak_eq gap
  obtain ⟨e, he⟩ := lineBreak_eq' gap₂
  refine ⟨u, r ++ v ++ e, w, joinedBy_lineBreak u gap₁ w, ?_, joinedBy_lineBreak u gap₃ w⟩
  simp only [hr, he, String.append_assoc]

theorem append_left (p : String) {a b c : String} (h : UndoneText "\n" a b c) :
    UndoneText "\n" (p ++ a) (p ++ b) (p ++ c) := by
  obtain ⟨u, v, w, ha, rfl, hc⟩ := h
  have hjoined {t : String} (ht : JoinedBy "\n" u w t) : JoinedBy "\n" (p ++ u) w (p ++ t) := by
    rcases ht with rfl | rfl
    · exact .inl (by simp only [String.append_assoc])
    · exact .inr (by simp only [String.append_assoc])
  exact ⟨p ++ u, v, w, hjoined ha, by simp only [String.append_assoc], hjoined hc⟩

/-- The texts are joined by any other ending as they are by newlines. -/
theorem withEnding (ending : String) {a b c : String} (h : UndoneText "\n" a b c) :
    UndoneText ending (LineEnding.withEnding ending a) (LineEnding.withEnding ending b)
      (LineEnding.withEnding ending c) := by
  obtain ⟨u, v, w, ha, rfl, hc⟩ := h
  obtain ⟨u', hu⟩ := LineEnding.exists_withEnding_line ending u
  obtain ⟨v', hv⟩ := LineEnding.exists_withEnding_line ending v
  have hjoined {t : String} (ht : JoinedBy "\n" u w t) :
      JoinedBy ending u' (LineEnding.withEnding ending w) (LineEnding.withEnding ending t) := by
    rcases ht with rfl | rfl
    · exact .inl (by simp only [String.append_assoc, hu])
    · exact .inr (by simp only [String.append_assoc, hu, LineEnding.withEnding_newline])
  exact ⟨u', v', LineEnding.withEnding ending w,
    hjoined ha, by simp only [String.append_assoc, hu, hv], hjoined hc⟩

end UndoneText

theorem Surrounds.undone {α : Type} {whole part : α → String} (h : Surrounds whole part) {x y z : α}
    (hpart : ∀ {tail : String}, StartsLine tail → UndoneText "\n" (part x ++ tail) (part y ++ tail)
      (part z ++ tail)) :
    UndoneText "\n" (whole x) (whole y) (whole z) := by
  obtain ⟨a, b, hb, hwhole⟩ := h
  rw [hwhole, hwhole, hwhole]
  exact (hpart hb).append_left a

theorem MemberStmt.listText_undone {layout : Layout} {margin : String} {m : MemberStmt}
    {xs ys zs : List MemberStmt} (h : ListUndone m xs ys zs) {tail : String}
    (ht : StartsLine tail) :
    UndoneText "\n" (listText layout margin none xs ++ tail)
      (listText layout margin none ys ++ tail)
      (listText layout margin none zs ++ tail) := by
  obtain ⟨front, back, back₁, back₂, rfl, rfl, rfl, hback₁, hback₂⟩ := h
  obtain ⟨x, hx⟩ := listText_behindBreak layout margin back ht
  obtain ⟨gap, hgap⟩ := hx (.inl rfl) (front.getLast?.or none)
  obtain ⟨gap₁, hgap₁⟩ := hx hback₁ (some m)
  obtain ⟨gap₂, hgap₂⟩ := hx hback₂ (front.getLast?.or none)
  simp only [listText_append, listText, textAfter_eq, String.append_assoc, hgap, hgap₁, hgap₂]
  exact .of_lineBreaks ..

namespace Stmt

/-- A list with an element added and removed again is the same text, but for one empty line. -/
theorem listText_undone {layout : Layout} {margin : String} {top : Bool}
    {s : Stmt} (hs : s.IsSpaced) {xs ys zs : List Stmt} (h : ListUndone s xs ys zs) {tail : String}
    (ht : StartsLine tail) :
    UndoneText "\n" (listText layout margin top none xs ++ tail)
      (listText layout margin top none ys ++ tail)
      (listText layout margin top none zs ++ tail) := by
  obtain ⟨front, back, back₁, back₂, rfl, rfl, rfl, hback₁, hback₂⟩ := h
  obtain ⟨x, hx⟩ := listText_behindBreak layout margin top back ht
  obtain ⟨gap, hgap⟩ := hx (.inl rfl) (front.getLast?.or none)
  obtain ⟨gap₁, hgap₁⟩ := hx hback₁ (some s)
  obtain ⟨gap₂, hgap₂⟩ := hx hback₂ (front.getLast?.or none)
  simp only [listText_append, listText_cons hs, leadingText_eq, String.append_assoc,
    hgap, hgap₁, hgap₂]
  have hlists := UndoneText.of_lineBreaks (listText layout margin top none front)
    ((s.trivia?.getD .empty).leadingText margin ++ (margin ++ text layout margin s)) x gap
    ((s.trivia?.getD .empty).blankBefore.getD (usualGap top (front.getLast?.or none) s)) gap₁ gap₂
  simpa only [String.append_assoc] using hlists

/-- A list is written around one of its statements. -/
theorem surrounds_stmt {α : Type} (front back : List Stmt) {s : α → Stmt}
    (r : Stmt) (hr : r.IsSpaced) (htrivia : ∀ x, (s x).trivia? = r.trivia?)
    (himport : ∀ x, (s x).import?.isSome = r.import?.isSome) {layout : Layout} {margin : String}
    {top : Bool} {tail : String} (ht : StartsLine tail) :
    Surrounds (fun x => listText layout margin top none (front ++ s x :: back) ++ tail)
      (fun x => text layout margin (s x)) := by
  refine ⟨listText layout margin top none front ++ leadingText margin top
    (front.getLast?.or none) r,
    listText layout margin top (some r) back ++ tail, listText_startsLine back ht, fun x => ?_⟩
  have hspaced : (s x).IsSpaced := by
    rw [IsSpaced, htrivia]
    exact hr
  have hlead : leadingText margin top (front.getLast?.or none) (s x) =
      leadingText margin top (front.getLast?.or none) r := by
    simp only [leadingText, usualGap, htrivia, himport]
  dsimp only
  rw [listText_append, listText_cons hspaced, hlead, listText_congr (himport x)]
  simp only [String.append_assoc]

end Stmt

namespace SourceFile

/-- A file is written around each of its lists. -/
theorem ListHole.surrounds (hole : ListHole) (layout : Layout) :
    ∃ margin top, Surrounds (fun ss => (hole.fill ss).plainText layout)
      (Stmt.listText layout margin top none) := by
  cases hole with
  | own f => exact ⟨"", true, f.surrounds_stmts layout⟩
  | inside f front n back =>
    obtain ⟨inner, top, hinner⟩ := Stmt.surrounds_namespace n layout ""
    let s (ss : List Stmt) : Stmt := .namespace_ { n with stmts := ss }
    have houter := (f.surrounds_stmts layout).comp fun ss => front ++ s ss :: back
    have hstmt := houter.trans fun ht =>
      Stmt.surrounds_stmt (s := s) front back (.namespace_ n) rfl (fun _ => rfl) (fun _ => rfl) ht
    exact ⟨inner, top, hstmt.trans hinner⟩

/-- The first class stands in one of the lists of the file. -/
theorem Hole.exists_listHole (hole : Hole) :
    ∃ (list : ListHole) (front back : List Stmt), ∀ c, hole.fill c =
      list.fill (front ++ .class_ c :: back) := by
  obtain ⟨f, front, stmt, back⟩ := hole
  cases stmt with
  | itself => exact ⟨.own f, front, back, fun _ => rfl⟩
  | inside n front' back' => exact ⟨.inside f front n back, front', back', fun _ => rfl⟩

/-- What stands around the members of a class does not depend on them. -/
theorem Hole.surrounds (hole : Hole) (c : ClassDecl) (layout : Layout) :
    ∃ margin, Surrounds (fun ms => (hole.fill { c with members := ms }).plainText layout)
      (MemberStmt.listText layout margin none) := by
  obtain ⟨list, front, back, hfill⟩ := hole.exists_listHole
  obtain ⟨margin, top, hlist⟩ := list.surrounds layout
  let s (ms : List MemberStmt) : Stmt := .class_ { c with members := ms }
  have houter := hlist.comp fun ms => front ++ s ms :: back
  have hstmt := houter.trans fun ht =>
    Stmt.surrounds_stmt (s := s) front back (.class_ c) rfl (fun _ => rfl) (fun _ => rfl) ht
  simp only [hfill]
  exact ⟨margin ++ layout.indent, hstmt.trans fun _ => (c.surrounds_members layout margin).append _⟩

theorem Undone.text {f g r : SourceFile} (h : Undone f g r) (layout : Layout) :
    UndoneText layout.lineEnding (f.text layout) (g.text layout) (r.text layout) := by
  refine UndoneText.withEnding layout.lineEnding ?_
  cases h with
  | @member hole c m ms ms' _ hlist =>
    obtain ⟨margin, hsurrounds⟩ := hole.surrounds c layout
    exact hsurrounds.undone (x := c.members) (MemberStmt.listText_undone hlist)
  | stmt hole hlist =>
    obtain ⟨margin, top, hsurrounds⟩ := hole.surrounds layout
    exact hsurrounds.undone (Stmt.listText_undone (by rfl) hlist)

end SourceFile

namespace Operation

/-- The operation that takes back what an addition added. A routine that may take the place of
another cannot be taken back. -/
def undo? : Operation → Option Operation
  | addMixin name => some (removeMixin name)
  | addField spec => some (removeField spec.name)
  | addConstant name .. => some (removeConstant name)
  | addRoutine spec => if spec.overwrite then none else some (removeRoutine spec.name)
  | addImport path _ => some (removeImport path)
  | _ => none

/-- An import is fresh if its path has one leading separator at most and the file imports no class
of that path, under whatever name. All else that is added is fresh, since it is added only once. -/
def IsFresh : Operation → SourceFile → Prop
  | addImport path _, f => ¬"\\\\".toList.isPrefixOf path.toList ∧
      ∀ x ∈ f.imported, x.isClass (bareName path) = false
  | _, _ => True

/-- An operation on something new is undone by its inverse. -/
theorem undone_of_edit {op undo : Operation} (hop : op.undo? = some undo) {f g : SourceFile}
    (hfresh : op.IsFresh f) (h : op.edit f = .ok g) :
    ∃ r, undo.edit g = .ok r ∧ SourceFile.Undone f g r := by
  cases op <;> simp only [undo?, Option.some.injEq, reduceCtorEq] at hop
  case addMixin name =>
    subst hop
    exact SourceFile.undone_of_undoneBy
      (ClassDecl.undoneBy_removeItem (m := .mixins ⟨[name], none⟩) (j := 0)
      (f := (·.member.mixinIdx? name)) (by simp [MemberStmt.made, Member.mixinIdx?, sameSymbol])
        rfl) h
  case addField spec =>
    subst hop
    exact SourceFile.undone_of_undoneBy
      (ClassDecl.undoneBy_removeItem (j := 0) (f := (·.member.fieldIdx? spec.name))
      (by simp [MemberStmt.made, Member.fieldIdx?]) rfl) h
  case addConstant name value visibility =>
    subst hop
    exact SourceFile.undone_of_undoneBy
      (ClassDecl.undoneBy_removeItem (j := 0) (f := (·.member.constantIdx? name))
      (by simp [MemberStmt.made, Member.constantIdx?]) rfl) h
  case addRoutine spec =>
    split at hop
    next => cases hop
    next hkept =>
      cases hop
      exact SourceFile.undone_of_undoneBy (ClassDecl.undoneBy_removeRoutine (by simpa using hkept))
        h
  case addImport path localName =>
    subst hop
    exact SourceFile.undone_of_addImport (bareName_bareName hfresh.1) hfresh.2 h

/-- What was just added can be removed. The file is then what it was before, but for the gap of what
follows the place of the addition; the two texts differ at most in an empty line there. -/
theorem undo_apply {op undo : Operation} {f : SourceFile} (hop : op.undo? = some undo)
    (hfresh : op.IsFresh f) (h : (op.apply f).2 = .applied) :
    ∃ r, undo.apply (op.apply f).1 = (r, .applied) ∧ SourceFile.Undone f (op.apply f).1 r ∧
      ∀ layout : Layout,
        UndoneText layout.lineEnding (f.text layout) ((op.apply f).1.text layout)
          (r.text layout) := by
  obtain ⟨r, hr, hundone⟩ := undone_of_edit hop hfresh (edit_eq_ok_of_applied h)
  exact ⟨r, by rw [apply, Edit.apply, hr], hundone, hundone.text⟩

/-- An import that comes before a class without a gap. When it goes again, the class has the usual
gap. -/
theorem undo_apply_import :
    let c : ClassDecl :=
      ⟨{ Trivia.empty with blankBefore := some false }, [], "A", none, [], [], []⟩
    let f : SourceFile :=
      ⟨none, [.namespace_ ⟨.empty, some "App", false, [.class_ c], []⟩], [], none⟩
    let op : Operation := .addImport "\\Lib\\Foo" none
    op.undo? = some (.removeImport "\\Lib\\Foo") ∧ op.IsFresh f ∧ (op.apply f).2 = .applied ∧
      ∃ r, (removeImport "\\Lib\\Foo").apply (op.apply f).1 = (r, .applied) ∧
        SourceFile.Undone f (op.apply f).1 r ∧ r.firstClass = some { c with trivia := .empty } := by
  intro c f op
  have hfresh : op.IsFresh f := by
    refine ⟨by decide, ?_⟩
    have himported : f.imported = [] := rfl
    simp [himported]
  have hop : op.undo? = some (.removeImport "\\Lib\\Foo") := rfl
  obtain ⟨r, hr, hundone, -⟩ := undo_apply hop hfresh rfl
  obtain rfl : _ = r := congrArg Prod.fst hr
  exact ⟨hop, hfresh, rfl, _, hr, hundone, rfl⟩

end Operation

end ClassEdit
