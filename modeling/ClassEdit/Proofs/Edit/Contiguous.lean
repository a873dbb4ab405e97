import ClassEdit.Proofs.Edit.Insertion
import ClassEdit.Proofs.Edit.Scope
import Mathlib.Data.List.InsertIdx

/-!
What the operations that add and those that remove do to the text of a file. The file that is
written afterwards is the one before with one text more, or one text less, wherever the operation
works and whatever the spacing of the neighbours is.
-/

namespace ClassEdit

theorem Inserts.refl (a : String) : Inserts a a :=
  ⟨a, "", "", by simp, by simp, fun h => by simp at h⟩

/-- The text ends, and not with a carriage return. -/
def EndsPlain (p : String) : Prop :=
  ∃ c, p.toList.getLast? = some c ∧ c ≠ '\r'

theorem EndsPlain.append {s : String} (h : EndsPlain s) (p : String) : EndsPlain (p ++ s) := by
  obtain ⟨c, hs, hc⟩ := h
  exact ⟨c, by simp [List.getLast?_append, hs], hc⟩

theorem EndsPlain.append_spaced {p : String} (h : EndsPlain p) (word : Option String) :
    EndsPlain (p ++ spaced word) := by
  cases word with
  | none => simpa [spaced] using h
  | some t =>
      have hblank : EndsPlain " " := ⟨' ', rfl, by decide⟩
      exact (hblank.append t).append p

/-- A text goes out of a list together with one of the commas next to it. -/
theorem Inserts.commaList_eraseIdx {p : String} (texts : List String) (j : Nat)
    (h : EndsPlain p ∨ ∀ t, texts.head? = some t → t.toList.head? ≠ some '\n') :
    Inserts (p ++ commaList (texts.eraseIdx j)) (p ++ commaList texts) := by
  induction texts generalizing j p with
  | nil => exact .refl _
  | cons t ts ih =>
      cases j with
      | zero =>
          obtain ⟨v, hv, hhead⟩ : ∃ v, commaList (t :: ts) = v ++ commaList ts ∧
              (v.toList.head? = some '\n' → t.toList.head? = some '\n') := by
            by_cases hts : ts = []
            · exact ⟨t, by simp [hts, commaList], id⟩
            · refine ⟨t ++ ", ", by rw [commaList, String.intercalate_cons_of_ne_nil hts]; rfl, ?_⟩
              cases ht : t.toList <;> simp [ht]
          refine ⟨p, v, commaList ts, rfl, by rw [hv, String.append_assoc], fun hn => .inr ?_⟩
          exact h.resolve_right fun h => h t rfl (hhead hn)
      | succ j =>
          by_cases hrest : ts.eraseIdx j = []
          · refine ⟨p ++ t, if ts = [] then "" else ", " ++ commaList ts, "", ?_, ?_, ?_⟩
            · simp [hrest, commaList]
            · split
              next hts => simp [hts, commaList]
              next hts =>
                rw [commaList, String.intercalate_cons_of_ne_nil hts]
                simp [commaList, String.append_assoc]
            · split <;> simp
          · have hts : ts ≠ [] := by
              rintro rfl
              exact hrest rfl
            have hcut : ∀ us : List String, us ≠ [] →
                p ++ commaList (t :: us) = (p ++ t ++ "," ++ " ") ++ commaList us := by
              intro us hus
              rw [commaList, String.intercalate_cons_of_ne_nil hus]
              simp only [commaList, String.append_assoc]
              rfl
            rw [List.eraseIdx_cons_succ, hcut _ hrest, hcut _ hts]
            have hblank : EndsPlain " " := ⟨' ', rfl, by decide⟩
            exact ih j (.inl (hblank.append _))

/-- What is written of each value is what is written of its part, between two texts that are always
the same. The second one begins a line. -/
def Surrounds {α : Type} (whole part : α → String) : Prop :=
  ∃ a b, StartsLine b ∧ ∀ x, whole x = a ++ (part x ++ b)

namespace Surrounds

variable {α : Type} {whole mid part : α → String}

theorem append (h : Surrounds whole part) (tail : String) : Surrounds (whole · ++ tail) part := by
  obtain ⟨a, _, ⟨b, rfl⟩, hx⟩ := h
  refine ⟨a, "\n" ++ (b ++ tail), ⟨_, rfl⟩, fun x => ?_⟩
  simp only [hx, String.append_assoc]

theorem trans (h : Surrounds whole mid) (h' : ∀ {tail : String}, StartsLine tail →
    Surrounds (mid · ++ tail) part) :
    Surrounds whole part := by
  obtain ⟨a, b, hb, hx⟩ := h
  obtain ⟨a', b', hb', hx'⟩ := h' hb
  refine ⟨a ++ a', b', hb', fun x => ?_⟩
  calc whole x = a ++ (mid x ++ b) := hx x
    _ = a ++ (a' ++ (part x ++ b')) := congrArg (a ++ ·) (hx' x)
    _ = a ++ a' ++ (part x ++ b') := String.append_assoc.symm

theorem comp {β : Type} (h : Surrounds whole part) (g : β → α) :
    Surrounds (fun y => whole (g y)) (fun y => part (g y)) := by
  obtain ⟨a, b, hb, hx⟩ := h
  exact ⟨a, b, hb, fun y => hx (g y)⟩

/-- Where the part gets one more text, the whole does. -/
theorem inserts (h : Surrounds whole part) {x y : α}
    (hpart : ∀ {tail : String}, StartsLine tail → Inserts (part x ++ tail) (part y ++ tail)) :
    Inserts (whole x) (whole y) := by
  obtain ⟨a, b, hb, hwhole⟩ := h
  rw [hwhole, hwhole]
  exact (hpart hb).append_left a

end Surrounds

namespace Member

/-- The text of an item that is erased stood together, with one of the commas beside it. -/
theorem text_eraseItem (layout : Layout) (margin : String) (m : Member) (j : Nat) :
    Inserts ((m.eraseItem j).text layout margin) (m.text layout margin) := by
  cases m with
  | mixins use =>
      have huse : EndsPlain "use " := ⟨' ', rfl, by decide⟩
      have h := Inserts.commaList_eraseIdx use.names j (.inl huse)
      exact h.append_right _
  | constants g =>
      have hconst : EndsPlain "const " := ⟨' ', rfl, by decide⟩
      have hhead := (hconst.append g.modifiers.text).append_spaced g.type
      simp only [eraseItem, text, ConstantGroup.text, ← List.eraseIdx_map]
      exact (Inserts.commaList_eraseIdx _ j (.inl hhead)).append_right _
  | fields g =>
      simp only [eraseItem, text, FieldGroup.text, ← List.eraseIdx_map]
      refine (Inserts.commaList_eraseIdx _ j (.inr ?_)).append_right _
      intro t ht
      cases hg : g.items with
      | nil => simp [hg] at ht
      | cons f fs =>
          simp only [hg, List.map_cons, List.head?_cons, Option.some.injEq] at ht
          simp [← ht]
  | routine r => exact .refl _

theorem category_eraseItem (m : Member) (j : Nat) : (m.eraseItem j).category = m.category := by
  cases m <;> rfl

end Member

namespace ClassDecl

/-- The second class is the first with one more text in it. -/
structure Grows (c c' : ClassDecl) : Prop where
  trivia : c'.trivia = c.trivia
  text : ∀ layout margin, Inserts (c.text layout margin) (c'.text layout margin)

/-- A class is written around its members. -/
theorem surrounds_members (c : ClassDecl) (layout : Layout) (margin : String) :
    Surrounds (fun ms => text layout margin { c with members := ms })
      (MemberStmt.listText layout (margin ++ layout.indent) none) := by
  refine ⟨c.headerText ++ "\n" ++ margin ++ "\x7b", closingText (margin ++ layout.indent)
    c.closingComments ++
    ("\n" ++ (margin ++ "\x7d" ++ c.trivia.trailingText)), ?_, fun ms => ?_⟩
  · exact closingText_append_startsLine _ _ ⟨_, rfl⟩
  · simp only [text, headerText, String.append_assoc]

/-- A class grows as the list of its members does. -/
theorem grows_of_members (c : ClassDecl) {ms ms' : List MemberStmt}
    (h : ∀ layout margin {tail : String}, StartsLine tail →
      Inserts (MemberStmt.listText layout margin none ms ++ tail)
        (MemberStmt.listText layout margin none ms' ++ tail)) :
    Grows { c with members := ms } { c with members := ms' } where
  trivia := rfl
  text layout margin :=
  (c.surrounds_members layout margin).inserts (h layout (margin ++ layout.indent))

theorem insertMember_grows (c : ClassDecl) (m : Member) : c.Grows (c.insertMember m) := by
  obtain ⟨front, back, back', hms, hnew, hback⟩ :=
    insertSpaced_eq (memberPosition_le c.members m.category) (MemberStmt.made m)
  refine grows_of_members c fun layout margin tail ht => ?_
  rw [hms] at hnew ⊢
  rw [hnew]
  exact MemberStmt.listText_insert front _ (MemberStmt.listText_respaced hback _ ht)

theorem removeSpaced_grows (c : ClassDecl) {i : Nat} (hi : i < c.members.length) :
    Grows { c with members := removeSpaced c.members i } c := by
  obtain ⟨front, back, back', hms, hnew, hback⟩ := removeSpaced_eq hi
  refine grows_of_members c fun layout margin tail ht => ?_
  rw [hnew, hms]
  exact MemberStmt.listText_insert front _ (MemberStmt.listText_respaced hback _ ht).symm

/-- An item that is erased from a member is one text less in the class. -/
theorem mapMember_eraseItem_grows (c : ClassDecl) {i : Nat} (hi : i < c.members.length) (j : Nat) :
    Grows (c.mapMember i (.eraseItem j)) c := by
  refine grows_of_members c fun layout margin tail ht => Inserts.append_right _ ?_
  let m := c.members[i]
  let m' : MemberStmt := { m with member := m.member.eraseItem j }
  have hms : c.members.take i ++ m :: c.members.drop (i + 1) = c.members := by simp [m]
  have hlist : Inserts
      (MemberStmt.listText layout margin none (c.members.take i ++ m' :: c.members.drop (i + 1)))
      (MemberStmt.listText layout margin none (c.members.take i ++ m :: c.members.drop (i + 1))) :=
    MemberStmt.listText_grow _ _ (Member.category_eraseItem m.member j) rfl
      (Member.text_eraseItem layout margin m.member j)
  rw [hms] at hlist
  rw [List.modify_eq_take_cons_drop hi]
  exact hlist

theorem removeItem_grows (c : ClassDecl) {place : Nat × Nat} (hi : place.1 < c.members.length) :
    Grows (c.removeItem place) c := by
  unfold removeItem
  split
  · exact mapMember_eraseItem_grows c hi place.2
  · exact removeSpaced_grows c hi

theorem addUnless_grows {β : Type} {found : Option β} {m : Member} {c c' : ClassDecl}
    (h : addUnless found m c = .ok c') : c.Grows c' := by
  obtain ⟨-, rfl⟩ := addUnless_eq_ok h
  exact insertMember_grows c m

theorem atPlace_removeItem_grows {c c' : ClassDecl} {f : MemberStmt → Option Nat}
    (h : atPlace (findIn f c.members) c.removeItem = .ok c') : Grows c' c := by
  obtain ⟨⟨i, j⟩, hplace, rfl⟩ := atPlace_eq_ok h
  obtain ⟨m, hm, -⟩ := findIn_eq_some hplace
  exact removeItem_grows c (List.getElem?_eq_some_iff.1 hm).1

theorem removeRoutine_grows {name : String} {c c' : ClassDecl} (h : removeRoutine name c = .ok c') :
    Grows c' c := by
  obtain ⟨i, hplace, rfl⟩ := atPlace_eq_ok h
  exact removeSpaced_grows c (List.findIdx?_eq_some_iff_getElem.1 hplace).1

/-- A routine that replaces none stands behind all members. -/
theorem addRoutine_grows {s : RoutineSpec} (hs : s.overwrite = false) {c c' : ClassDecl}
    (h : addRoutine s c = .ok c') : c.Grows c' := by
  unfold addRoutine at h
  split at h
  · simp [hs] at h
  · cases h
    refine grows_of_members c fun layout margin tail ht => ?_
    let m : MemberStmt := .made (.routine s.toRoutine)
    have hend : SameBehindBreak
        (MemberStmt.listText layout margin (c.members.getLast?.or none) [] ++ tail)
        (MemberStmt.listText layout margin (some m) [] ++ tail) :=
      MemberStmt.listText_respaced (.inl rfl) (some m) ht
    simpa using MemberStmt.listText_insert c.members m hend

/-- An interface is one text more in the head of the class. -/
theorem implement_grows {interface : String} {c c' : ClassDecl}
    (h : implement interface c = .ok c') :
    c.Grows c' := by
  unfold implement at h
  split at h
  · cases h
  · cases h
    refine ⟨rfl, fun layout margin => ?_⟩
    have hheader : Inserts c.headerText
        ({ c with interfaces := c.interfaces ++ [interface] } : ClassDecl).headerText := by
      by_cases hc : c.interfaces = []
      · refine ⟨c.headerText, " implements " ++ interface, "", by simp, ?_, by simp⟩
        simp [headerText, hc, commaList, String.append_assoc]
      · refine ⟨c.headerText, ", " ++ interface, "", by simp, ?_, by simp⟩
        simp [headerText, hc, commaList, String.append_assoc,
          String.intercalate_append_of_ne_nil hc (List.cons_ne_nil interface [])]
    have h := hheader.append_right ("\n" ++ margin ++ "\x7b" ++
      MemberStmt.listText layout (margin ++ layout.indent) none c.members ++
      closingText (margin ++ layout.indent) c.closingComments ++ "\n" ++ margin ++ "\x7d" ++
      c.trivia.trailingText)
    simpa only [text, String.append_assoc] using h

end ClassDecl

namespace Stmt

/-- Wherever the lists are written, the second is the first with one more text in it. -/
def ListGrows (ss ss' : List Stmt) : Prop :=
  ∀ (layout : Layout) (margin : String) (top : Bool) {tail : String}, StartsLine tail →
    Inserts (listText layout margin top none ss ++ tail)
      (listText layout margin top none ss' ++ tail)

theorem Grows.list {s s' : Stmt} (h : Grows s s') (front back : List Stmt) :
    ListGrows (front ++ s :: back) (front ++ s' :: back) :=
  fun _ _ _ _ ht => h.listText front back ht

theorem listGrows_insertSpaced {ss : List Stmt} {i : Nat} (hi : i ≤ ss.length) {s : Stmt}
    (hs : s.IsSpaced) : ListGrows ss (insertSpaced ss i s) := by
  obtain ⟨front, back, back', hss, hnew, hback⟩ := insertSpaced_eq hi s
  intro layout margin top tail ht
  rw [hnew, hss]
  exact listText_insert front hs (listText_respaced hback _ ht)

theorem listGrows_removeSpaced {ss : List Stmt} {i : Nat} (hi : i < ss.length)
    (hs : ss[i].IsSpaced) :
    ListGrows (removeSpaced ss i) ss := by
  obtain ⟨front, back, back', hss, hnew, hback⟩ := removeSpaced_eq hi
  intro layout margin top tail ht
  have hlist : Inserts (listText layout margin top none (front ++ back') ++ tail)
      (listText layout margin top none (front ++ ss[i] :: back) ++ tail) :=
    listText_insert front hs (listText_respaced hback _ ht).symm
  rw [← hss] at hlist
  rwa [hnew]

/-- A class is one statement, and grows in it. -/
theorem grows_class {c c' : ClassDecl} (h : c.Grows c') : Grows (.class_ c) (.class_ c') where
  spaced := rfl
  trivia := congrArg some h.trivia
  import_ := rfl
  text layout margin _ _ := (h.text layout margin).append_right _

/-- A namespace is written around its statements, with braces or without. -/
theorem surrounds_namespace (n : NamespaceDecl) (layout : Layout) (margin : String) :
    ∃ inner top, ∀ {tail : String}, StartsLine tail →
      Surrounds (fun ss => text layout margin (.namespace_ { n with stmts := ss }) ++ tail)
        (listText layout inner top none) := by
  obtain ⟨trivia, name, braced, stmts, closing⟩ := n
  cases braced with
  | true =>
      refine ⟨margin ++ layout.indent, false, fun {tail} _ => ?_⟩
      refine ⟨"namespace" ++ name.elim "" (" " ++ ·) ++ " \x7b",
        closingText (margin ++ layout.indent) closing ++
        ("\n" ++ (margin ++ "\x7d" ++ trivia.trailingText ++ tail)), ?_, fun ss => ?_⟩
      · exact closingText_append_startsLine _ _ ⟨_, rfl⟩
      · simp only [text, namespaceText, if_true, String.append_assoc]
  | false =>
      refine ⟨margin, true, fun {tail} ht => ?_⟩
      refine ⟨"namespace" ++ name.elim "" (" " ++ ·) ++ ";" ++ trivia.trailingText,
        closingText margin closing ++ tail,
        closingText_append_startsLine margin closing ht, fun ss => ?_⟩
      simp only [text, namespaceText, Bool.false_eq_true, if_false, String.append_assoc]

theorem grows_namespace (n : NamespaceDecl) {ss ss' : List Stmt} (h : ListGrows ss ss') :
    Grows (.namespace_ { n with stmts := ss }) (.namespace_ { n with stmts := ss' }) where
  spaced := rfl
  trivia := rfl
  import_ := rfl
  text layout margin tail ht := by
    obtain ⟨inner, top, hsurrounds⟩ := surrounds_namespace n layout margin
    exact (hsurrounds ht).inserts (h layout inner top)

end Stmt

namespace SourceFile

/-- The second file is the first with one more text in it, whatever the layout is. -/
def Grows (f f' : SourceFile) : Prop :=
  ∀ layout, Inserts (f.plainText layout) (f'.plainText layout)

/-- A file is written around its statements. -/
theorem surrounds_stmts (f : SourceFile) (layout : Layout) :
    Surrounds (fun ss => plainText layout { f with stmts := ss })
      (Stmt.listText layout "" true none) := by
  obtain ⟨prologue, stmts, closing, epilogue⟩ := f
  cases epilogue with
  | none =>
      refine ⟨prologue.getD "" ++ "<?php", closingText "" closing ++ "\n",
        closingText_append_startsLine "" closing ⟨"", rfl⟩, fun ss => ?_⟩
      simp only [plainText, String.append_assoc]
  | some text =>
      refine ⟨prologue.getD "" ++ "<?php", closingText "" closing ++ ("\n" ++ ("?>" ++ text)),
        closingText_append_startsLine "" closing ⟨_, rfl⟩, fun ss => ?_⟩
      simp only [plainText, String.append_assoc]
      rfl

/-- A file grows where its statements do, as long as they are written before the closing
comments. -/
theorem grows_of_text (f : SourceFile) {ss ss' : List Stmt}
    (h : ∀ (layout : Layout) {tail : String}, StartsLine tail →
      Inserts (Stmt.listText layout "" true none ss ++ tail)
        (Stmt.listText layout "" true none ss' ++ tail)) :
    Grows { f with stmts := ss } { f with stmts := ss' } :=
  fun layout => (f.surrounds_stmts layout).inserts (h layout)

theorem grows_of_stmts (f : SourceFile) {ss ss' : List Stmt} (h : Stmt.ListGrows ss ss') :
    Grows { f with stmts := ss } { f with stmts := ss' } :=
  f.grows_of_text fun layout _ ht => h layout "" true ht

/-- A file grows where one of its lists of statements does. -/
theorem Scoped.grows {R : List Stmt → List Stmt → Prop} {f f' : SourceFile} (h : Scoped R f f')
    (hR : ∀ ss ss', R ss ss' → Stmt.ListGrows ss ss') : f.Grows f' := by
  cases h with
  | own f h => exact grows_of_stmts f (hR _ _ h)
  | inside f front n back h =>
      exact grows_of_stmts f ((Stmt.grows_namespace n (hR _ _ h)).list front back)

theorem onFirstClass_grows {edit : Edit ClassDecl} {f f' : SourceFile}
    (h : onFirstClass edit f = .ok f') (hedit : ∀ {c c'}, edit c = .ok c' → c.Grows c') :
    f.Grows f' := by
  obtain ⟨c, c', hc, -, -, hscoped⟩ := onFirstClass_eq_ok h
  refine hscoped.grows ?_
  rintro ss ss' ⟨front, back, rfl, rfl⟩
  exact (Stmt.grows_class (hedit hc)).list front back

theorem onFirstClass_shrinks {edit : Edit ClassDecl} {f f' : SourceFile}
    (h : onFirstClass edit f = .ok f') (hedit : ∀ {c c'}, edit c = .ok c' → c'.Grows c) :
    f'.Grows f := by
  obtain ⟨c, c', hc, -, -, hscoped⟩ := onFirstClass_eq_ok h
  refine hscoped.symm.grows ?_
  rintro ss ss' ⟨front, back, rfl, rfl⟩
  exact (Stmt.grows_class (hedit hc)).list front back

theorem addImport_grows {path : String} {localName : Option String} {f f' : SourceFile}
    (h : addImport path localName f = .ok f') : f.Grows f' := by
  refine (addImport_eq_ok h).grows fun ss ss' hss' => ?_
  obtain rfl := importInto_eq_ok hss'
  exact Stmt.listGrows_insertSpaced (importPosition_le ss) rfl

/-- An import statement without one of its symbols, which are separated by commas as all lists
are. -/
theorem grows_eraseImported (i : Import) (j : Nat) :
    Stmt.Grows (.import_ { i with items := i.items.eraseIdx j }) (.import_ i) where
  spaced := rfl
  trivia := rfl
  import_ := rfl
  text layout margin tail _ := by
    refine Inserts.append_right tail ?_
    have huse : EndsPlain "use " := ⟨' ', rfl, by decide⟩
    have hopen : EndsPlain "\\\x7b" := ⟨'\x7b', rfl, by decide⟩
    cases hbase : i.base with
    | none =>
        have h := (Inserts.commaList_eraseIdx (i.items.map ImportItem.text) j
          (.inl (huse.append_spaced i.kind.keyword?))).append_right (";" ++ i.trivia.trailingText)
        simpa only [Stmt.text, Import.text, hbase, ← List.eraseIdx_map, String.append_assoc] using h
    | some base =>
        have h := (Inserts.commaList_eraseIdx (i.items.map ImportItem.text) j
          (.inl (hopen.append ("use " ++ spaced i.kind.keyword? ++ base)))).append_right
          ("\x7d" ++ ";" ++ i.trivia.trailingText)
        simpa only [Stmt.text, Import.text, hbase, ← List.eraseIdx_map, String.append_assoc] using h

/-- An import goes with its line, or with its symbol and a comma. -/
theorem removeImportFrom_listGrows {path : String} {ss ss' : List Stmt}
    (h : removeImportFrom path ss = .ok ss') : Stmt.ListGrows ss' ss := by
  obtain ⟨i, decl, hdecl, ⟨-, rfl⟩ | ⟨j, -, rfl⟩⟩ := removeImportFrom_eq_ok h
  · obtain ⟨hi, hget⟩ := List.getElem?_eq_some_iff.1 hdecl
    exact Stmt.listGrows_removeSpaced hi (by rw [hget]; rfl)
  · obtain ⟨hi, hget⟩ := List.getElem?_eq_some_iff.1 hdecl
    have hlist := (grows_eraseImported decl j).list (ss.take i) (ss.drop (i + 1))
    have hss : ss.take i ++ .import_ decl :: ss.drop (i + 1) = ss := by
      rw [← hget]
      simp
    rw [hss] at hlist
    rwa [List.set_eq_take_append_cons_drop, if_pos hi]

theorem removeImport_grows {path : String} {f f' : SourceFile} (h : removeImport path f = .ok f') :
    f'.Grows f :=
  (removeImport_eq_ok h).symm.grows fun _ _ hss => removeImportFrom_listGrows hss

/-- The statements that go into a new namespace stay where they are, behind one more line. -/
theorem addNamespace_grows {name : String} {f f' : SourceFile} (h : addNamespace name f = .ok f') :
    f.Grows f' := by
  unfold addNamespace at h
  split at h
  · cases h
  · cases h
    refine grows_of_text f fun layout tail ht => ?_
    let front := f.stmts.take (leadingDeclares f.stmts)
    let back := f.stmts.drop (leadingDeclares f.stmts)
    let inner := back.modifyHead (Spaced.mapTrivia fun t => { t with blankBefore := some true })
    let n : NamespaceDecl := ⟨.empty, some (bareName name), false, inner, []⟩
    have hcut : f.stmts = front ++ back := (List.take_append_drop _ _).symm
    have hback : Respaced back inner := .inr ⟨fun _ => some true, rfl⟩
    have hsame : SameBehindBreak
        (Stmt.listText layout "" true (front.getLast?.or none) back ++ tail)
        (Stmt.listText layout "" true none inner ++ tail) :=
      Stmt.listText_respaced hback none ht
    have hline := hsame.inserts (Stmt.usualGap true (front.getLast?.or none) (.namespace_ n))
      ("namespace" ++ (" " ++ (bareName name ++ ";")))
    nth_rewrite 1 [hcut]
    change Inserts _ (Stmt.listText layout "" true none (front ++ [.namespace_ n]) ++ tail)
    rw [Stmt.listText_append, Stmt.listText_append]
    simp only [String.append_assoc]
    refine Inserts.append_left _ ?_
    have hn : Stmt.listText layout "" true (front.getLast?.or none) [.namespace_ n] =
        lineBreak (Stmt.usualGap true (front.getLast?.or none) (.namespace_ n)) ++
          ("namespace" ++ (" " ++ (bareName name ++ ";"))) ++ Stmt.listText layout ""
            true none inner := by
      simp [Stmt.listText, Stmt.leadingText, Stmt.text, Stmt.namespaceText, Stmt.trivia?,
        Trivia.empty, Trivia.leadingText, Trivia.trailingText, closingText, Expr.linesAt,
        String.append_assoc, n]
    rw [hn]
    simpa only [String.append_assoc] using hline

end SourceFile

namespace Operation

/-- The operations that add something. A routine that may take the place of another is a change. -/
def isAddition : Operation → Bool
  | addMixin _ | addImport .. | addField _ | addConstant .. | addNamespace
      _ | implementInterface _ => true
  | addRoutine spec => !spec.overwrite
  | _ => false

def isRemoval : Operation → Bool
  | removeMixin _ | removeImport _ | removeField _ | removeConstant _ | removeRoutine _ => true
  | _ => false

theorem edit_eq_ok_of_applied {op : Operation} {f : SourceFile} (h : (op.apply f).2 = .applied) :
    op.edit f = .ok (op.apply f).1 := by
  unfold apply Edit.apply at h ⊢
  cases hedit : op.edit f with
  | ok f' => rfl
  | error reason => simp [hedit] at h

/-- Every operation that adds puts one text into the file. -/
theorem grows_of_isAddition {op : Operation} (hop : op.isAddition) {f f' : SourceFile}
    (h : op.edit f = .ok f') : f.Grows f' := by
  cases op with
  | addMixin name => exact SourceFile.onFirstClass_grows h ClassDecl.addUnless_grows
  | addField spec => exact SourceFile.onFirstClass_grows h ClassDecl.addUnless_grows
  | addConstant name value visibility =>
      exact SourceFile.onFirstClass_grows h ClassDecl.addUnless_grows
  | addRoutine spec =>
      exact SourceFile.onFirstClass_grows h
        (ClassDecl.addRoutine_grows (by simpa [isAddition] using hop))
  | implementInterface interface => exact SourceFile.onFirstClass_grows h ClassDecl.implement_grows
  | addImport path localName => exact SourceFile.addImport_grows h
  | addNamespace name => exact SourceFile.addNamespace_grows h
  | _ => cases hop

theorem grows_of_isRemoval {op : Operation} (hop : op.isRemoval) {f f' : SourceFile}
    (h : op.edit f = .ok f') : f'.Grows f := by
  cases op with
  | removeMixin name => exact SourceFile.onFirstClass_shrinks h ClassDecl.atPlace_removeItem_grows
  | removeField name => exact SourceFile.onFirstClass_shrinks h ClassDecl.atPlace_removeItem_grows
  | removeConstant name =>
      exact SourceFile.onFirstClass_shrinks h ClassDecl.atPlace_removeItem_grows
  | removeRoutine name => exact SourceFile.onFirstClass_shrinks h ClassDecl.removeRoutine_grows
  | removeImport path => exact SourceFile.removeImport_grows h
  | _ => cases hop

/-- An operation that adds puts one text into the file that is written, and an operation that
removes takes one out. The rest stays as it is, with any layout and any line ending. -/
theorem text_apply_contiguous (op : Operation) (f : SourceFile) (layout : Layout)
    (h : (op.apply f).2 = .applied) :
    (op.isAddition → ∃ u v w,
      f.text layout = u ++ w ∧ (op.apply f).1.text layout = u ++ v ++ w) ∧
    (op.isRemoval → ∃ u v w,
      f.text layout = u ++ v ++ w ∧ (op.apply f).1.text layout = u ++ w) := by
  have hedit := edit_eq_ok_of_applied h
  refine ⟨fun hop => ?_, fun hop => ?_⟩
  · exact (grows_of_isAddition hop hedit layout).replaceWith layout.lineEnding.toList
  · obtain ⟨u, v, w, hnew, hold⟩ :=
      (grows_of_isRemoval hop hedit layout).replaceWith layout.lineEnding.toList
    exact ⟨u, v, w, hold, hnew⟩

/-- A class with a mixin, a constant and a routine, and with an empty line before the last two. -/
def limited : SourceFile :=
  let gap : Trivia := { Trivia.empty with blankBefore := some true }
  let mixin : MemberStmt :=
    ⟨{ Trivia.empty with blankBefore := some false }, .mixins ⟨["X"], none⟩⟩
  let limit : MemberStmt := ⟨gap, .constants ⟨.empty, none, [⟨"L", .int 1 none⟩]⟩⟩
  let routine : MemberStmt :=
    ⟨gap, .routine ⟨.empty, false, "f", [], false, none, some [], .nextLine⟩⟩
  ⟨none, [.class_ ⟨gap, [], "A", none, [], [mixin, limit, routine], []⟩], [], none⟩

/-- A mixin is added before the empty line, and the constant is removed with the one before it. -/
theorem text_apply_contiguous_mixin :
    limited.text .standard = "\n".intercalate
        ["<?php", "", "class A", "\x7b", "    use X;", "", "    const L = 1;", "",
         "    function f()", "    \x7b", "    \x7d", "\x7d", ""] ∧
      ((addMixin "Y").apply limited).1.text .standard = "\n".intercalate
        ["<?php", "", "class A", "\x7b", "    use X;", "    use Y;", "", "    const L = 1;", "",
         "    function f()", "    \x7b", "    \x7d", "\x7d", ""] ∧
      (∃ u v w, limited.text .standard = u ++ w ∧
        ((addMixin "Y").apply limited).1.text .standard = u ++ v ++ w) ∧
      ((removeConstant "L").apply limited).1.text .standard = "\n".intercalate
        ["<?php", "", "class A", "\x7b", "    use X;", "", "    function f()", "    \x7b",
         "    \x7d", "\x7d", ""] ∧
      ∃ u v w, limited.text .standard = u ++ v ++ w ∧
        ((removeConstant "L").apply limited).1.text .standard = u ++ w := by
  have hadded : ((addMixin "Y").apply limited).2 = .applied := by decide +kernel
  have hremoved : ((removeConstant "L").apply limited).2 = .applied := by decide +kernel
  refine ⟨by decide +kernel, by decide +kernel, ?_, by decide +kernel, ?_⟩
  · exact (text_apply_contiguous (addMixin "Y") limited .standard hadded).1 rfl
  · exact (text_apply_contiguous (removeConstant "L") limited .standard hremoved).2 rfl

end Operation

end ClassEdit
