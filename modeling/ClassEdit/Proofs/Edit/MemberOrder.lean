import ClassEdit.Proofs.Edit.Repeating
import ClassEdit.Proofs.Edit.Target

/-!
The usual order of the members of a class: constants first, then mixins, fields and routines. A new
member is placed by the members of its own kind and of the kinds next to it. Constants are not
looked for, so a class of nothing but constants gives a mixin or a field no place to go by, and it
is put at the top. Main statement: every operation leaves the members in order, except for one that
adds a mixin or a field to such a class.
-/

namespace ClassEdit

namespace MemberCategory

/-- The place of a kind of members in the usual order. -/
def rank : MemberCategory → Nat
  | constant => 0
  | mixin => 1
  | field => 2
  | routine => 3

theorem rank_le_routine (k : MemberCategory) : k.rank ≤ rank .routine := by
  cases k <;> decide

theorem rank_lt {j k : MemberCategory} (hne : j ≠ k) (h : j.rank ≤ k.rank) : j.rank < k.rank := by
  refine Nat.lt_of_le_of_ne h fun heq => hne ?_
  cases j <;> cases k <;> first | rfl | cases heq

theorem eq_constant {k : MemberCategory} (hmixin : k ≠ .mixin) (hfield : k ≠ .field)
    (hroutine : k ≠ .routine) :
    k = .constant := by
  cases k <;> first | rfl | contradiction

end MemberCategory

/-- No member stands behind one of a kind that comes after its own. -/
def InUsualOrder (ms : List MemberStmt) : Prop :=
  (ms.map (·.category)).Pairwise (·.rank ≤ ·.rank)

instance (ms : List MemberStmt) : Decidable (InUsualOrder ms) :=
  inferInstanceAs (Decidable (List.Pairwise _ _))

/-- Order is a matter of the kinds alone. -/
theorem inUsualOrder_congr {ms ms' : List MemberStmt}
    (h : ms.map (·.category) = ms'.map (·.category)) :
    InUsualOrder ms ↔ InUsualOrder ms' := by
  rw [InUsualOrder, h, InUsualOrder]

namespace InUsualOrder

variable {ms front back : List MemberStmt} {m : MemberStmt}

theorem append_iff : InUsualOrder (front ++ back) ↔ InUsualOrder front ∧ InUsualOrder back ∧
    ∀ a ∈ front, ∀ b ∈ back, a.category.rank ≤ b.category.rank := by
  simp [InUsualOrder, List.pairwise_append]

theorem cons_iff : InUsualOrder (m :: back) ↔
    (∀ b ∈ back, m.category.rank ≤ b.category.rank) ∧ InUsualOrder back := by
  simp [InUsualOrder]

theorem of_split (h : InUsualOrder (front ++ m :: back)) :
    (∀ a ∈ front, a.category.rank ≤ m.category.rank) ∧ ∀ b ∈ back, m.category.rank ≤
      b.category.rank :=
  have ⟨_, hback, hacross⟩ := append_iff.1 h
  ⟨fun a ha => hacross a ha m List.mem_cons_self, (cons_iff.1 hback).1⟩

theorem insert_iff (h : InUsualOrder (front ++ back)) : InUsualOrder (front ++ m :: back) ↔
    (∀ a ∈ front, a.category.rank ≤ m.category.rank) ∧ ∀ b ∈ back, m.category.rank ≤
      b.category.rank := by
  refine ⟨of_split, fun ⟨hbefore, hbehind⟩ => ?_⟩
  obtain ⟨hfront, hback, hacross⟩ := append_iff.1 h
  refine append_iff.2 ⟨hfront, cons_iff.2 ⟨hbehind, hback⟩, fun a ha => ?_⟩
  exact List.forall_mem_cons.2 ⟨hbefore a ha, hacross a ha⟩

end InUsualOrder

/-- Up to a place stand no kinds that come after the given one, and from there on none that come
before it. -/
def Divides (k : MemberCategory) (ms : List MemberStmt) (i : Nat) : Prop :=
  ∃ front back, ms = front ++ back ∧ front.length = i ∧
    (∀ a ∈ front, a.category.rank ≤ k.rank) ∧ ∀ b ∈ back, k.rank ≤ b.category.rank

section Place

variable {ms : List MemberStmt} {j k : MemberCategory} {i : Nat}

/-- Behind the last member of a category begins what comes after that category. -/
theorem divides_behind_last (h : InUsualOrder ms) (hj : j.rank ≤ k.rank) (hk : k.rank ≤ j.rank + 1)
    (hlast : lastIdx? (·.category == j) ms = some i) : Divides k ms (i + 1) := by
  obtain ⟨front, m, back, rfl, rfl, hm, hback⟩ := lastIdx?_eq_some_split hlast
  obtain rfl : m.category = j := by simpa using hm
  obtain ⟨hbefore, hbehind⟩ := h.of_split
  refine ⟨front ++ [m], back, by simp, by simp, ?_, fun b hb => ?_⟩
  · simp only [List.mem_append, List.mem_singleton]
    rintro a (ha | rfl)
    · exact Nat.le_trans (hbefore a ha) hj
    · exact hj
  · have hne : b.category ≠ m.category := by simpa using hback b hb
    exact Nat.le_trans hk (MemberCategory.rank_lt hne.symm (hbehind b hb))

theorem divides_before_first (h : InUsualOrder ms) (hk : k.rank ≤ j.rank)
    (hbetween : ∀ m ∈ ms, m.category.rank < j.rank → m.category.rank ≤ k.rank)
    (hfirst : ms.findIdx? (·.category == j) = some i) : Divides k ms i := by
  obtain ⟨front, m, back, rfl, rfl, hm, hfront⟩ := findIdx?_eq_some_split hfirst
  obtain rfl : m.category = j := by simpa using hm
  obtain ⟨hbefore, hbehind⟩ := h.of_split
  refine ⟨front, m :: back, rfl, rfl, fun a ha => ?_, List.forall_mem_cons.2 ⟨hk, fun b hb => ?_⟩⟩
  · have hne : a.category ≠ m.category := by simpa using hfront a ha
    exact hbetween a (by simp [ha]) (MemberCategory.rank_lt hne (hbefore a ha))
  · exact Nat.le_trans hk (hbehind b hb)

/-- A mixin or a field has no place if there are members and all of them are constants. -/
def LacksPlace (k : MemberCategory) (ms : List MemberStmt) : Prop :=
  (k = .mixin ∨ k = .field) ∧ ms ≠ [] ∧ ∀ m ∈ ms, m.category = .constant

/-- The place of a mixin or a field where there is neither of them and no routine. -/
theorem divides_top (hk : k = .mixin ∨ k = .field) (hplace : ¬ LacksPlace k ms)
    (hmixin : ∀ m ∈ ms, m.category ≠ .mixin) (hfield : ∀ m ∈ ms, m.category ≠ .field)
    (hroutine : ∀ m ∈ ms, m.category ≠ .routine) : Divides k ms 0 := by
  have hconstant : ∀ m ∈ ms, m.category = .constant := fun m hm =>
    MemberCategory.eq_constant (hmixin m hm) (hfield m hm) (hroutine m hm)
  obtain rfl : ms = [] := by
    by_contra hne
    exact hplace ⟨hk, hne, hconstant⟩
  exact ⟨[], [], rfl, rfl, List.forall_mem_nil _, List.forall_mem_nil _⟩

theorem memberPosition_mixin (ms : List MemberStmt) : memberPosition ms .mixin =
    (((lastIdx? (·.category == .mixin) ms).map (· + 1)).or
      ((ms.findIdx? (·.category == .field)).or (ms.findIdx? (·.category == .routine)))).getD 0 :=
  rfl

theorem memberPosition_field (ms : List MemberStmt) : memberPosition ms .field =
    ((((lastIdx? (·.category == .field) ms).or (lastIdx? (·.category == .mixin) ms)).map (· + 1)).or
      (ms.findIdx? (·.category == .routine))).getD 0 :=
  rfl

/-- A mixin goes behind the mixins and before all else, unless every member is a constant. -/
theorem divides_memberPosition_mixin (h : InUsualOrder ms) (hplace : ¬ LacksPlace .mixin ms) :
    Divides .mixin ms (memberPosition ms .mixin) := by
  rw [memberPosition_mixin]
  cases hmixin : lastIdx? (·.category == .mixin) ms with
  | some i => exact divides_behind_last (j := .mixin) h (Nat.le_refl _) (Nat.le_succ _) hmixin
  | none =>
    cases hfield : ms.findIdx? (·.category == .field) with
    | some i =>
      exact divides_before_first (j := .field) h (by decide) (fun _ _ => Nat.le_of_lt_succ) hfield
    | none =>
      have hnoField : ∀ m ∈ ms, m.category ≠ .field := by simpa using hfield
      cases hroutine : ms.findIdx? (·.category == .routine) with
      | some i =>
        refine divides_before_first (j := .routine) h (by decide) (fun m hm hlt => ?_) hroutine
        exact Nat.le_of_lt_succ (MemberCategory.rank_lt (hnoField m hm) (Nat.le_of_lt_succ hlt))
      | none =>
        exact divides_top (.inl rfl) hplace (by simpa using lastIdx?_eq_none hmixin) hnoField
          (by simpa using hroutine)

/-- A field goes between the constants and the routines, unless every member is a constant. -/
theorem divides_memberPosition_field (h : InUsualOrder ms) (hplace : ¬ LacksPlace .field ms) :
    Divides .field ms (memberPosition ms .field) := by
  rw [memberPosition_field]
  cases hfield : lastIdx? (·.category == .field) ms with
  | some i => exact divides_behind_last (j := .field) h (Nat.le_refl _) (Nat.le_succ _) hfield
  | none =>
    cases hmixin : lastIdx? (·.category == .mixin) ms with
    | some i => exact divides_behind_last (j := .mixin) h (by decide) (Nat.le_refl _) hmixin
    | none =>
      cases hroutine : ms.findIdx? (·.category == .routine) with
      | some i =>
          exact divides_before_first (j := .routine) h (by decide)
            (fun _ _ => Nat.le_of_lt_succ) hroutine
      | none =>
        exact divides_top (.inr rfl) hplace (by simpa using lastIdx?_eq_none hmixin)
          (by simpa using lastIdx?_eq_none hfield) (by simpa using hroutine)

/-- The place of a new member divides ordered members at its kind, unless there is
nothing to place it by. -/
theorem divides_memberPosition (h : InUsualOrder ms) (hplace : ¬ LacksPlace k ms) :
    Divides k ms (memberPosition ms k) := by
  cases k with
  | mixin => exact divides_memberPosition_mixin h hplace
  | constant => exact ⟨[], ms, rfl, rfl, List.forall_mem_nil _, fun b _ => Nat.zero_le _⟩
  | field => exact divides_memberPosition_field h hplace
  | routine =>
      exact ⟨ms, [], by simp, rfl, fun a _ => a.category.rank_le_routine, List.forall_mem_nil _⟩

/-- What has nothing to go by is put at the top. -/
theorem memberPosition_eq_zero (hplace : LacksPlace k ms) : memberPosition ms k = 0 := by
  obtain ⟨hk, -, hconstant⟩ := hplace
  have first {j : MemberCategory} (hj : j ≠ .constant) : ms.findIdx? (·.category == j) = none := by
    simp only [List.findIdx?_eq_none_iff, beq_eq_false_iff_ne]
    exact fun m hm => hconstant m hm ▸ hj.symm
  have last {j : MemberCategory} (hj : j ≠ .constant) : lastIdx? (·.category == j) ms = none := by
    cases hlast : lastIdx? (·.category == j) ms with
    | none => rfl
    | some i =>
      obtain ⟨front, m, back, rfl, -, hm, -⟩ := lastIdx?_eq_some_split hlast
      exact absurd (hconstant m (by simp)) (by simpa [beq_iff_eq.1 hm] using hj)
  rcases hk with rfl | rfl <;>
    simp [memberPosition, first (j := .field), first (j := .routine), last (j := .mixin),
      last (j := .field)]

theorem Respaced.categories {ms ms' : List MemberStmt} (h : Respaced ms ms') :
    ms'.map (·.category) = ms.map (·.category) :=
  h.map_eq fun _ _ => rfl

/-- Spacing aside, a new member comes between the members before its place and those behind it. -/
theorem inUsualOrder_insertSpaced (front : List MemberStmt) (m : MemberStmt)
    (back : List MemberStmt) :
    InUsualOrder (insertSpaced (front ++ back) front.length m) ↔
      InUsualOrder (front ++ m :: back) := by
  obtain ⟨back', hnew, hback⟩ := insertSpaced_split front m back
  rw [hnew]
  exact inUsualOrder_congr (by simp [hback.categories])

/-- Ordered members stay so with a new one at its place, exactly if there is something to place it
by. -/
theorem inUsualOrder_insertSpaced_iff (h : InUsualOrder ms) (m : MemberStmt) :
    InUsualOrder (insertSpaced ms (memberPosition ms m.category) m) ↔
      ¬ LacksPlace m.category ms := by
  refine ⟨fun hnew hplace => ?_, fun hplace => ?_⟩
  · rw [memberPosition_eq_zero hplace] at hnew
    obtain ⟨hk, hne, hconstant⟩ := hplace
    obtain ⟨c, hc⟩ := List.exists_mem_of_ne_nil _ hne
    have hle := (InUsualOrder.cons_iff.1 ((inUsualOrder_insertSpaced [] m ms).1 hnew)).1 c hc
    rw [hconstant c hc] at hle
    rcases hk with hk | hk <;> rw [hk] at hle <;> cases hle
  · obtain ⟨front, back, rfl, hlen, hbefore, hbehind⟩ := divides_memberPosition h hplace
    rw [← hlen]
    exact (inUsualOrder_insertSpaced front m back).2
      ((InUsualOrder.insert_iff h).2 ⟨hbefore, hbehind⟩)

end Place

namespace Member

theorem category_mapConstants (f : ConstantGroup → ConstantGroup) (m : Member) :
    (m.mapConstants f).category = m.category := by
  cases m <;> rfl

theorem category_mapFields (f : FieldGroup → FieldGroup) (m : Member) :
    (m.mapFields f).category = m.category := by
  cases m <;> rfl

theorem category_mapRoutine (f : Routine → Routine) (m : Member) :
    (m.mapRoutine f).category = m.category := by
  cases m <;> rfl

theorem category_of_mixinIdx? {name : String} {m : Member} (h : (m.mixinIdx? name).isSome) :
    m.category = .mixin := by
  cases m <;> first | rfl | cases h

theorem category_of_fieldIdx? {name : String} {m : Member} (h : (m.fieldIdx? name).isSome) :
    m.category = .field := by
  cases m <;> first | rfl | cases h

end Member

namespace ClassDecl

def IsOrdered (c : ClassDecl) : Prop :=
  InUsualOrder c.members

instance (c : ClassDecl) : Decidable c.IsOrdered :=
  inferInstanceAs (Decidable (InUsualOrder _))

theorem isOrdered_iff (c : ClassDecl) :
    c.IsOrdered ↔ (c.content.map Member.category).Pairwise (·.rank ≤ ·.rank) := by
  rw [IsOrdered, InUsualOrder, content, List.map_map]
  rfl

namespace IsOrdered

variable {c c' : ClassDecl}

theorem splices {old new : List Member} (h : c.IsOrdered)
    (hsplices : Splices old new c.content c'.content)
    (hnew : (new.map Member.category).Sublist (old.map Member.category)) : c'.IsOrdered := by
  rw [isOrdered_iff] at h ⊢
  obtain ⟨front, back, hold, hcontent⟩ := hsplices.map Member.category
  rw [hcontent]
  rw [hold] at h
  exact h.sublist ((hnew.append_left front).append_right back)

theorem replace {m m' : Member} (h : c.IsOrdered) (hsplices : Splices [m] [m'] c.content c'.content)
    (hm : m'.category = m.category) : c'.IsOrdered :=
  h.splices hsplices (by simp [hm])

theorem removeItem {f : MemberStmt → Option Nat} (h : c.IsOrdered)
    (hedit : atPlace (findIn f c.members) c.removeItem = .ok c') : c'.IsOrdered := by
  obtain ⟨i, j, m, hm, rfl⟩ := atPlace_findIn_eq_ok hedit
  rcases content_removeItem hm j with hgone | ⟨-, hless⟩
  · exact h.splices hgone (List.nil_sublist _)
  · exact h.replace hless (m.member.category_eraseItem j)

theorem changeItem {f : MemberStmt → Option Nat} {g : Nat → Member → Member} (h : c.IsOrdered)
    (hg : ∀ j m, (g j m).category = m.category)
    (hedit : atPlace (findIn f c.members) (fun (i, j) => c.mapMember i (g j)) = .ok c') :
    c'.IsOrdered := by
  obtain ⟨i, j, m, hm, rfl⟩ := atPlace_findIn_eq_ok hedit
  exact h.replace (content_mapMember hm (g j)) (hg j m.member)

theorem addRoutine {s : RoutineSpec} (h : c.IsOrdered) (hedit : ClassDecl.addRoutine s c = .ok c') :
    c'.IsOrdered := by
  rcases addRoutine_eq_ok hedit with ⟨-, ⟨hnone, -⟩ | ⟨r, -, hsplices⟩⟩
  · rw [ClassDecl.addRoutine, hnone] at hedit
    cases hedit
    refine InUsualOrder.append_iff.2 ⟨h, by simp [InUsualOrder], fun m _ b hb => ?_⟩
    rw [List.mem_singleton.1 hb]
    exact m.category.rank_le_routine
  · exact h.replace hsplices rfl

theorem addUnless_iff {β : Type} {found : Option β} {m : Member} (h : c.IsOrdered)
    (hedit : addUnless found m c = .ok c') : c'.IsOrdered ↔ ¬ LacksPlace m.category c.members := by
  obtain ⟨-, rfl⟩ := addUnless_eq_ok hedit
  exact inUsualOrder_insertSpaced_iff h (.made m)

theorem bare_iff (c : ClassDecl) : c.bare.IsOrdered ↔ c.IsOrdered :=
  Iff.rfl

end IsOrdered

end ClassDecl

namespace Operation

def addedKind? : Operation → Option MemberCategory
  | addMixin _ => some .mixin
  | addConstant .. => some .constant
  | addField _ => some .field
  | addRoutine _ => some .routine
  | removeMixin _ | removeConstant _ | removeField _ | removeRoutine _ => none
  | changeField _ | extendField .. | changeConstant .. | changeRoutine _ => none
  | renameClass _ | extendClass _ | implementInterface _ => none
  | addImport .. | removeImport _ | changeNamespace _ | addNamespace _ => none

/-- The operation adds a mixin or a field to a class of nothing but constants. -/
def AddsBeforeConstants (op : Operation) (c : ClassDecl) : Prop :=
  ∃ k, op.addedKind? = some k ∧ LacksPlace k c.members

theorem addedKind?_eq_none {op : Operation} (h : op.classEdit? = none) : op.addedKind? = none := by
  cases op <;> first | rfl | cases h

section Apply

variable {op : Operation} {edit : Edit ClassDecl} {c c' : ClassDecl}

theorem addsBeforeConstants_iff {k : MemberCategory} (hop : op.addedKind? = some k) :
    op.AddsBeforeConstants c ↔ LacksPlace k c.members := by
  simp [AddsBeforeConstants, hop]

theorem not_addsBeforeConstants (hop : op.addedKind? = none) : ¬ op.AddsBeforeConstants c := by
  simp [AddsBeforeConstants, hop]

theorem not_lacksPlace_routine (ms : List MemberStmt) : ¬ LacksPlace .routine ms :=
  fun ⟨hk, _⟩ => by simp at hk

/-- An edit keeps the order of the members exactly if it does not put a member before the
constants. -/
theorem isOrdered_edit_iff (h : c.IsOrdered) (hop : op.classEdit? = some edit)
    (hedit : edit c = .ok c') :
    c'.IsOrdered ↔ ¬ op.AddsBeforeConstants c := by
  cases op <;> cases hop
  case addMixin name =>
    rw [addsBeforeConstants_iff rfl]
    exact h.addUnless_iff hedit
  case addField spec =>
    rw [addsBeforeConstants_iff rfl]
    exact h.addUnless_iff hedit
  case addConstant name value visibility =>
    rw [addsBeforeConstants_iff rfl]
    exact h.addUnless_iff hedit
  case addRoutine spec =>
    rw [addsBeforeConstants_iff rfl]
    exact iff_of_true (h.addRoutine hedit) (not_lacksPlace_routine _)
  all_goals
    refine iff_of_true ?_ (not_addsBeforeConstants rfl)
  case removeMixin name => exact h.removeItem hedit
  case removeField name => exact h.removeItem hedit
  case removeConstant name => exact h.removeItem hedit
  case changeField spec => exact h.changeItem (fun _ => Member.category_mapFields _) hedit
  case extendField name additions => exact h.changeItem (fun _ => Member.category_mapFields _) hedit
  case changeConstant name value visibility =>
    exact h.changeItem (fun _ => Member.category_mapConstants _) hedit
  case changeRoutine change =>
    obtain ⟨i, m, hm, rfl⟩ := ClassDecl.atPlace_findRoutine_eq_ok hedit
    exact h.replace (ClassDecl.content_mapMember hm _) (Member.category_mapRoutine _ _)
  case removeRoutine name =>
    obtain ⟨i, m, hm, rfl⟩ := ClassDecl.atPlace_findRoutine_eq_ok hedit
    exact h.splices (ClassDecl.content_removeSpaced hm) (List.nil_sublist _)
  case renameClass name =>
    cases hedit
    exact h
  case extendClass parent =>
    unfold ClassDecl.extend at hedit
    split at hedit <;> cases hedit
    exact h
  case implementInterface interface =>
    unfold ClassDecl.implement at hedit
    split at hedit <;> cases hedit
    exact h

/-- Among nothing but constants, no mixin or field is found that could be there already. -/
theorem addUnless_ne_error {k : MemberCategory} {f : MemberStmt → Option Nat} {m : Member}
    {reason : SkipReason} (hplace : LacksPlace k c.members)
    (hf : ∀ x, (f x).isSome → x.category = k) :
    ClassDecl.addUnless (findIn f c.members) m c ≠ .error reason := by
  intro h
  obtain ⟨hk, -, hconstant⟩ := hplace
  unfold ClassDecl.addUnless at h
  split at h
  next hfound =>
    obtain ⟨x, hx, hsome⟩ := isSome_findIn.1 hfound
    have hcategory := (hf x hsome).symm.trans (hconstant x hx)
    simp [hcategory] at hk
  next => cases h

theorem not_addsBeforeConstants_of_error {reason : SkipReason} (hop : op.classEdit? = some edit)
    (hedit : edit c = .error reason) : ¬ op.AddsBeforeConstants c := by
  rintro ⟨k, hk, hplace⟩
  cases op <;> cases hk <;> cases hop
  case addMixin name =>
    exact addUnless_ne_error hplace (fun _ => Member.category_of_mixinIdx?) hedit
  case addField spec =>
    exact addUnless_ne_error hplace (fun _ => Member.category_of_fieldIdx?) hedit
  case addConstant name value visibility => exact absurd hplace.1 (by decide)
  case addRoutine spec => exact not_lacksPlace_routine _ hplace

end Apply

/-- The members of the first class stand in their usual order after an operation if they did before,
unless the operation adds a mixin or a field and there is no member but constants. -/
theorem isOrdered_apply_iff (op : Operation) {f : SourceFile} {c : ClassDecl}
    (hf : f.firstClass = some c) (h : c.IsOrdered) :
    ∃ c', (op.apply f).1.firstClass = some c' ∧ (c'.IsOrdered ↔ ¬ op.AddsBeforeConstants c) := by
  cases hop : op.classEdit? with
  | none =>
    have hnone : ¬ op.AddsBeforeConstants c := not_addsBeforeConstants (addedKind?_eq_none hop)
    rcases op.apply_eq_or_effect f with hsame | heffect
    · exact ⟨c, by rw [hsame, hf], iff_of_true h hnone⟩
    · cases heffect with
      | onClass hedit => rw [hop] at hedit; cases hedit
      | onScope contents _ =>
        have hbare := contents.firstClass_eq
        rw [hf, Option.map_some] at hbare
        obtain ⟨c', hc', hsame⟩ := Option.map_eq_some_iff.1 hbare
        refine ⟨c', hc', iff_of_true ?_ hnone⟩
        rwa [← ClassDecl.IsOrdered.bare_iff, hsame, ClassDecl.IsOrdered.bare_iff]
  | some edit =>
    rw [apply, edit_of_classEdit? hop, Edit.apply]
    split
    next f' hf' =>
      obtain ⟨d, c', hedit, hd, hc', -⟩ := SourceFile.onFirstClass_eq_ok hf'
      obtain rfl := Option.some.inj (hd.symm.trans hf)
      exact ⟨c', hc', isOrdered_edit_iff h hop hedit⟩
    next reason hreason =>
      have hrefused := SourceFile.reason?_onFirstClass edit f
      rw [hreason, hf, Option.elim_some, Edit.reason?] at hrefused
      have hedit := Edit.reason?_eq_some.1 hrefused.symm
      exact ⟨c, hf, iff_of_true h (not_addsBeforeConstants_of_error hop hedit)⟩

/-- A mixin that comes to ordered members without a mixin and a field. -/
theorem isOrdered_apply_iff_mixin :
    let run : Routine := ⟨.ofVisibility .everyone, false, "run", [], false, none, none, .nextLine⟩
    let limit : ConstantGroup := ⟨.empty, none, [⟨"LIMIT", .ofValue (.int 1)⟩]⟩
    let c : ClassDecl :=
      ⟨.empty, [], "A", none, [], [.made (.constants limit), .made (.routine run)], []⟩
    let f : SourceFile := ⟨none, [.class_ c], [], none⟩
    f.firstClass = some c ∧ c.IsOrdered ∧ ¬ (addMixin "M").AddsBeforeConstants c ∧
      ∃ c', ((addMixin "M").apply f).1.firstClass = some c' ∧ c'.IsOrdered := by
  intro run limit c f
  have hplace : ¬ (addMixin "M").AddsBeforeConstants c := by
    simp [AddsBeforeConstants, addedKind?, LacksPlace, c, MemberStmt.made,
      MemberStmt.category, Member.category]
  obtain ⟨c', hc', hiff⟩ := isOrdered_apply_iff (addMixin "M") (f := f) (c := c) rfl (by decide)
  exact ⟨rfl, by decide, hplace, c', hc', hiff.2 hplace⟩

/-- A field is put before the only member of a class, a constant. -/
theorem not_isOrdered_apply_field :
    let limit : ConstantGroup := ⟨.empty, none, [⟨"LIMIT", .ofValue (.int 1)⟩]⟩
    let c : ClassDecl := ⟨.empty, [], "A", none, [], [.made (.constants limit)], []⟩
    let f : SourceFile := ⟨none, [.class_ c], [], none⟩
    f.firstClass = some c ∧ c.IsOrdered ∧
      ¬ ∃ c', ((addField ⟨"limit", none, none, none⟩).apply f).1.firstClass = some c' ∧
        c'.IsOrdered := by
  refine ⟨rfl, by decide, ?_⟩
  rintro ⟨c', hc', hordered⟩
  obtain rfl := Option.some.inj hc'
  revert hordered
  decide

end Operation

end ClassEdit
