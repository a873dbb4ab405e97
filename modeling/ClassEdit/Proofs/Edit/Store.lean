import ClassEdit.Proofs.Edit.Facets

/-!
The fields of a class and its constants as a keyed store. A name stands for the first field of that
name, or the first constant, with the modifiers and the type of its group. Main statement: adding,
removing and changing are the calls of such a store. Each one says what becomes of the name that it
is about and leaves all other names alone, but for a change of a type or a visibility, which all
names of the group share.
-/

namespace ClassEdit

structure Entry where
  modifiers : Modifiers
  type : Option String
  /-- The value of a constant or the default of a field. -/
  value : Option Expr

namespace Entry

/-- The entry with what a change makes of the whole group. A visibility takes the place of the old
keyword. -/
def regrouped (ch : Change) (e : Entry) : Entry where
  modifiers := ch.visibility.elim e.modifiers fun v =>
    { e.modifiers with visibility := some v, isVar := false }
  type := ch.type.elim e.type fun t => if t.isEmpty then none else some t
  value := e.value

/-- The entry with all that a change makes of the thing that it names. -/
def altered (ch : Change) (e : Entry) : Entry :=
  { e.regrouped ch with value := (ch.value.map Expr.ofValue).or e.value }

end Entry

def FieldGroup.entry (g : FieldGroup) (x : Field) : String × Entry :=
  (x.name, ⟨g.modifiers, g.type, x.default⟩)

def ConstantGroup.entry (g : ConstantGroup) (x : Constant) : String × Entry :=
  (x.name, ⟨g.modifiers, g.type, some x.value⟩)

namespace Member

/-- What a member declares, by name, of the fields or of the constants. -/
def entries : MemberCategory → Member → List (String × Entry)
  | .constant, constants g => g.items.map g.entry
  | .field, fields g => g.items.map g.entry
  | _, _ => []

def entryIdx? (k : MemberCategory) (name : String) (m : Member) : Option Nat :=
  (m.entries k).findIdx? (·.1 == name)

theorem fieldIdx?_eq (name : String) (m : Member) : m.fieldIdx? name = m.entryIdx? .field name := by
  cases m <;> simp [fieldIdx?, entryIdx?, entries, FieldGroup.entry, List.findIdx?_map,
    Function.comp_def]

theorem constantIdx?_eq (name : String) (m : Member) :
    m.constantIdx? name = m.entryIdx? .constant name := by
  cases m <;> simp [constantIdx?, entryIdx?, entries, ConstantGroup.entry, List.findIdx?_map,
    Function.comp_def]

theorem entries_eraseItem (k : MemberCategory) (m : Member) (j : Nat) :
    (m.eraseItem j).entries k = (m.entries k).eraseIdx j := by
  cases k <;> cases m <;> simp [entries, eraseItem, List.eraseIdx_map, FieldGroup.entry,
    ConstantGroup.entry]

theorem length_entries {k : MemberCategory} {m : Member} (h : m.entries k ≠ []) :
    (m.entries k).length = m.itemCount := by
  cases k <;> cases m <;> simp_all [entries, itemCount]

end Member

namespace ClassDecl

/-- What a class declares, by name, of the fields or of the constants. -/
def entries (k : MemberCategory) (c : ClassDecl) : List (String × Entry) :=
  c.members.flatMap (·.member.entries k)

def stored? (k : MemberCategory) (name : String) (c : ClassDecl) : Option Entry :=
  (c.entries k).lookup name

def declaration? (k : MemberCategory) (name : String) (c : ClassDecl) : Option Nat :=
  c.members.findIdx? fun s => (s.member.entries k).any (·.1 == name)

end ClassDecl

/-- The second member is the first with the group of a name changed, and of the values
that of the name alone. -/
structure Member.AlteredBy (k : MemberCategory) (name : String) (ch : Change) (m m' : Member) :
    Prop where
  category : m'.category = m.category
  entries : ∃ front e back, m.entries k = front ++ (name, e) :: back ∧ (∀ x ∈ front, x.1 ≠ name) ∧
    m'.entries k = front.map (Prod.map id (.regrouped ch)) ++
      (name, e.altered ch) :: back.map (Prod.map id (.regrouped ch))

/-- A call of the store of fields or of constants. -/
inductive StoreCall where
  | put (name : String) (e : Entry)
  | drop (name : String)
  | alter (name : String) (ch : Change)

namespace StoreCall

/-- Whether the call can be done: a name is put in if it is not there, and dropped or altered if it
is. -/
def Fits (k : MemberCategory) (c : ClassDecl) : StoreCall → Prop
  | put name _ => c.stored? k name = none
  | drop name | alter name _ => c.stored? k name ≠ none

/-- What the call does. A name that is declared more than once is still there when the
first of it was dropped. -/
def Does (k : MemberCategory) (c c' : ClassDecl) : StoreCall → Prop
  | put name e =>
      c'.stored? k name = some e ∧ ∀ other ≠ name, c'.stored? k other = c.stored? k other
  | drop name => (((c.entries k).map Prod.fst).Nodup → c'.stored? k name = none) ∧
      ∀ other ≠ name, c'.stored? k other = c.stored? k other
  | alter name ch => c'.stored? k name = (c.stored? k name).map (.altered ch) ∧
      (∀ other ≠ name, c'.stored? k other =
        if c.declaration? k other = c.declaration? k name
          then (c.stored? k other).map (.regrouped ch)
        else c.stored? k other) ∧
      ∃ front s back m', c.members = front ++ s :: back ∧ c.declaration? k name =
        some front.length ∧
        s.member.AlteredBy k name ch m' ∧
          c' = { c with members := front ++ { s with member := m' } :: back }

end StoreCall

/-- The call that an operation on a field or on a constant is. A field is for heirs and a constant
is for everyone if nothing else is asked for, and an empty type is none. -/
def Operation.storeCall? : Operation → Option (MemberCategory × StoreCall)
  | addField s => some (.field, .put s.name
      ⟨.ofVisibility (s.visibility.getD .heirs), s.type.filter (!·.isEmpty),
        s.default.map Expr.ofValue⟩)
  | removeField name => some (.field, .drop name)
  | changeField s => some (.field, .alter s.name ⟨s.type, s.visibility, s.default, none, none⟩)
  | addConstant name value visibility => some (.constant, .put name
      ⟨.ofVisibility (visibility.getD .everyone), none, some (.ofValue value)⟩)
  | removeConstant name => some (.constant, .drop name)
  | changeConstant name value visibility =>
      some (.constant, .alter name ⟨none, visibility, value, none, none⟩)
  | _ => none

section Lookup

variable {β : Type} {name other : String} {xs : List (String × β)}

theorem lookup_eraseP_of_ne (h : other ≠ name) (xs : List (String × β)) :
    (xs.eraseP (·.1 == name)).lookup other = xs.lookup other := by
  induction xs with
  | nil => rfl
  | cons x xs ih =>
    by_cases hx : x.1 = name
    · have hother : (other == x.1) = false := by simpa [hx] using h
      rw [List.eraseP_cons_of_pos (by simpa using hx), List.lookup_cons, hother]
    · rw [List.eraseP_cons_of_neg (by simpa using hx), List.lookup_cons, List.lookup_cons, ih]

/-- Where no name comes twice, one that was erased is not found again. -/
theorem lookup_eraseP_of_nodup (h : (xs.map Prod.fst).Nodup) :
    (xs.eraseP (·.1 == name)).lookup name = none := by
  induction xs with
  | nil => rfl
  | cons x xs ih =>
    obtain ⟨hx, hxs⟩ := List.nodup_cons.1 h
    by_cases hname : x.1 = name
    · rw [List.eraseP_cons_of_pos (by simpa using hname), List.lookup_eq_none_iff]
      intro y hy
      have hne : name ≠ y.1 := fun heq => hx (List.mem_map.2 ⟨y, hy, by rw [← heq, hname]⟩)
      simpa using hne
    · have hother : (name == x.1) = false := by simpa using Ne.symm hname
      rw [List.eraseP_cons_of_neg (by simpa using hname), List.lookup_cons, hother]
      exact ih hxs

theorem lookup_eq_none_iff_any : xs.lookup name = none ↔ xs.any (·.1 == name) = false := by
  rw [List.lookup_eq_none_iff, List.any_eq_false]
  refine forall₂_congr fun x _ => ?_
  simp [ne_comm]

theorem lookup_flatMap_eq_none_iff {α : Type} {g : α → List (String × β)} {ys : List α} :
    (ys.flatMap g).lookup name = none ↔ ∀ y ∈ ys, (g y).any (·.1 == name) = false := by
  rw [lookup_eq_none_iff_any, List.any_flatMap, List.any_eq_false]
  simp only [Bool.not_eq_true]

theorem lookup_map_snd (f : β → β) (name : String) (xs : List (String × β)) :
    (xs.map (Prod.map id f)).lookup name = (xs.lookup name).map f := by
  induction xs with
  | nil => rfl
  | cons x xs ih =>
    obtain ⟨other, b⟩ := x
    cases h : name == other <;> simp [List.lookup_cons, h, ih]

theorem lookup_behind {front back : List (String × β)} (hfront : ∀ x ∈ front, x.1 ≠ name) (b : β) :
    (front ++ (name, b) :: back).lookup name = some b := by
  have hnone : front.lookup name = none := by
    rw [List.lookup_eq_none_iff]
    intro x hx
    simpa using (hfront x hx).symm
  rw [List.lookup_append, hnone, Option.none_or, List.lookup_cons_self]

/-- The value of one name is nothing to the others. -/
theorem lookup_append_cons_of_ne (h : other ≠ name) (front back : List (String × β)) (b : β) :
    (front ++ (name, b) :: back).lookup other = (front ++ back).lookup other := by
  have hne : (other == name) = false := by simpa using h
  rw [List.lookup_append, List.lookup_cons, hne, List.lookup_append]

end Lookup

theorem findIdx?_eq_length_iff {α : Type} {p : α → Bool} {front back : List α} {x : α} :
    (front ++ x :: back).findIdx? p = some front.length ↔ (∀ y ∈ front, p y = false) ∧
      p x = true := by
  constructor
  · intro h
    obtain ⟨front', x', back', hsplit, hlen, hx', hfront'⟩ := findIdx?_eq_some_split h
    obtain ⟨rfl, hrest⟩ := List.append_inj hsplit hlen.symm
    cases hrest
    exact ⟨hfront', hx'⟩
  · rintro ⟨hfront, hx⟩
    exact findIdx?_behind hfront back hx

namespace ClassDecl

variable {k : MemberCategory} {name : String} {c : ClassDecl} {front back : List MemberStmt}
  {s : MemberStmt} {j : Nat}

theorem entries_eq (hc : c.members = front ++ s :: back) :
    c.entries k = front.flatMap (·.member.entries k) ++
      (s.member.entries k ++ back.flatMap (·.member.entries k)) := by
  rw [entries, hc, List.flatMap_append, List.flatMap_cons]

/-- A name has an entry if the search for it finds one. -/
theorem findIn_entryIdx?_eq_none_iff :
    findIn (·.member.entryIdx? k name) c.members = none ↔ c.stored? k name = none := by
  rw [← Option.not_isSome_iff_eq_none, isSome_findIn, stored?, entries, lookup_flatMap_eq_none_iff]
  simp only [Member.entryIdx?, List.findIdx?_isSome, not_exists, not_and, Bool.not_eq_true]

/-- A member with one entry puts that entry among those of its category, and nothing else. -/
theorem does_put {m : Member} {e : Entry} (hm : m.entries k = [(name, e)])
    (hnone : c.stored? k name = none) :
    (StoreCall.put name e).Does k c (c.insertMember m) := by
  obtain ⟨front, back, back', hold, hnew, hback⟩ :=
    insertSpaced_eq (memberPosition_le c.members m.category) (.made m)
  let before := front.flatMap (·.member.entries k)
  let behind := back.flatMap (·.member.entries k)
  have hentries : c.entries k = before ++ behind := by rw [entries, hold, List.flatMap_append]
  have hentries' : (c.insertMember m).entries k = before ++ (name, e) :: behind := by
    rw [entries_eq hnew, hback.flatMap_eq fun _ _ => rfl, MemberStmt.made, hm]
    rfl
  rw [stored?, hentries, List.lookup_append, Option.or_eq_none_iff] at hnone
  refine ⟨?_, fun other hother => ?_⟩
  · rw [stored?, hentries', List.lookup_append, hnone.1, Option.none_or, List.lookup_cons_self]
  · rw [stored?, stored?, hentries, hentries', lookup_append_cons_of_ne hother]

/-- The first entry of the name goes, with its statement if that has no other. -/
theorem entries_removeItem (hc : c.members = front ++ s :: back)
    (hfront : ∀ y ∈ front, y.member.entryIdx? k name = none)
    (hj : s.member.entryIdx? k name = some j) :
    (c.removeItem (front.length, j)).entries k = (c.entries k).eraseP (·.1 == name) := by
  have hlt : j < (s.member.entries k).length := (List.findIdx?_eq_some_iff_getElem.1 hj).1
  have hcount : (s.member.entries k).length = s.member.itemCount :=
    Member.length_entries (List.ne_nil_of_length_pos (by omega))
  have herase : (c.entries k).eraseP (·.1 == name) = front.flatMap (·.member.entries k) ++
      ((s.member.entries k).eraseIdx j ++ back.flatMap (·.member.entries k)) := by
    rw [entries, hc]
    exact eraseP_flatMap_split (g := fun s : MemberStmt => s.member.entries k) back hfront hj
  have hget : c.members[front.length]? = some s := by simp [hc]
  rw [herase, removeItem, hget, Option.any_some]
  split
  next hmore =>
    have hmembers := congrArg members (mapMember_split hc (.eraseItem j))
    rw [entries_eq hmembers, Member.entries_eraseItem]
  next hone =>
    obtain ⟨back', hgone, hback⟩ := removeSpaced_split front s back
    have hleft : (s.member.entries k).eraseIdx j = [] := by
      rw [← List.length_eq_zero_iff, List.length_eraseIdx_of_lt hlt]
      have hcount' : ¬1 < s.member.itemCount := by simpa using hone
      omega
    rw [hleft, entries, hc, hgone, List.flatMap_append, hback.flatMap_eq fun _ _ => rfl]
    rfl

theorem does_drop (hc : c.members = front ++ s :: back)
    (hfront : ∀ y ∈ front, y.member.entryIdx? k name = none)
    (hj : s.member.entryIdx? k name = some j) :
    (StoreCall.drop name).Does k c (c.removeItem (front.length, j)) := by
  refine ⟨fun hnodup => ?_, fun other hother => ?_⟩
  · rw [stored?, entries_removeItem hc hfront hj, lookup_eraseP_of_nodup hnodup]
  · rw [stored?, entries_removeItem hc hfront hj, lookup_eraseP_of_ne hother, stored?]

end ClassDecl

namespace Member.AlteredBy

variable {k : MemberCategory} {name other : String} {ch : Change} {m m' : Member}

theorem lookup_self (h : m.AlteredBy k name ch m') :
    (m.entries k).lookup name ≠ none ∧
      (m'.entries k).lookup name = ((m.entries k).lookup name).map (.altered ch) := by
  obtain ⟨front, e, back, hold, hfront, hnew⟩ := h.entries
  have hfront' : ∀ x ∈ front.map (Prod.map id (Entry.regrouped ch)), x.1 ≠ name :=
    List.forall_mem_map.2 hfront
  rw [hold, hnew, lookup_behind hfront, lookup_behind hfront']
  exact ⟨nofun, rfl⟩

theorem lookup_of_ne (h : m.AlteredBy k name ch m') (hother : other ≠ name) :
    (m'.entries k).lookup other = ((m.entries k).lookup other).map (.regrouped ch) := by
  obtain ⟨front, e, back, hold, -, hnew⟩ := h.entries
  rw [hold, hnew, lookup_append_cons_of_ne hother, lookup_append_cons_of_ne hother,
    ← List.map_append, lookup_map_snd]

end Member.AlteredBy

namespace ClassDecl

variable {k : MemberCategory} {name : String} {c : ClassDecl} {front back : List MemberStmt}
  {s : MemberStmt} {j : Nat}

theorem stored?_eq (hc : c.members = front ++ s :: back) (name : String) : c.stored? k name =
    ((front.flatMap (·.member.entries k)).lookup name).or
      (((s.member.entries k).lookup name).or
        ((back.flatMap (·.member.entries k)).lookup name)) := by
  rw [stored?, entries_eq hc, List.lookup_append, List.lookup_append]

theorem declaration?_eq_iff (hc : c.members = front ++ s :: back) (name : String) :
    c.declaration? k name = some front.length ↔
      (front.flatMap (·.member.entries k)).lookup name = none ∧
        (s.member.entries k).lookup name ≠ none := by
  rw [declaration?, hc, findIdx?_eq_length_iff, lookup_flatMap_eq_none_iff, ne_eq,
    lookup_eq_none_iff_any, Bool.not_eq_false]

/-- The names of a statement that is changed are those that are declared there first; the others are
found before it, or behind it as they were. -/
theorem does_alter {ch : Change} {m' : Member} (hc : c.members = front ++ s :: back)
    (hfront : ∀ y ∈ front, y.member.entryIdx? k name = none)
    (hm : s.member.AlteredBy k name ch m') :
    (StoreCall.alter name ch).Does k c
    { c with members := front ++ { s with member := m' } :: back } := by
  let c' : ClassDecl := { c with members := front ++ { s with member := m' } :: back }
  let before := front.flatMap (·.member.entries k)
  have hc' : c'.members = front ++ { s with member := m' } :: back := rfl
  have hname : before.lookup name = none := by
    rw [lookup_flatMap_eq_none_iff]
    intro y hy
    rw [← List.findIdx?_isSome, ← Member.entryIdx?, hfront y hy]
    rfl
  have hdeclared : c.declaration? k name = some front.length :=
    (declaration?_eq_iff hc name).2 ⟨hname, hm.lookup_self.1⟩
  refine ⟨?_, fun other hother => ?_, front, s, back, m', hc, hdeclared, hm, rfl⟩
  · obtain ⟨e, he⟩ := Option.ne_none_iff_exists'.1 hm.lookup_self.1
    rw [stored?_eq hc, stored?_eq hc', hname, hm.lookup_self.2, he]
    rfl
  · rw [hdeclared, stored?_eq hc, stored?_eq hc', hm.lookup_of_ne hother]
    -- A name that is declared elsewhere first is found before the statement, or not in it at all.
    by_cases hsame : c.declaration? k other = some front.length
    · obtain ⟨hbefore, hhere⟩ := (declaration?_eq_iff hc other).1 hsame
      obtain ⟨e, he⟩ := Option.ne_none_iff_exists'.1 hhere
      rw [if_pos hsame, hbefore, he]
      rfl
    · rw [if_neg hsame]
      rw [declaration?_eq_iff hc, not_and, not_not] at hsame
      cases hbefore : before.lookup other with
      | some e => rfl
      | none => rw [hsame hbefore]; rfl

end ClassDecl

namespace FieldGroup

variable (s : FieldSpec) (j : Nat) (g : FieldGroup)

theorem modifiers_change : (g.change s j).modifiers =
    s.visibility.elim g.modifiers fun v =>
      { g.modifiers with visibility := some v, isVar := false } := by
  obtain ⟨name, default, visibility, type⟩ := s
  cases default <;> cases visibility <;> cases type <;> rfl

theorem entry_change (x : Field) : (g.change s j).entry x =
    Prod.map id (.regrouped ⟨s.type, s.visibility, s.default, none, none⟩) (g.entry x) := by
  simp only [entry, modifiers_change, type_change, Prod.map, id, Entry.regrouped]

end FieldGroup

namespace ConstantGroup

variable (value : Option Value) (visibility : Option Visibility) (j : Nat) (g : ConstantGroup)

theorem modifiers_change : (g.change value visibility j).modifiers =
    visibility.elim g.modifiers fun v =>
      { g.modifiers with visibility := some v, isVar := false } := by
  cases value <;> cases visibility <;> rfl

theorem entry_change (x : Constant) : (g.change value visibility j).entry x =
    Prod.map id (.regrouped ⟨none, visibility, value, none, none⟩) (g.entry x) := by
  simp only [entry, modifiers_change, type_change, Prod.map, id, Entry.regrouped, Option.elim_none]

end ConstantGroup

namespace Member

/-- The things that a member declares are entries of its group, and one of them gets another
value. -/
theorem alteredBy_of_items {α : Type} {k : MemberCategory} {name : String}
    {ch : Change} {m m' : Member} {entry entry' : α → String × Entry} {front back : List α}
    {x x' : α} (hcategory : m'.category = m.category)
    (hm : m.entries k = (front ++ x :: back).map entry)
    (hm' : m'.entries k = (front ++ x' :: back).map entry')
    (hentry : ∀ y, entry' y = Prod.map id (.regrouped ch) (entry y))
    (hfront : ∀ y ∈ front, (entry y).1 ≠ name) (hx : (entry x).1 = name)
    (hx' : entry' x' = (name, (entry x).2.altered ch)) : m.AlteredBy k name ch m' := by
  have hmap (ys : List α) : ys.map entry' = (ys.map entry).map (Prod.map id (.regrouped ch)) := by
    simp [hentry]
  refine ⟨hcategory, front.map entry, (entry x).2, back.map entry, ?_,
    List.forall_mem_map.2 hfront, ?_⟩
  · rw [hm, List.map_append, List.map_cons, ← hx]
  · rw [hm', List.map_append, List.map_cons, hx', hmap, hmap]

/-- The field of the name is altered, and those declared with it keep their defaults. -/
theorem alteredBy_changeField {s : FieldSpec} {m : Member} {j : Nat}
    (hj : m.entryIdx? .field s.name = some j) :
    m.AlteredBy .field s.name ⟨s.type, s.visibility, s.default, none, none⟩
      (m.mapFields (.change s j)) := by
  cases m with
  | fields g =>
    rw [← fieldIdx?_eq] at hj
    obtain ⟨front, x, back, hg, rfl, hx, hfront⟩ := findIdx?_eq_some_split hj
    let x' : Field := { x with default := (s.default.map Expr.ofValue).or x.default }
    have hitems : (g.change s front.length).items = front ++ x' :: back := by
      rw [FieldGroup.items_change, hg]
      cases hdefault : s.default with
      | none => simp [x', hdefault]
      | some v => simp [x', hdefault, modify_append_cons]
    refine alteredBy_of_items rfl (congrArg (List.map g.entry) hg) (congrArg (List.map _) hitems)
      (g.entry_change s front.length) (by simpa [FieldGroup.entry] using hfront)
        (beq_iff_eq.1 hx) ?_
    rw [g.entry_change]
    simpa [FieldGroup.entry, Entry.altered, Entry.regrouped, x'] using hx
  | _ => cases hj

/-- The constant of the name is altered, and those declared with it keep their values. -/
theorem alteredBy_changeConstant {name : String} {value : Option Value}
    {visibility : Option Visibility} {m : Member} {j : Nat}
    (hj : m.entryIdx? .constant name = some j) :
    m.AlteredBy .constant name ⟨none, visibility, value, none, none⟩
      (m.mapConstants (.change value visibility j)) := by
  cases m with
  | constants g =>
    rw [← constantIdx?_eq] at hj
    obtain ⟨front, x, back, hg, rfl, hx, hfront⟩ := findIdx?_eq_some_split hj
    let x' : Constant := { x with value := (value.map Expr.ofValue).getD x.value }
    have hitems : (g.change value visibility front.length).items = front ++ x' :: back := by
      rw [ConstantGroup.items_change, hg]
      cases value with
      | none => rfl
      | some v => exact modify_append_cons front x back _
    refine alteredBy_of_items rfl (congrArg (List.map g.entry) hg) (congrArg (List.map _) hitems)
      (g.entry_change value visibility front.length) (by simpa [ConstantGroup.entry] using hfront)
      (beq_iff_eq.1 hx) ?_
    rw [g.entry_change]
    obtain rfl : x.name = name := by simpa using hx
    cases value <;> rfl
  | _ => cases hj

end Member

namespace StoreCall

/-- What an edit of a class comes to if it is the call: it is refused if the call cannot be
done, and else does it. -/
def Settles (k : MemberCategory) (c : ClassDecl) (call : StoreCall)
    (result : Except SkipReason ClassDecl) : Prop :=
  (¬call.Fits k c ∧ ∃ reason, result = .error reason) ∨
    (call.Fits k c ∧ ∃ c', result = .ok c' ∧ call.Does k c c')

variable {k : MemberCategory} {name : String} {c : ClassDecl}

open ClassDecl

/-- An entry is put if its name is free, and else the addition is skipped. -/
theorem put_settles {m : Member} {e : Entry} (hm : m.entries k = [(name, e)]) :
    (put name e).Settles k c (addUnless (findIn (·.member.entryIdx? k name) c.members) m c) := by
  cases hfound : findIn (·.member.entryIdx? k name) c.members with
  | none =>
    have hnone := findIn_entryIdx?_eq_none_iff.1 hfound
    exact .inr ⟨hnone, _, rfl, does_put hm hnone⟩
  | some place =>
    have hthere : c.stored? k name ≠ none := by
      rw [ne_eq, ← findIn_entryIdx?_eq_none_iff, hfound]
      exact nofun
    exact .inl ⟨hthere, .duplicate, rfl⟩

/-- What is done at the place of a name is refused if there is none. -/
theorem settles_atPlace {call : StoreCall} {g : Nat × Nat → ClassDecl}
    (hfits : call.Fits k c ↔ c.stored? k name ≠ none)
    (hg : ∀ {front s back j}, c.members = front ++ s :: back →
      (∀ y ∈ front, y.member.entryIdx? k name = none) →
      s.member.entryIdx? k name = some j → call.Does k c (g (front.length, j))) :
    call.Settles k c (atPlace (findIn (·.member.entryIdx? k name) c.members) g) := by
  rw [Settles, hfits, ne_eq, ← findIn_entryIdx?_eq_none_iff]
  cases hfound : findIn (·.member.entryIdx? k name) c.members with
  | none => exact .inl ⟨not_not_intro rfl, .notFound, rfl⟩
  | some place =>
    obtain ⟨front, s, back, hc, hlen, hs, hfront⟩ := findIn_eq_some_split hfound
    refine .inr ⟨nofun, _, rfl, ?_⟩
    rw [← place.eta, ← hlen]
    exact hg hc hfront hs

theorem drop_settles :
    (drop name).Settles k c (atPlace (findIn (·.member.entryIdx? k name) c.members) c.removeItem) :=
  settles_atPlace .rfl does_drop

theorem alter_settles {ch : Change} {g : Nat → Member → Member}
    (hg : ∀ {m : Member} {j}, m.entryIdx? k name = some j → m.AlteredBy k name ch (g j m)) :
    (alter name ch).Settles k c
      (atPlace (findIn (·.member.entryIdx? k name) c.members) fun (i, j) =>
        c.mapMember i (g j)) := by
  refine settles_atPlace .rfl fun {front s back j} hc hfront hs => ?_
  dsimp only
  rw [mapMember_split hc]
  exact does_alter hc hfront (hg hs)

end StoreCall

namespace Operation

/-- Every operation that is a call of the store does what the call does, or is skipped where
the call does not fit. -/
theorem settles_of_storeCall? {op : Operation} {k : MemberCategory} {call : StoreCall}
    (hop : op.storeCall? = some (k, call)) (c : ClassDecl) :
    ∃ edit, op.classEdit? = some edit ∧ call.Settles k c (edit c) := by
  have hfield (name : String) : c.findField name =
      findIn (·.member.entryIdx? .field name) c.members := by
    simp only [ClassDecl.findField, Member.fieldIdx?_eq]
  have hconstant (name : String) : c.findConstant name =
      findIn (·.member.entryIdx? .constant name) c.members := by
    simp only [ClassDecl.findConstant, Member.constantIdx?_eq]
  cases op <;> cases hop
  case addField s =>
    refine ⟨_, rfl, ?_⟩
    rw [ClassDecl.addField, hfield]
    exact StoreCall.put_settles rfl
  case removeField name =>
    refine ⟨_, rfl, ?_⟩
    rw [ClassDecl.removeField, hfield]
    exact StoreCall.drop_settles
  case changeField s =>
    refine ⟨_, rfl, ?_⟩
    rw [ClassDecl.changeField, hfield]
    exact StoreCall.alter_settles (g := fun j => .mapFields (.change s j))
      Member.alteredBy_changeField
  case addConstant name value visibility =>
    refine ⟨_, rfl, ?_⟩
    rw [ClassDecl.addConstant, hconstant]
    exact StoreCall.put_settles rfl
  case changeConstant name value visibility =>
    refine ⟨_, rfl, ?_⟩
    rw [ClassDecl.changeConstant, hconstant]
    exact StoreCall.alter_settles (g := fun j => .mapConstants (.change value visibility j))
      Member.alteredBy_changeConstant
  case removeConstant name =>
    refine ⟨_, rfl, ?_⟩
    rw [ClassDecl.removeConstant, hconstant]
    exact StoreCall.drop_settles

/-- An operation on a field or on a constant of the first class is applied if the call of the store
can be done. It then fills the place of the class with one for which the call is done. -/
theorem apply_storeCall {op : Operation} {k : MemberCategory} {call : StoreCall}
    {f : SourceFile} {c : ClassDecl} (hop : op.storeCall? = some (k, call))
    (hf : f.firstClass = some c) :
    ((op.apply f).2 = .applied ↔ call.Fits k c) ∧
      ((op.apply f).2 = .applied → ∃ (hole : SourceFile.Hole) (c' : ClassDecl),
        f = hole.fill c ∧ (op.apply f).1 = hole.fill c' ∧ hole.IsFirst ∧ call.Does k c c') := by
  obtain ⟨edit, hedit, hsettles⟩ := settles_of_storeCall? hop c
  obtain ⟨hole, rfl, hleads⟩ := SourceFile.exists_leads hf
  rw [apply, edit_of_classEdit? hedit, Edit.apply]
  rcases hsettles with ⟨hunfit, reason, herror⟩ | ⟨hfits, c', hok, hdoes⟩
  · have hreason := SourceFile.reason?_onFirstClass edit (hole.fill c)
    rw [hf, Option.elim_some, herror, Edit.reason?, Edit.reason?_eq_some] at hreason
    rw [hreason]
    refine ⟨iff_of_false (fun houtcome => ?_) hunfit, fun houtcome => ?_⟩ <;> cases houtcome
  · rw [hleads.onFirstClass_fill hok]
    exact ⟨iff_of_true rfl hfits, fun _ => ⟨hole, c', rfl, rfl, hleads.isFirst, hdoes⟩⟩

/-- A change of the first of two fields that share a statement. The other one gets its type and its
visibility and keeps its default; a field of another statement stays as it is. -/
theorem apply_storeCall_group :
    let old : Modifiers := { Modifiers.empty with isVar := true }
    let group : FieldGroup := ⟨old, none, [⟨"a", none⟩, ⟨"b", some (.ofValue (.int 1))⟩]⟩
    let single : FieldGroup := ⟨old, none, [⟨"x", none⟩]⟩
    let c : ClassDecl :=
      ⟨.empty, [], "A", none, [], [.made (.fields group), .made (.fields single)], []⟩
    let f : SourceFile := ⟨none, [.class_ c], [], none⟩
    let op : Operation := .changeField ⟨"a", some .null, some .owner, some "int"⟩
    let ch : Change := ⟨some "int", some .owner, some .null, none, none⟩
    op.storeCall? = some (.field, .alter "a" ch) ∧ f.firstClass = some c ∧
      (op.apply f).2 = .applied ∧
      ∃ c', (op.apply f).1.firstClass = some c' ∧
        c'.stored? .field "a" = some ⟨.ofVisibility .owner, some "int", some (.ofValue .null)⟩ ∧
        c'.stored? .field "b" = some ⟨.ofVisibility .owner, some "int", some (.ofValue (.int 1))⟩ ∧
        c'.stored? .field "x" = some ⟨old, none, none⟩ := by
  intro old group single c f op ch
  have hop : op.storeCall? = some (.field, .alter "a" ch) := rfl
  have hf : f.firstClass = some c := rfl
  obtain ⟨happlied, hdoes⟩ := apply_storeCall hop hf
  have happlied :=
    happlied.2
      (by simp [StoreCall.Fits, ClassDecl.stored?, ClassDecl.entries, c, Member.entries, group,
    MemberStmt.made, FieldGroup.entry])
  obtain ⟨hole, c', -, hresult, hfirst, ha, hother, -⟩ := hdoes happlied
  refine ⟨hop, hf, happlied,
    c', by rw [hresult, hfirst], ha, hother "b" (by decide), hother "x" (by decide)⟩

end Operation

end ClassEdit
