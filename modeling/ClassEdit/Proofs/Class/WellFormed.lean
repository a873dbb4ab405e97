import ClassEdit.Class.Parser

/-!
Well-formed classes. Every statement that declares mixins, constants or fields declares at least
one, and fields have at least one modifier, since otherwise nothing that can be read is written for
them. Main statement: every class that is read is well-formed.
-/

namespace ClassEdit

/-- What a reader finds, if it finds something, satisfies the predicate. -/
def Yields {k : Nat} {α : Type} {c : Cursor} (P : α → Prop) (r : Except ParseError (Step k α c)) :
    Prop :=
  ∀ s, r = .ok s → P s.value

namespace Yields

variable {k k' : Nat} {α β : Type} {c c' : Cursor} {P : α → Prop} {Q : β → Prop}

theorem ok {s : Step k α c} (h : P s.value) : Yields P (.ok s) := by
  intro s' hs
  cases hs
  exact h

theorem error {e : ParseError} : Yields P (.error e : Except ParseError (Step k α c)) := nofun

theorem bind {r : Except ParseError (Step k α c)}
    {g : Step k α c → Except ParseError (Step k' β c')} (hr : Yields P r)
    (hg : ∀ s, P s.value → Yields Q (g s)) : Yields Q (r >>= g) := by
  cases r with
  | error e => exact error
  | ok s => exact hg s (hr s rfl)

/-- Where it does not matter what was found before. -/
theorem behind {γ : Type} {r : Except ParseError γ} {g : γ → Except ParseError (Step k β c)}
    (hg : ∀ x, Yields Q (g x)) : Yields Q (r >>= g) := by
  cases r with
  | error e => exact error
  | ok x => exact hg x

end Yields

theorem Cursor.takeNames_ne_nil (c : Cursor) : Yields (· ≠ []) c.takeNames := by
  unfold takeNames
  refine .behind fun ⟨name, c₁, h₁⟩ => ?_
  dsimp only
  split
  next => exact .behind fun _ => .ok (List.cons_ne_nil _ _)
  next => exact .ok (List.cons_ne_nil _ _)

namespace Member

/-- A statement that declares something, and fields not without a modifier. -/
def IsWellFormed : Member → Prop
  | mixins use => use.names ≠ []
  | constants g => g.items ≠ []
  | fields g => g.items ≠ [] ∧ g.modifiers ≠ .empty
  | routine _ => True

theorem readMixins_ne_nil (c : Cursor) : Yields (·.names ≠ []) (readMixins c) := by
  unfold readMixins
  refine .behind fun ⟨_, c₁, h₁⟩ => .bind c₁.takeNames_ne_nil fun ⟨names, c₂, h₂⟩ hnames => ?_
  dsimp only
  split
  next => exact .behind fun _ => .ok hnames
  next => exact .behind fun _ => .ok hnames

theorem readConstantItems_ne_nil (c : Cursor) : Yields (· ≠ []) (readConstantItems c) := by
  unfold readConstantItems
  refine .behind fun _ => .behind fun _ => .behind fun ⟨value, c₃, h₃⟩ => ?_
  dsimp only
  split
  next => exact .behind fun _ => .ok (List.cons_ne_nil _ _)
  next => exact .ok (List.cons_ne_nil _ _)

theorem readFieldItems_ne_nil (c : Cursor) : Yields (· ≠ []) (readFieldItems c) := by
  unfold readFieldItems
  refine .behind fun _ => .behind fun ⟨default, c₂, h₂⟩ => ?_
  dsimp only
  split
  next => exact .behind fun _ => .ok (List.cons_ne_nil _ _)
  next => exact .ok (List.cons_ne_nil _ _)

theorem readConstants_ne_nil (modifiers : Modifiers) (c : Cursor) :
    Yields (·.items ≠ []) (readConstants modifiers c) := by
  unfold readConstants
  refine .behind fun ⟨type, c₁, h₁⟩ => .bind (readConstantItems_ne_nil c₁) fun items hitems => ?_
  exact .behind fun _ => .ok hitems

theorem readFields_wellFormed {modifiers : Modifiers} (h : modifiers ≠ .empty) (c : Cursor) :
    Yields (fun g => g.items ≠ [] ∧ g.modifiers ≠ .empty) (readFields modifiers c) := by
  unfold readFields
  refine .behind fun ⟨type, c₁, h₁⟩ => .bind (readFieldItems_ne_nil c₁) fun items hitems => ?_
  exact .behind fun _ => .ok ⟨hitems, h⟩

/-- A member that is read declares something, and fields have a modifier. -/
theorem readBare_wellFormed (c : Cursor) : Yields IsWellFormed (readBare c) := by
  unfold readBare
  split
  next => exact .bind (readMixins_ne_nil c) fun _ huse => .ok huse
  next =>
    obtain ⟨modifiers, c₁, h₁⟩ := Modifiers.read c
    dsimp only
    split
    next c₂ h₂ _ => exact .bind (readConstants_ne_nil modifiers c₂) fun _ hgroup => .ok hgroup
    next =>
      split
      next => exact .behind fun _ => .ok trivial
      next =>
        split
        next => exact .error
        next hsome =>
          have hmodifiers : modifiers ≠ .empty := by simpa [Modifiers.isEmpty] using hsome
          exact .bind (readFields_wellFormed hmodifiers c₁) fun _ hgroup => .ok hgroup

theorem readStmt_wellFormed (c : Cursor) : Yields (·.member.IsWellFormed) (readStmt c) := by
  unfold readStmt
  refine .behind fun ⟨_, c₁, h₁⟩ => .bind (readBare_wellFormed c₁) fun _ hmember => ?_
  exact .ok hmember

theorem readAll_wellFormed (c : Cursor) : Yields (∀ m ∈ ·, m.member.IsWellFormed) (readAll c) := by
  induction c using readAll.induct with
  | case1 c hend =>
      rw [readAll, if_pos hend]
      exact .ok (List.forall_mem_nil _)
  | case2 c hend hempty =>
      rw [readAll, if_neg hend, if_pos hempty]
      exact .error
  | case3 c hend hempty ih =>
      rw [readAll, if_neg hend, if_neg hempty]
      refine .bind (readStmt_wellFormed c) fun ⟨m, c₁, h₁⟩ hm => .bind (ih c₁ h₁) fun ms hms => ?_
      exact .ok (List.forall_mem_cons.2 ⟨hm, hms⟩)

end Member

namespace ClassDecl

def IsWellFormed (c : ClassDecl) : Prop :=
  ∀ m ∈ c.members, m.member.IsWellFormed

theorem read_wellFormed (trivia : Trivia) (c : Cursor) : Yields IsWellFormed (read trivia c) := by
  unfold read
  refine .behind fun _ => .behind fun _ => .behind fun _ => .behind fun _ =>
    .behind fun ⟨_, c₆, _⟩ => ?_
  refine .bind (Member.readAll_wellFormed c₆) fun _ hmembers => ?_
  exact .behind fun _ => .ok hmembers

end ClassDecl

end ClassEdit
