import ClassEdit.File.Basic

/-!
Where things are and where they go. Members of a class have a usual order: mixins, fields,
routines, with constants at the top; imports stand together. Taking something out or putting
something in at the top of a list changes the spacing of what is next to it. Main statement: no
place is behind the end of its list.
-/

namespace ClassEdit

/-- The place of the last element that satisfies the test. -/
def lastIdx? {α : Type} (p : α → Bool) : List α → Option Nat
  | [] => none
  | x :: xs =>
    match lastIdx? p xs with
    | some i => some (i + 1)
    | none => if p x then some 0 else none

/-- The place of the first element in which something is found, and its place there. -/
def findIn {α : Type} (f : α → Option Nat) : List α → Option (Nat × Nat)
  | [] => none
  | x :: xs =>
    match f x with
    | some j => some (0, j)
    | none => (findIn f xs).map fun (i, j) => (i + 1, j)

/-- The place of an element is a place of the list. -/
theorem lastIdx?_lt {α : Type} {p : α → Bool} {xs : List α} {i : Nat} (h : lastIdx? p xs = some i) :
    i < xs.length := by
  induction xs generalizing i with
  | nil => cases h
  | cons x xs ih =>
    unfold lastIdx? at h
    split at h
    next k hk =>
      cases h
      simpa using ih hk
    next =>
      split at h
      · cases h; simp
      · cases h

/-- The pair tells an element and the place that was found in it. -/
theorem findIn_eq_some {α : Type} {f : α → Option Nat} {xs : List α} {i j : Nat}
    (h : findIn f xs = some (i, j)) : ∃ x, xs[i]? = some x ∧ f x = some j := by
  induction xs generalizing i with
  | nil => cases h
  | cons x xs ih =>
    unfold findIn at h
    split at h
    next k hk =>
      cases h
      exact ⟨x, rfl, hk⟩
    next =>
      obtain ⟨⟨i', j'⟩, hij, he⟩ := Option.map_eq_some_iff.1 h
      cases he
      simpa using ih hij

/-- Where a new member of a category goes. -/
def memberPosition (members : List MemberStmt) (category : MemberCategory) : Nat :=
  let last (k : MemberCategory) := lastIdx? (·.category == k) members
  let first (k : MemberCategory) := members.findIdx? (·.category == k)
  match category with
  | .mixin => (((last .mixin).map (· + 1)).or ((first .field).or (first .routine))).getD 0
  | .constant => 0
  | .field => ((((last .field).or (last .mixin)).map (· + 1)).or (first .routine)).getD 0
  | .routine => members.length

def leadingDeclares (stmts : List Stmt) : Nat :=
  (stmts.takeWhile Stmt.isDeclare).length

/-- Where a new import goes: behind the last import, else before the first class, else behind the
leading declarations. -/
def importPosition (stmts : List Stmt) : Nat :=
  (((lastIdx? (·.import?.isSome) stmts).map (· + 1)).or
    (stmts.findIdx? (·.class?.isSome))).getD (leadingDeclares stmts)

/-- A new member goes among the members or behind the last of them. -/
theorem memberPosition_le (members : List MemberStmt) (category : MemberCategory) :
    memberPosition members category ≤ members.length := by
  have last {k i} (h : lastIdx? (fun m : MemberStmt => m.category == k) members = some i) :
      i + 1 ≤ members.length := lastIdx?_lt h
  have first {k i} (h : members.findIdx? (fun m => m.category == k) = some i) :
      i ≤ members.length :=
    Nat.le_of_lt (List.findIdx?_eq_some_iff_getElem.1 h).1
  cases category <;> simp only [memberPosition]
  · cases h₁ : lastIdx? (fun m => m.category == .mixin) members <;>
      cases h₂ : members.findIdx? (fun m => m.category == .field) <;>
      cases h₃ : members.findIdx? (fun m => m.category == .routine) <;>
      simp <;> first | exact last h₁ | exact first h₂ | exact first h₃
  · exact Nat.zero_le _
  · cases h₁ : lastIdx? (fun m => m.category == .field) members <;>
      cases h₂ : lastIdx? (fun m => m.category == .mixin) members <;>
      cases h₃ : members.findIdx? (fun m => m.category == .routine) <;>
      simp <;> first | exact last h₁ | exact last h₂ | exact first h₃
  · exact Nat.le_refl _

theorem leadingDeclares_le (stmts : List Stmt) : leadingDeclares stmts ≤ stmts.length :=
  (List.takeWhile_prefix _).length_le

theorem importPosition_le (stmts : List Stmt) : importPosition stmts ≤ stmts.length := by
  unfold importPosition
  cases h₁ : lastIdx? (·.import?.isSome) stmts with
  | some i => exact lastIdx?_lt h₁
  | none =>
    cases h₂ : stmts.findIdx? (·.class?.isSome) with
    | some i => simpa using Nat.le_of_lt (List.findIdx?_eq_some_iff_getElem.1 h₂).1
    | none => simpa using leadingDeclares_le stmts

/-- What stands in a list with trivia around it. -/
class Spaced (α : Type) where
  trivia? : α → Option Trivia
  mapTrivia : (Trivia → Trivia) → α → α

instance : Spaced MemberStmt where
  trivia? m := some m.trivia
  mapTrivia f m := { m with trivia := f m.trivia }

instance : Spaced Stmt where
  trivia? := Stmt.trivia?
  mapTrivia f s := s.trivia?.elim s fun t => s.withTrivia (f t)

namespace Trivia

/-- What is pushed off the top of a list and had no gap there gets the usual spacing. -/
def releaseTop (t : Trivia) : Trivia :=
  if t.blankBefore = some false then { t with blankBefore := none } else t

/-- What follows a removed element takes over its gap at the top of a list, or if it had none
itself. -/
def inheritGap (gap : Option Bool) (atTop : Bool) (t : Trivia) : Trivia :=
  if atTop || t.blankBefore == some false then { t with blankBefore := gap } else t

end Trivia

variable {α : Type} [Spaced α]

def insertSpaced (xs : List α) (i : Nat) (x : α) : List α :=
  (if i = 0 then xs.modifyHead (Spaced.mapTrivia Trivia.releaseTop) else xs).insertIdx i x

def removeSpaced (xs : List α) (i : Nat) : List α :=
  let gap := (xs[i]?.bind Spaced.trivia?).bind (·.blankBefore)
  (xs.eraseIdx i).modify i (Spaced.mapTrivia (Trivia.inheritGap gap (i == 0)))

end ClassEdit
