import ClassEdit.Proofs.Offset.Standing

/-!
Reading types and lists of names by the number of the next token. Main statement: with a round
for each token that is left and one for the end, a type comes to the same as with the reader that
goes from cursor to cursor.
-/

namespace ClassEdit

namespace Reading

def intersection : Nat → Reading String
  | 0 => exhausted
  | n + 1 => do
    let name ← expectName .name
    if ← eat .ampersand then return name ++ "&" ++ (← intersection n) else return name

/-- A name, or an intersection in parentheses. -/
def typePart (n : Nat) : Reading String := do
  if ← eat .leftParen then
    let names ← intersection n
    let _ ← expect .rightParen
    return "(" ++ names ++ ")"
  else expectName .type

/-- The sign that joins two parts of a type. Behind an ampersand the token decides whether
it belongs to the type. -/
def joint : Reading (Option String) := do
  if ← eat .pipe then return some "|"
  else if ← isAt .ampersand then
    let behind := (← peekAt 1).kind
    if behind == .var || behind == .ellipsis then return none
    else
      let _ ← advance
      return some "&"
  else return none

def typeParts : Nat → Reading String
  | 0 => exhausted
  | n + 1 => do
    let part ← typePart (n + 1)
    match ← joint with
    | some sign => return part ++ sign ++ (← typeParts n)
    | none => return part

def typeText (n : Nat) : Reading String := do
  if ← eat .question then return "?" ++ (← typeParts n) else typeParts n

def typeUnless (n : Nat) (absent : Bool) : Reading (Option String) := do
  if absent then return none else return some (← typeText n)

def names : Nat → Reading (List String)
  | 0 => exhausted
  | n + 1 => do
    let name ← expectName .name
    if ← eat .comma then return name :: (← names n) else return [name]

end Reading

variable {ls : List Lexeme} {tight : Bool} {s : At} {c : Cursor} {n : Nat}

/-- An intersection of names is read the same by offsets. -/
theorem Stands.intersection (h : Stands ls tight s c) (hn : c.size < n) :
    Tracks (Stands ls true) (Reading.intersection n (Tape.ofLexemes ls) s)
      (TypeText.readIntersection c) := by
  induction n generalizing tight s c with
  | zero => cases hn
  | succ n ih =>
    rw [Reading.intersection, TypeText.readIntersection]
    refine .bind h.takeName fun ⟨name, c₁, h₁⟩ s₁ hs₁ => ?_
    refine .eat hs₁ (by decide) (fun ⟨_, c₂, h₂⟩ s₂ htake hs₂ => ?_) fun htake => ?_
    · dsimp only at h₂ htake ⊢
      rw [htake]
      exact .bind (ih hs₂ (by omega)) fun _ _ hs₃ => .pure (t := Tape.ofLexemes ls) rfl hs₃
    · dsimp only at htake ⊢
      rw [htake]
      exact .pure (t := Tape.ofLexemes ls) rfl hs₁

theorem Stands.typePart (h : Stands ls tight s c) (hn : c.size < n) :
    Tracks (Stands ls true) (Reading.typePart n (Tape.ofLexemes ls) s) (TypeText.readPart c) := by
  rw [Reading.typePart, TypeText.readPart]
  refine .eat h (by decide) (fun ⟨_, c₁, h₁⟩ s₁ htake hs₁ => ?_) fun htake => ?_
  · rw [htake]
    refine .bind (Stands.intersection (c := c₁) hs₁ (by omega)) fun ⟨names, c₂, h₂⟩ s₂ hs₂ => ?_
    exact .expect hs₂ (by decide) fun _ _ hs₃ _ => .pure (t := Tape.ofLexemes ls) rfl hs₃
  · rw [htake]
    exact h.expectName .type

/-- A sign that joins two parts of a type is taken, or nothing is. -/
theorem Stands.joint (h : Stands ls tight s c) :
    (TypeText.joint? c = none ∧ Reading.joint (Tape.ofLexemes ls) s = .ok (none, s)) ∨
      ∃ st s', TypeText.joint? c = some st ∧ Reading.joint (Tape.ofLexemes ls) s =
        .ok (some st.value, s') ∧
        Stands ls true s' st.rest := by
  have hpipe : TokenKind.pipe ≠ .eof := by decide
  rw [Reading.joint, Reading.bind_of_eq (h.eat hpipe)]
  rcases c.eq_push with hnil | ⟨c, t, rfl⟩
  · have hat : c.isAt .ampersand = false := by rw [Cursor.isAt, (h.head_of_nil hnil).2]; rfl
    refine .inl ⟨?_, ?_⟩
    · rw [TypeText.joint?, Cursor.take?, Cursor.take?, Cursor.next?_eq_none hnil]
      rfl
    · rw [hnil, List.head?_nil, Option.any_none, if_neg Bool.false_ne_true,
        if_neg Bool.false_ne_true, Reading.bind_of_eq (h.isAt _), hat]
      rfl
  · obtain ⟨-, -, -, -, hskip⟩ := h.uncons (Cursor.ahead_push c t)
    have hskip : Stands ls true { s with pos := s.pos + 1 } c := hskip
    have hsecond : Cursor.skip (c.push t) 1 = c := rfl
    rw [TypeText.joint?, Cursor.take?_push, Cursor.take?_push, Cursor.ahead_push,
      List.head?_cons, Option.any_some]
    by_cases hkind : t.kind = .pipe
    · rw [if_pos (beq_iff_eq.2 hkind), if_pos (beq_iff_eq.2 hkind), if_pos hkind]
      exact .inr ⟨_, _, rfl, rfl, hskip⟩
    · rw [if_neg (mt eq_of_beq hkind), if_neg (mt eq_of_beq hkind), if_neg hkind,
        Reading.bind_of_eq (h.isAt _), Cursor.isAt_push]
      by_cases hampersand : t.kind = .ampersand
      · rw [if_pos (beq_iff_eq.2 hampersand), if_pos hampersand, Reading.bind_of_eq (h.peekAt 1),
          hsecond]
        dsimp only [Cursor.isAt]
        split
        next hname => exact .inl ⟨if_pos hname, rfl⟩
        next hname =>
          rw [Reading.bind_of_eq h.advance]
          exact .inr ⟨_, _, if_neg hname, rfl, hskip⟩
      · rw [if_neg (mt eq_of_beq hampersand), if_neg hampersand]
        exact .inl ⟨rfl, rfl⟩

/-- A type is read the same by offsets. -/
theorem Stands.typeParts (h : Stands ls tight s c) (hn : c.size < n) :
    Tracks (Stands ls true) (Reading.typeParts n (Tape.ofLexemes ls) s) (TypeText.readParts c) := by
  induction n generalizing tight s c with
  | zero => cases hn
  | succ n ih =>
    rw [Reading.typeParts, TypeText.readParts]
    refine .bind (h.typePart hn) fun ⟨part, c₁, h₁⟩ s₁ hs₁ => ?_
    have hs₁ : Stands ls true s₁ c₁ := hs₁
    dsimp only
    rcases hs₁.joint with ⟨hnone, hjoint⟩ | ⟨⟨sign, c₂, h₂⟩, s₂, hsome, hjoint, hs₂⟩
    · rw [hnone, Reading.bind_of_eq hjoint]
      exact .pure (t := Tape.ofLexemes ls) rfl hs₁
    · rw [hsome, Reading.bind_of_eq hjoint]
      exact .bind (ih hs₂ (by omega)) fun _ _ hs₃ => .pure (t := Tape.ofLexemes ls) rfl hs₃

theorem Stands.typeText (h : Stands ls tight s c) (hn : c.size < n) :
    Tracks (Stands ls true) (Reading.typeText n (Tape.ofLexemes ls) s) (TypeText.read c) := by
  rw [Reading.typeText, TypeText.read]
  refine .eat h (by decide) (fun ⟨_, c₁, h₁⟩ s₁ htake hs₁ => ?_) fun htake => ?_
  · rw [htake]
    exact .bind (Stands.typeParts (c := c₁) hs₁ (by omega)) fun _ _ hs₂ =>
      .pure (t := Tape.ofLexemes ls) rfl hs₂
  · rw [htake]
    exact h.typeParts hn

theorem Stands.typeUnless (h : Stands ls tight s c) (hn : c.size < n) (absent : Bool) :
    Tracks (Stands ls tight) (Reading.typeUnless n absent (Tape.ofLexemes ls) s)
      (Member.readTypeUnless absent c) := by
  rw [Reading.typeUnless, Member.readTypeUnless]
  exact .ite (fun _ => .pure (t := Tape.ofLexemes ls) rfl h) fun _ =>
    .bind (h.typeText hn) fun _ _ hs₁ => .pure (t := Tape.ofLexemes ls) rfl hs₁.of_true

/-- A list of names is the same by offsets, and its loop ends. -/
theorem Stands.names (h : Stands ls tight s c) (hn : c.size < n) :
    Tracks (Stands ls true) (Reading.names n (Tape.ofLexemes ls) s) c.takeNames := by
  induction n generalizing tight s c with
  | zero => cases hn
  | succ n ih =>
    rw [Reading.names, Cursor.takeNames]
    refine .bind h.takeName fun ⟨name, c₁, h₁⟩ s₁ hs₁ => ?_
    refine .eat hs₁ (by decide) (fun ⟨_, c₂, h₂⟩ s₂ htake hs₂ => ?_) fun htake => ?_
    · dsimp only at h₂ htake ⊢
      rw [htake]
      exact .bind (ih hs₂ (by omega)) fun _ _ hs₃ => .pure (t := Tape.ofLexemes ls) rfl hs₃
    · dsimp only at htake ⊢
      rw [htake]
      exact .pure (t := Tape.ofLexemes ls) rfl hs₁

end ClassEdit
