import ClassEdit.Fragment.Extent
import ClassEdit.Proofs.Reading
import ClassEdit.Proofs.Token.Spanning

/-!
What the end of a statement depends on: tokens of the same kinds, with the same words among them,
make a statement that goes equally far.
-/

namespace ClassEdit

namespace Token

/-- The same tokens one by one, but for text outside of the tags that may be gone at the end. -/
inductive Alike : List Token → List Token → Prop where
  | nil : Alike [] []
  | cons {t t' : Token} {ts ts' : List Token} (h : t.toLexeme.Same t'.toLexeme)
      (hs : Alike ts ts') :
      Alike (t :: ts) (t' :: ts')
  | gone {t : Token} (h : t.kind = .html) : Alike [t] []

namespace Alike

variable {ts ts' : List Token}

theorem drop (h : Alike ts ts') (n : Nat) : Alike (ts.drop n) (ts'.drop n) := by
  induction n generalizing ts ts' with
  | zero => exact h
  | succ n ih =>
      cases h with
      | nil => exact .nil
      | cons _ hs => exact ih hs
      | gone => simpa using Alike.nil

/-- What is asked of the next token has the same answer. -/
theorem any_head? (h : Alike ts ts') {p : Token → Bool}
    (hp : ∀ {t t' : Token}, t.toLexeme.Same t'.toLexeme → p t' = p t)
    (hhtml : ∀ t : Token, t.kind = .html → p t = false) :
    ts'.head?.any p = ts.head?.any p := by
  cases h with
  | nil => rfl
  | cons h _ => exact hp h
  | gone h => exact (hhtml _ h).symm

theorem any_head?_kind (h : Alike ts ts') (k : TokenKind) (hk : k ≠ .html) :
    ts'.head?.any (·.kind == k) = ts.head?.any (·.kind == k) := by
  refine h.any_head? (fun h => by rw [h.kind]) fun t ht => ?_
  rw [ht]
  exact beq_eq_false_iff_ne.2 hk.symm

end Alike

end Token

theorem Lexeme.isWord_of_kind {l : Lexeme} (h : l.kind ≠ .word) (w : String) :
    l.isWord w = false := by
  rw [isWord, beq_eq_false_iff_ne.2 h, Bool.false_and]

theorem Lexeme.isAnyWord_of_kind {l : Lexeme} (h : l.kind ≠ .word) (ws : List String) :
    l.isAnyWord ws = false := by
  rw [isAnyWord, List.any_eq_false]
  exact fun w _ => by rw [isWord_of_kind h]; nofun

namespace Extent

variable {eof eof' t t' : Token} {ts ts' : List Token}

section Alike

open Token (Alike)

/-- A group is as long if the tokens of it are of the same kinds. -/
theorem groupRest_alike (closer : TokenKind) (outer : List TokenKind) (h : Alike ts ts') :
    Agree Eq (groupRest eof closer outer ts) (groupRest eof' closer outer ts') := by
  induction h generalizing closer outer with
  | nil => trivial
  | @cons t t' ts ts' ht _ ih =>
      unfold groupRest
      rw [ht.kind]
      split
      next => exact (ih _ _).map (congrArg (· + 1))
      next =>
        split
        next => exact (ih _ _).map (congrArg (· + 1))
        next =>
          split
          next => trivial
          next =>
            cases outer with
            | nil => rfl
            | cons o os => exact (ih _ _).map (congrArg (· + 1))
  | gone ht =>
      simp [groupRest, ht, TokenKind.closer?, TokenKind.isCloser, Agree, Functor.map, Except.map]

/-- Attribute groups are passed over in the same way if the tokens are of the same kinds. -/
theorem pastAttributes_alike (depth : Nat) (h : Alike ts ts') :
    Option.Rel Alike (pastAttributes depth ts) (pastAttributes depth ts') := by
  induction h generalizing depth with
  | nil =>
      cases depth with
      | zero => exact .some .nil
      | succ depth => exact .none
  | @cons t t' ts ts' ht hts ih =>
      cases depth with
      | zero =>
          unfold pastAttributes
          rw [ht.kind]
          split
          next => exact ih _
          next => exact .some (.cons ht hts)
      | succ depth =>
          unfold pastAttributes
          rw [ht.kind]
          split
          next => exact ih _
          next =>
            split
            next => exact ih _
            next => exact ih _
  | @gone t ht =>
      cases depth with
      | zero =>
          have hkind : t.kind ≠ .attributeOpen := by rw [ht]; nofun
          simp only [pastAttributes, if_neg hkind]
          exact .some (.gone ht)
      | succ depth =>
          simp [pastAttributes, ht, TokenKind.closer?, TokenKind.isCloser]

/-- Whether a compound statement begins is told by kinds and words. -/
theorem beginsCompound_alike (h : Alike ts ts') : beginsCompound ts' = beginsCompound ts := by
  cases h with
  | nil => rfl
  | @cons t t' ts ts' ht hts =>
      have hmap (o : Option Token) (k : TokenKind) : (o.map (·.kind) == some k) =
          o.any (·.kind == k) := by
        cases o <;> rfl
      simp only [beginsCompound, ht.kind, ht.isAnyWord, ht.isWord, hmap,
        hts.any_head?_kind .word (by decide), hts.any_head?_kind .ampersand (by decide)]
  | gone ht =>
      have hword := Lexeme.isWord_of_kind (by rw [ht]; decide)
      have hwords := Lexeme.isAnyWord_of_kind (by rw [ht]; decide)
      simp [beginsCompound, ht, hword, hwords]

theorem shapeOf_alike (h : Alike ts ts') : shapeOf ts' = shapeOf ts := by
  have hcompound := pastAttributes_alike 0 h
  rw [shapeOf, shapeOf, h.any_head? (fun ht => ht.isWord "do") fun t ht =>
    Lexeme.isWord_of_kind (by rw [ht]; nofun) _]
  congr 1
  generalize pastAttributes 0 ts = us, pastAttributes 0 ts' = us' at hcompound
  cases hcompound with
  | none => rfl
  | some hus => exact beginsCompound_alike hus

theorem continues_alike (shape : Shape) (h : Alike ts ts') :
    continues shape ts' = continues shape ts := by
  refine h.any_head? (fun ht => by rw [ht.isAnyWord, ht.isWord]) fun t ht => ?_
  have hword : t.kind ≠ .word := by rw [ht]; nofun
  rw [Lexeme.isAnyWord_of_kind hword, Lexeme.isWord_of_kind hword, Bool.and_false, Bool.or_false]

theorem namesNext_alike (h : t.toLexeme.Same t'.toLexeme) : namesNext t' = namesNext t := by
  unfold namesNext
  rw [h.kind, h.isWord, h.isWord]
  by_cases hk : t.kind = .operator
  · rw [h.string_eq (by rw [hk]; rfl)]
  · rw [beq_eq_false_iff_ne.2 hk, Bool.false_and, Bool.false_and]

/-- A statement goes equally far in both sources, or has no end in either. -/
theorem rest_alike (shape : Shape) (closers : List TokenKind) (blocks : Nat) (isName : Bool)
    (h : Alike ts ts') :
    Agree Eq (rest eof shape closers blocks isName ts)
      (rest eof' shape closers blocks isName ts') := by
  induction hn : ts.length using Nat.strongRecOn generalizing closers blocks isName ts ts' with
  | ind n ih =>
      subst hn
      cases h with
      | nil =>
          simp only [rest]
          trivial
      | @cons t t' ts ts' ht hts =>
          have hnext (closers : List TokenKind) (blocks : Nat) (isName : Bool) :=
            ih ts.length (Nat.lt_succ_self _) closers blocks isName hts rfl
          rw [rest.eq_def eof, rest.eq_def eof']
          simp only [ht.kind, ht.isAnyWord, continues_alike shape hts, namesNext_alike ht,
            hts.any_head?_kind .leftParen (by decide)]
          split
          next => exact (hnext _ _ _).map (congrArg (· + 1))
          next =>
            split
            next =>
              cases closers with
              | nil => trivial
              | cons closer outer =>
                  dsimp only
                  split
                  next => trivial
                  next =>
                    split
                    next => rfl
                    next => exact (hnext _ _ _).map (congrArg (· + 1))
            next =>
              split
              next =>
                split
                next => exact (hnext _ _ _).map (congrArg (· + 1))
                next => rfl
              next =>
                split
                next => rfl
                next =>
                  split
                  next =>
                    have htail := hts.drop 1
                    rw [List.drop_one, List.drop_one] at htail
                    refine Agree.bind (groupRest_alike .rightParen [] htail) ?_
                    rintro n _ rfl
                    have hbehind := hts.drop (n + 1)
                    rw [hbehind.any_head?_kind .colon (by decide)]
                    split
                    next =>
                      have hshort := length_drop_le_of_le (n := n + 2) (Nat.lt_succ_self ts.length)
                      exact (ih _ hshort _ _ _ (hts.drop (n + 2)) rfl).map (congrArg (· + (n + 3)))
                    next =>
                      have hshort := length_drop_le_of_le (n := n + 1) (Nat.lt_succ_self ts.length)
                      exact (ih _ hshort _ _ _ hbehind rfl).map (congrArg (· + (n + 2)))
                  next =>
                    split
                    next => exact (hnext _ _ _).map (congrArg (· + 1))
                    next => exact (hnext _ _ _).map (congrArg (· + 1))
      | gone ht =>
          have hwords := Lexeme.isAnyWord_of_kind (by rw [ht]; decide)
          rw [rest.eq_def eof]
          simp [rest, ht, hwords, TokenKind.closer?, TokenKind.isCloser, Agree,
            Functor.map, Except.map]

theorem takeWhile_isOutside_alike (h : Alike ts ts') :
    (ts'.takeWhile isOutside).length = min (ts.takeWhile isOutside).length ts'.length := by
  induction h with
  | nil => rfl
  | cons ht _ ih =>
      rw [List.takeWhile_cons, List.takeWhile_cons, isOutside, isOutside, ht.kind]
      split
      next => rw [List.length_cons, List.length_cons, List.length_cons, ih, Nat.add_min_add_right]
      next => exact (Nat.zero_min _).symm
  | gone => exact (Nat.min_zero _).symm

/-- A statement takes the same tokens, or all where text at the end is gone. -/
theorem statement_alike {c c' : Cursor} {n : Nat} (h : Alike c.ahead c'.ahead) (hne : c'.ahead ≠ [])
    (hn : statement c = .ok n) :
    ∃ n', statement c' = .ok n' ∧ (n' = n ∨ n' = c'.ahead.length ∧ n' ≤ n) := by
  have hlength := takeWhile_isOutside_alike h
  have hpos := List.length_pos_iff.2 hne
  unfold statement at hn ⊢
  simp only [List.isEmpty_iff_length_eq_zero] at hn ⊢
  split at hn
  next hnone =>
    have hrest : Agree Eq (rest c.eof (shapeOf c.ahead) [] 0 false c.ahead)
        (rest c'.eof (shapeOf c.ahead) [] 0 false c'.ahead) := rest_alike _ _ _ _ h
    rw [hn] at hrest
    rw [if_pos (by omega), shapeOf_alike h]
    cases hrest' : rest c'.eof (shapeOf c.ahead) [] 0 false c'.ahead with
    | error e =>
        rw [hrest'] at hrest
        exact False.elim hrest
    | ok n' =>
        rw [hrest'] at hrest
        exact ⟨n', rfl, .inl (Eq.symm hrest)⟩
  next hsome =>
    cases hn
    rw [if_neg (by omega)]
    exact ⟨_, rfl, by omega⟩

end Alike

end Extent

end ClassEdit
