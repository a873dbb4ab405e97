import ClassEdit.Proofs.Fragment.Extent

/-!
The reader of a statement as a relation, with a rule for each thing that a token can do: open a
bracket or close one, end the statement, begin the head of a loop, or none of these. Main
statements: the relation says the same as the reader; a statement ends with a semicolon or a brace,
or before a closing tag, or it is all that stands outside of the tags; and what is behind a
statement matters only where the statement ends there and the next word goes on with it.
-/

namespace ClassEdit.Extent

/-- A token that neither opens nor closes a bracket, and that cannot end the statement where it
stands. -/
structure Passes (closers : List TokenKind) (blocks : Nat) (t : Token) : Prop where
  opener : t.kind.closer? = none
  closer : t.kind.isCloser = false
  semicolon : (t.kind == .semicolon && (closers.isEmpty && blocks == 0)) = false
  tag : (t.kind == .closeTag && (closers.isEmpty && blocks == 0)) = false

/-- Whether a head with a bracket begins, behind which a block can stand up to an ending word. -/
def atHeader (closers : List TokenKind) (isName : Bool) (t : Token) (ts : List Token) : Bool :=
  closers.isEmpty && t.isAnyWord headers && !isName && ts.head?.any (·.kind == .leftParen)

def endsBlock (shape : Shape) (outer : List TokenKind) (blocks : Nat) (t : Token)
    (ts : List Token) : Bool :=
  shape.isCompound && outer.isEmpty && blocks == 0 && t.kind == .rightBrace && !continues shape ts

/-- The tokens of a statement, with the closers of the brackets open so far, the number of blocks
open behind a colon, and whether the next word is a name. -/
inductive Reads (eof : Token) (shape : Shape) :
    List TokenKind → Nat → Bool → List Token → Nat → Prop where
  | opener {closer : TokenKind} {closers : List TokenKind} {blocks n : Nat}
      {isName : Bool} {t : Token} {ts : List Token} (hopen : t.kind.closer? = some closer)
      (h : Reads eof shape (closer :: closers) blocks false ts n) :
      Reads eof shape closers blocks isName (t :: ts) (n + 1)
  | closer {outer : List TokenKind} {blocks n : Nat} {isName : Bool} {t : Token} {ts : List Token}
      (hopen : t.kind.closer? = none) (hclose : t.kind.isCloser = true)
      (hend : endsBlock shape outer blocks t ts = false)
      (h : Reads eof shape outer blocks false ts n) : Reads eof shape (t.kind :: outer) blocks
        isName (t :: ts) (n + 1)
  | block {isName : Bool} {t : Token} {ts : List Token} (hkind : t.kind = .rightBrace)
      (hshape : shape.isCompound = true) (hnext : continues shape ts = false) :
      Reads eof shape [.rightBrace] 0 isName (t :: ts) 1
  | semicolon {isName : Bool} {t : Token} {ts : List Token} (hkind : t.kind = .semicolon)
      (hnext : (shape.isCompound && continues shape ts) = false) : Reads eof shape
      [] 0 isName (t :: ts) 1
  | more {n : Nat} {isName : Bool} {t : Token} {ts : List Token} (hkind : t.kind = .semicolon)
      (hnext : (shape.isCompound && continues shape ts) = true)
      (h : Reads eof shape [] 0 false ts n) :
      Reads eof shape [] 0 isName (t :: ts) (n + 1)
  | tag {isName : Bool} {t : Token} {ts : List Token} (hkind : t.kind = .closeTag) :
      Reads eof shape [] 0 isName (t :: ts) 0
  | header {blocks k n : Nat} {isName : Bool} {t : Token} {ts : List Token}
      (hpass : Passes [] blocks t) (hheader : atHeader [] isName t ts = true)
      (hgroup : groupRest eof .rightParen [] ts.tail = .ok k)
      (hcolon : (ts.drop (k + 1)).head?.any (·.kind == .colon) = false)
      (h : Reads eof shape [] blocks false (ts.drop (k + 1)) n) :
      Reads eof shape [] blocks isName (t :: ts) (n + (k + 2))
  | colon {blocks k n : Nat} {isName : Bool} {t : Token} {ts : List Token}
      (hpass : Passes [] blocks t) (hheader : atHeader [] isName t ts = true)
      (hgroup : groupRest eof .rightParen [] ts.tail = .ok k)
      (hcolon : (ts.drop (k + 1)).head?.any (·.kind == .colon) = true)
      (h : Reads eof shape [] (blocks + 1) false (ts.drop (k + 2)) n) :
      Reads eof shape [] blocks isName (t :: ts) (n + (k + 3))
  | other {closers : List TokenKind} {blocks blocks' n : Nat} {isName : Bool}
      {t : Token} {ts : List Token} (hpass : Passes closers blocks t)
      (hheader : atHeader closers isName t ts = false) (hblocks : blocks' = if closers.isEmpty &&
        t.isAnyWord endings then blocks - 1 else blocks)
      (h : Reads eof shape closers blocks' (namesNext t) ts n) : Reads eof shape closers blocks
        isName (t :: ts) (n + 1)

variable {eof eof' t : Token} {ts us : List Token} {shape : Shape} {closers : List TokenKind}
  {blocks n : Nat}
  {isName : Bool}

/-- Each turn of the scan is one of the ways to read on. -/
theorem reads_of_rest (h : rest eof shape closers blocks isName ts = .ok n) :
    Reads eof shape closers blocks isName ts n := by
  induction hn : ts.length using Nat.strongRecOn generalizing closers blocks isName ts n with
  | ind m ih =>
    subst hn
    cases ts with
    | nil =>
      rw [rest] at h
      cases h
    | cons t ts =>
      have hnext {closers : List TokenKind} {blocks n : Nat} {isName : Bool}
          (h : rest eof shape closers blocks isName ts = .ok n) :
            Reads eof shape closers blocks isName ts n :=
        ih ts.length (Nat.lt_succ_self _) h rfl
      rw [rest.eq_def] at h
      dsimp only at h
      split at h
      next closer hopen =>
        obtain ⟨m, hm, rfl⟩ := Scan.map_eq_ok h
        exact .opener hopen (hnext hm)
      next hopen =>
        split at h
        next hclose =>
          cases closers with
          | nil => cases h
          | cons closer outer =>
            dsimp only at h
            split at h
            next => cases h
            next hkind =>
              rw [Decidable.not_not] at hkind
              subst hkind
              split at h
              next hend =>
                cases h
                simp only [Bool.and_eq_true, List.isEmpty_iff, beq_iff_eq, Bool.not_eq_true']
                  at hend
                obtain ⟨⟨⟨⟨hshape, rfl⟩, rfl⟩, hkind⟩, hcontinues⟩ := hend
                rw [hkind]
                exact .block hkind hshape hcontinues
              next hend =>
                obtain ⟨m, hm, rfl⟩ := Scan.map_eq_ok h
                exact .closer hopen hclose (Bool.eq_false_iff.2 hend) (hnext hm)
        next hclose =>
          split at h
          next hsemicolon =>
            simp only [Bool.and_eq_true, List.isEmpty_iff, beq_iff_eq] at hsemicolon
            obtain ⟨hkind, rfl, rfl⟩ := hsemicolon
            split at h
            next hcontinues =>
              obtain ⟨m, hm, rfl⟩ := Scan.map_eq_ok h
              exact .more hkind hcontinues (hnext hm)
            next hcontinues =>
              cases h
              exact .semicolon hkind (Bool.eq_false_iff.2 hcontinues)
          next hsemicolon =>
            split at h
            next htag =>
              simp only [Bool.and_eq_true, List.isEmpty_iff, beq_iff_eq] at htag
              obtain ⟨hkind, rfl, rfl⟩ := htag
              cases h
              exact .tag hkind
            next htag =>
              have hpass : Passes closers blocks t :=
                ⟨hopen, Bool.eq_false_iff.2 hclose, Bool.eq_false_iff.2 hsemicolon,
                  Bool.eq_false_iff.2 htag⟩
              split at h
              next hheader =>
                obtain ⟨k, hgroup, h⟩ := bind_eq_ok.1 h
                obtain rfl : closers = [] := by
                  simp only [Bool.and_eq_true, List.isEmpty_iff] at hheader
                  exact hheader.1.1.1
                split at h
                next hcolon =>
                  obtain ⟨m, hm, rfl⟩ := Scan.map_eq_ok h
                  have hshort := length_drop_le_of_le (n := k + 2) (Nat.lt_succ_self ts.length)
                  exact .colon hpass hheader hgroup hcolon (ih _ hshort hm rfl)
                next hcolon =>
                  obtain ⟨m, hm, rfl⟩ := Scan.map_eq_ok h
                  have hshort := length_drop_le_of_le (n := k + 1) (Nat.lt_succ_self ts.length)
                  exact .header hpass hheader hgroup (Bool.eq_false_iff.2 hcolon)
                    (ih _ hshort hm rfl)
              next hheader =>
                split at h
                next hending =>
                  obtain ⟨m, hm, rfl⟩ := Scan.map_eq_ok h
                  exact .other hpass (Bool.eq_false_iff.2 hheader) (if_pos hending).symm (hnext hm)
                next hending =>
                  obtain ⟨m, hm, rfl⟩ := Scan.map_eq_ok h
                  exact .other hpass (Bool.eq_false_iff.2 hheader) (if_neg hending).symm (hnext hm)

namespace Reads

/-- The ways to read on exclude each other, so the scan goes the one that was taken. -/
theorem rest_eq (h : Reads eof shape closers blocks isName ts n) :
    rest eof shape closers blocks isName ts = .ok n := by
  induction h with
  | opener hopen _ ih =>
    rw [rest.eq_def]
    simp only [hopen, ih]
    rfl
  | closer hopen hclose hend _ ih =>
    rw [endsBlock] at hend
    rw [rest.eq_def]
    simp only [hopen, hclose, hend, ih, ne_eq, not_true_eq_false, if_true, if_false,
      Bool.false_eq_true]
    rfl
  | block hkind hshape hnext =>
    rw [rest.eq_def]
    simp [hkind, hshape, hnext, TokenKind.closer?, TokenKind.isCloser]
  | semicolon hkind hnext =>
    rw [rest.eq_def]
    simp only [hkind, hnext, TokenKind.closer?, TokenKind.isCloser]
    rfl
  | more hkind hnext _ ih =>
    rw [rest.eq_def]
    simp only [hkind, hnext, ih, TokenKind.closer?, TokenKind.isCloser]
    rfl
  | tag hkind =>
    rw [rest.eq_def]
    simp [hkind, TokenKind.closer?, TokenKind.isCloser]
  | header hpass hheader hgroup hcolon _ ih =>
    rw [atHeader] at hheader
    rw [rest.eq_def]
    simp only [hpass.opener, hpass.closer, hpass.semicolon, hpass.tag, hheader, hgroup, ok_bind,
      hcolon, ih, if_true, if_false, Bool.false_eq_true]
    rfl
  | colon hpass hheader hgroup hcolon _ ih =>
    rw [atHeader] at hheader
    rw [rest.eq_def]
    simp only [hpass.opener, hpass.closer, hpass.semicolon, hpass.tag, hheader, hgroup, ok_bind,
      hcolon, ih, if_true, if_false, Bool.false_eq_true]
    rfl
  | @other closers blocks blocks' n isName t ts hpass hheader hblocks _ ih =>
    rw [atHeader] at hheader
    rw [rest.eq_def]
    simp only [hpass.opener, hpass.closer, hpass.semicolon, hpass.tag, hheader, if_false,
      Bool.false_eq_true]
    split at hblocks
    next hending =>
      rw [if_pos hending, ← hblocks, ih]
      rfl
    next hending =>
      rw [if_neg hending, ← hblocks, ih]
      rfl

theorem ne_nil (h : Reads eof shape closers blocks isName ts n) : ts ≠ [] := by
  cases h <;> exact List.cons_ne_nil _ _

end Reads

section Ends

/-- The first tokens end with a mark that can end a statement, or before a closing tag. -/
def EndsAt (ts : List Token) (n : Nat) : Prop :=
  (∃ t ∈ (ts.take n).getLast?, t.kind = .semicolon ∨ t.kind = .rightBrace) ∨
    ∃ t ∈ (ts.drop n).head?, t.kind = .closeTag

theorem EndsAt.behind {k : Nat} (h : EndsAt (ts.drop k) n) : EndsAt ts (n + k) := by
  rw [Nat.add_comm]
  rcases h with ⟨t, ht, hkind⟩ | ⟨t, ht, hkind⟩
  · refine .inl ⟨t, ?_, hkind⟩
    rw [List.take_add, List.getLast?_append, Option.mem_def.1 ht]
    rfl
  · rw [List.drop_drop] at ht
    exact .inr ⟨t, ht, hkind⟩

theorem EndsAt.cons (h : EndsAt ts n) (t : Token) : EndsAt (t :: ts) (n + 1) :=
  have hdrop : EndsAt ((t :: ts).drop 1) n := h
  hdrop.behind

/-- The way that ends the statement shows its mark, and each of the others leaves it behind. -/
theorem Reads.endsAt (h : Reads eof shape closers blocks isName ts n) : EndsAt ts n := by
  induction h with
  | block hkind => exact .inl ⟨_, rfl, .inr hkind⟩
  | semicolon hkind => exact .inl ⟨_, rfl, .inl hkind⟩
  | tag hkind => exact .inr ⟨_, rfl, hkind⟩
  | opener _ _ ih | closer _ _ _ _ ih | more _ _ _ ih | other _ _ _ _ ih => exact ih.cons _
  | @header _ k n _ t ts _ _ _ _ _ ih =>
    have hends : EndsAt ((t :: ts).drop (k + 2)) n := ih
    exact hends.behind
  | @colon _ k n _ t ts _ _ _ _ _ ih =>
    have hends : EndsAt ((t :: ts).drop (k + 3)) n := ih
    exact hends.behind

/-- A statement ends at a mark of its own, or it is what stands outside of the tags. -/
theorem statement_ends {c : Cursor} (hc : c.ahead ≠ []) (h : statement c = .ok n) :
    0 < n ∧ (EndsAt c.ahead n ∨
      (∀ t ∈ c.ahead.take n, isOutside t = true) ∧ ∀ t ∈ (c.ahead.drop n).head?, isOutside t =
        false) := by
  unfold statement at h
  dsimp only at h
  split at h
  next hnone =>
    have hends := (reads_of_rest h).endsAt
    refine ⟨Nat.pos_of_ne_zero ?_, .inl hends⟩
    rintro rfl
    obtain ⟨t, ts, hts⟩ := List.exists_cons_of_ne_nil hc
    rw [hts] at hends hnone
    rcases hends with ⟨_, ht, -⟩ | ⟨_, ht, hkind⟩
    · cases ht
    · obtain rfl := Option.some.inj ht
      rw [List.takeWhile_cons_of_pos (by rw [isOutside, hkind]; rfl)] at hnone
      cases hnone
  next hsome =>
    cases h
    refine ⟨List.length_pos_iff.2 (by simpa using hsome), .inr ⟨?_, ?_⟩⟩
    · rw [← List.prefix_iff_eq_take.1 (List.takeWhile_prefix isOutside)]
      exact fun t ht => List.all_eq_true.1 List.all_takeWhile t ht
    · rw [Scan.drop_length_takeWhile]
      exact fun t ht => Scan.eq_false_of_mem_head?_dropWhile ht

end Ends

section Append

theorem head?_append (hts : ts ≠ []) (us : List Token) : (ts ++ us).head? = ts.head? := by
  obtain ⟨t, ts, rfl⟩ := List.exists_cons_of_ne_nil hts
  rfl

theorem continues_append (hts : ts ≠ []) (us : List Token) :
    continues shape (ts ++ us) = continues shape ts := by
  rw [continues, continues, head?_append hts]

theorem endsBlock_append {outer : List TokenKind} (hts : ts ≠ []) (us : List Token) :
    endsBlock shape outer blocks t (ts ++ us) = endsBlock shape outer blocks t ts := by
  rw [endsBlock, endsBlock, continues_append hts]

theorem atHeader_append (hts : ts ≠ []) (us : List Token) :
    atHeader closers isName t (ts ++ us) = atHeader closers isName t ts := by
  rw [atHeader, atHeader, head?_append hts]

/-- Where the last token ends the statement, what is behind it must not go on with it. -/
theorem continues_append_of_last (hnext : continues shape ts = false)
    (hus : 1 = (t :: ts).length → continues shape us = false) :
    continues shape (ts ++ us) = false := by
  cases ts with
  | nil => exact hus rfl
  | cons => exact hnext

/-- What closes a group is found without looking behind it. -/
theorem groupRest_append {closer : TokenKind} {outer : List TokenKind}
    (h : groupRest eof closer outer ts = .ok n) :
    n ≤ ts.length ∧ ∀ us, groupRest eof' closer outer (ts ++ us) = .ok n := by
  induction ts generalizing closer outer n with
  | nil => cases h
  | cons t ts ih =>
    have hnext {closer : TokenKind} {outer : List TokenKind} {n : Nat}
        (h : (· + 1) <$> groupRest eof closer outer ts = .ok n) :
        n ≤ (t :: ts).length ∧ ∀ us, (· + 1) <$> groupRest eof' closer outer (ts ++ us) =
          .ok n := by
      obtain ⟨m, hm, rfl⟩ := Scan.map_eq_ok h
      obtain ⟨hle, hbehind⟩ := ih hm
      refine ⟨Nat.succ_le_succ hle, fun us => ?_⟩
      rw [hbehind]
      rfl
    simp only [List.cons_append]
    unfold groupRest at h ⊢
    split at h
    next hopen => exact hnext h
    next =>
      split at h
      next hplain =>
        simp only [hplain, if_true]
        exact hnext h
      next hplain =>
        simp only [hplain]
        split at h
        next => cases h
        next hkind =>
          simp only [hkind, if_false]
          cases outer with
          | nil =>
            cases h
            exact ⟨Nat.succ_le_succ (Nat.zero_le _), fun _ => rfl⟩
          | cons o os => exact hnext h

theorem lt_of_drop_ne_nil {k : Nat} (h : ts.drop k ≠ []) : ts ≠ [] ∧ k < ts.length := by
  rw [ne_eq, List.drop_eq_nil_iff, Nat.not_le] at h
  exact ⟨List.ne_nil_of_length_pos (Nat.zero_lt_of_lt h), h⟩

/-- Before other tokens a statement goes equally far, if it ends before them or they do not go on
with it. -/
theorem Reads.append (h : Reads eof shape closers blocks isName ts n) :
    n ≤ ts.length ∧ ∀ us, (n = ts.length → continues shape us = false) →
      Reads eof' shape closers blocks isName (ts ++ us) n := by
  induction h with
  | opener hopen _ ih =>
    obtain ⟨hle, hbehind⟩ := ih
    refine ⟨Nat.succ_le_succ hle, fun us hus => .opener hopen (hbehind us fun hn => ?_)⟩
    exact hus (congrArg (· + 1) hn)
  | closer hopen hclose hend h ih =>
    obtain ⟨hle, hbehind⟩ := ih
    refine ⟨Nat.succ_le_succ hle, fun us hus => ?_⟩
    exact .closer hopen hclose ((endsBlock_append h.ne_nil us).trans hend)
      (hbehind us fun hn => hus (congrArg (· + 1) hn))
  | block hkind hshape hnext =>
    exact ⟨Nat.succ_le_succ (Nat.zero_le _), fun us hus => .block hkind hshape
      (continues_append_of_last hnext hus)⟩
  | semicolon hkind hnext =>
    refine ⟨Nat.succ_le_succ (Nat.zero_le _), fun us hus => .semicolon hkind ?_⟩
    rw [Bool.and_eq_false_imp] at hnext ⊢
    exact fun hshape => continues_append_of_last (hnext hshape) hus
  | more hkind hnext h ih =>
    obtain ⟨hle, hbehind⟩ := ih
    refine ⟨Nat.succ_le_succ hle, fun us hus => .more hkind ?_
      (hbehind us fun hn => hus (congrArg (· + 1) hn))⟩
    exact (congrArg (shape.isCompound && ·) (continues_append h.ne_nil us)).trans hnext
  | tag hkind => exact ⟨Nat.zero_le _, fun us _ => .tag hkind⟩
  | @header blocks k n isName t ts hpass hheader hgroup hcolon h ih =>
    obtain ⟨hle, hbehind⟩ := ih
    obtain ⟨hne, hlength⟩ := lt_of_drop_ne_nil h.ne_nil
    rw [List.length_drop] at hle hbehind
    refine ⟨by rw [List.length_cons]; omega, fun us hus => ?_⟩
    have hdrop : (ts ++ us).drop (k + 1) = ts.drop (k + 1) ++ us :=
      List.drop_append_of_le_length (Nat.le_of_lt hlength)
    rw [List.cons_append]
    refine .header hpass ((atHeader_append hne us).trans hheader) ?_ ?_ ?_
    · rw [List.tail_append_of_ne_nil hne]
      exact (groupRest_append hgroup).2 us
    · rw [hdrop, head?_append h.ne_nil]
      exact hcolon
    · rw [hdrop]
      exact hbehind us fun hn => hus (by rw [List.length_cons]; omega)
  | @colon blocks k n isName t ts hpass hheader hgroup hcolon h ih =>
    obtain ⟨hle, hbehind⟩ := ih
    obtain ⟨hne, hlength⟩ := lt_of_drop_ne_nil h.ne_nil
    rw [List.length_drop] at hle hbehind
    refine ⟨by rw [List.length_cons]; omega, fun us hus => ?_⟩
    have hdrop {j : Nat} (hj : j < ts.length) : (ts ++ us).drop j = ts.drop j ++ us :=
      List.drop_append_of_le_length (Nat.le_of_lt hj)
    rw [List.cons_append]
    refine .colon hpass ((atHeader_append hne us).trans hheader) ?_ ?_ ?_
    · rw [List.tail_append_of_ne_nil hne]
      exact (groupRest_append hgroup).2 us
    · have hhead : ts.drop (k + 1) ≠ [] := by
        rw [ne_eq, List.drop_eq_nil_iff]
        omega
      rw [hdrop (by omega), head?_append hhead]
      exact hcolon
    · rw [hdrop hlength]
      exact hbehind us fun hn => hus (by rw [List.length_cons]; omega)
  | other hpass hheader hblocks h ih =>
    obtain ⟨hle, hbehind⟩ := ih
    refine ⟨Nat.succ_le_succ hle, fun us hus => ?_⟩
    exact .other hpass ((atHeader_append h.ne_nil us).trans hheader) hblocks
      (hbehind us fun hn => hus (congrArg (· + 1) hn))

end Append

section Attributes

theorem kind_ne_attributeOpen (h : t.kind.closer? = none) : t.kind ≠ .attributeOpen := by
  intro hkind
  rw [hkind] at h
  cases h

/-- Behind its attributes the reader of a statement stands outside of brackets. -/
theorem Reads.pastAttributes (h : Reads eof shape closers blocks isName ts n)
    (hbottom : ∀ c ∈ closers.getLast?, c = .rightBracket) :
    ∃ behind blocks' isName' m, Reads eof shape [] blocks' isName' behind m ∧
      ∀ us, Extent.pastAttributes closers.length (ts ++ us) = some (behind ++ us) := by
  have hhere {t : Token} {ts : List Token} {blocks n : Nat} (isName : Bool)
      (hkind : t.kind ≠ .attributeOpen)
      (h : Reads eof shape [] blocks isName (t :: ts) n) : ∃ behind blocks' isName' m,
        Reads eof shape [] blocks' isName' behind m ∧
          ∀ us, Extent.pastAttributes 0 (t :: ts ++ us) = some (behind ++ us) :=
    ⟨t :: ts, _, _, _, h, fun us => if_neg hkind⟩
  induction h with
  | @opener closer closers blocks n isName t ts hopen h ih =>
    cases closers with
    | nil =>
      by_cases hkind : t.kind = .attributeOpen
      · obtain rfl : closer = .rightBracket := by
          rw [hkind] at hopen
          exact (Option.some.inj hopen).symm
        obtain ⟨behind, blocks', isName', m, hbehind, hpast⟩ := ih (by simp)
        refine ⟨behind, blocks', isName', m, hbehind, fun us => ?_⟩
        rw [← hpast us]
        exact if_pos hkind
      · exact hhere isName hkind (.opener hopen h)
    | cons c closers =>
      obtain ⟨behind, blocks', isName', m, hbehind, hpast⟩ := ih (by simpa using hbottom)
      refine ⟨behind, blocks', isName', m, hbehind, fun us => ?_⟩
      rw [← hpast us]
      exact if_pos (by rw [hopen]; rfl)
  | @closer outer blocks n isName t ts hopen hclose hend h ih =>
    have houter : ∀ c ∈ outer.getLast?, c = .rightBracket := by
      intro c hc
      refine hbottom c ?_
      rw [List.getLast?_cons, Option.mem_def.1 hc]
      rfl
    obtain ⟨behind, blocks', isName', m, hbehind, hpast⟩ := ih houter
    refine ⟨behind, blocks', isName', m, hbehind, fun us => ?_⟩
    rw [← hpast us, List.length_cons, List.cons_append, Extent.pastAttributes, hopen, hclose]
    rfl
  | block => cases hbottom _ rfl
  | @semicolon isName _ _ hkind hnext =>
      exact hhere isName (by rw [hkind]; decide) (.semicolon hkind hnext)
  | @more _ isName _ _ hkind hnext h =>
      exact hhere isName (by rw [hkind]; decide) (.more hkind hnext h)
  | @tag isName _ _ hkind => exact hhere isName (by rw [hkind]; decide) (.tag hkind)
  | @header _ _ _ isName _ _ hpass hheader hgroup hcolon h =>
    exact hhere isName (kind_ne_attributeOpen hpass.opener) (.header hpass hheader hgroup hcolon h)
  | @colon _ _ _ isName _ _ hpass hheader hgroup hcolon h =>
    exact hhere isName (kind_ne_attributeOpen hpass.opener) (.colon hpass hheader hgroup hcolon h)
  | @other closers blocks blocks' n isName t ts hpass hheader hblocks h ih =>
    cases closers with
    | nil =>
        exact hhere isName (kind_ne_attributeOpen hpass.opener) (.other hpass hheader hblocks h)
    | cons c closers =>
      obtain ⟨behind, blocks', isName', m, hbehind, hpast⟩ := ih hbottom
      refine ⟨behind, blocks', isName', m, hbehind, fun us => ?_⟩
      rw [← hpast us, List.length_cons, List.cons_append, Extent.pastAttributes,
        hpass.opener, hpass.closer]
      rfl

end Attributes

section Statement

/-- No statement is a single word. -/
theorem Reads.kind_ne_word (h : Reads eof shape closers blocks isName [t] n) : t.kind ≠ .word := by
  cases h with
  | opener _ h => exact absurd rfl h.ne_nil
  | closer _ _ _ h => exact absurd rfl h.ne_nil
  | block hkind => rw [hkind]; nofun
  | semicolon hkind => rw [hkind]; nofun
  | more hkind => rw [hkind]; nofun
  | tag hkind => rw [hkind]; nofun
  | header _ _ _ _ h => exact absurd List.drop_nil h.ne_nil
  | colon _ _ _ _ h => exact absurd List.drop_nil h.ne_nil
  | other _ _ _ h => exact absurd rfl h.ne_nil

theorem beginsCompound_append (h : Reads eof shape closers blocks isName ts n) (us : List Token) :
    beginsCompound (ts ++ us) = beginsCompound ts := by
  obtain ⟨t, ts, rfl⟩ := List.exists_cons_of_ne_nil h.ne_nil
  cases ts with
  | nil =>
    have hword := Lexeme.isWord_of_kind h.kind_ne_word
    have hwords := Lexeme.isAnyWord_of_kind h.kind_ne_word
    simp [beginsCompound, hword, hwords]
  | cons u ts => rfl

/-- What the beginning of a statement says about its end is the same before other tokens. -/
theorem shapeOf_append (h : Reads eof shape [] blocks isName ts n) (us : List Token) :
    shapeOf (ts ++ us) = shapeOf ts := by
  obtain ⟨behind, blocks', isName', m, hbehind, hpast⟩ := h.pastAttributes nofun
  have hself := hpast []
  rw [List.append_nil, List.append_nil] at hself
  rw [shapeOf, shapeOf, head?_append h.ne_nil,
    show pastAttributes 0 (ts ++ us) = some (behind ++ us) from hpast us,
    show pastAttributes 0 ts = some behind from hself, Option.any_some, Option.any_some,
    beginsCompound_append hbehind]

/-- A statement is the same before other tokens, if it ends before them, or if it is code and they
do not go on with it. -/
theorem statement_append {c c' : Cursor} (hc : c'.ahead = c.ahead ++ us) (h : statement c = .ok n)
    (hlast : n = c.ahead.length →
      (∀ t ∈ c.ahead.getLast?, isOutside t = false) ∧ continues (shapeOf c.ahead) us = false) :
    n ≤ c.ahead.length ∧ statement c' = .ok n := by
  unfold statement at h ⊢
  dsimp only at h ⊢
  rw [hc]
  split at h
  next hnone =>
    have hreads := reads_of_rest h
    obtain ⟨hle, hbehind⟩ := hreads.append
    have hnone' : ((c.ahead ++ us).takeWhile isOutside).isEmpty = true := by
      obtain ⟨t, ts, hahead⟩ := List.exists_cons_of_ne_nil hreads.ne_nil
      rw [hahead] at hnone ⊢
      rw [List.cons_append, List.takeWhile_cons]
      rw [List.takeWhile_cons] at hnone
      split at hnone
      next => cases hnone
      next hinside => rw [if_neg hinside]; rfl
    rw [if_pos hnone', shapeOf_append hreads]
    exact ⟨hle, (hbehind us fun hn => (hlast hn).2).rest_eq⟩
  next hsome =>
    cases h
    have hle : (c.ahead.takeWhile isOutside).length ≤ c.ahead.length :=
      (List.takeWhile_prefix isOutside).length_le
    have hsame : (c.ahead ++ us).takeWhile isOutside = c.ahead.takeWhile isOutside := by
      rw [List.takeWhile_append]
      split
      next hall =>
        -- all that is ahead stands outside of the tags, the last token too
        have hself := List.IsPrefix.eq_of_length (List.takeWhile_prefix isOutside) hall
        obtain ⟨t, ht⟩ : ∃ t, c.ahead.getLast? = some t := by
          rw [← Option.isSome_iff_exists, List.getLast?_isSome]
          rintro hnil
          rw [hnil] at hsome
          exact hsome rfl
        have houtside :=
          List.all_eq_true.1 List.all_takeWhile t (hself.symm ▸ List.mem_of_getLast? ht)
        rw [(hlast hall).1 t ht] at houtside
        cases houtside
      next => rfl
    rw [hsame, if_neg hsome]
    exact ⟨hle, rfl⟩

end Statement

end ClassEdit.Extent
