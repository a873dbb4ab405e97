import ClassEdit.Proofs.Fragment.Brackets

/-!
How far readers go in the tokens ahead. What is read closes the brackets that it opens, and outside
of brackets it holds none of the tokens at which a statement may end. Main statements: an expression
ends before the first semicolon outside of its brackets, a type and a list of names before the first
semicolon or brace, and a block goes up to the closer of its brace.
-/

namespace ClassEdit

open Token (kinds)

namespace Brackets

/-- Tokens close the brackets that are open, the innermost first, and those that they open. Where no
bracket is open, none of them is of the kinds. -/
inductive Avoids (stops : List TokenKind) : List TokenKind → List TokenKind → Prop where
  | nil : Avoids stops [] []
  | plain {k : TokenKind} {stack ks : List TokenKind} (hopen : k.closer? = none)
      (hclose : k.isCloser = false) (hstop : stack = [] → k ∉ stops) (h : Avoids stops stack ks) :
      Avoids stops stack (k :: ks)
  | opening {k closer : TokenKind} {stack ks : List TokenKind} (hk : k.closer? = some closer)
      (hstop : stack = [] → k ∉ stops) (h : Avoids stops (closer :: stack) ks) :
      Avoids stops stack (k :: ks)
  | closing {k : TokenKind} {stack ks : List TokenKind} (hopen : k.closer? = none)
      (hclose : k.isCloser = true) (h : Avoids stops stack ks) : Avoids stops (k :: stack) (k :: ks)

section Avoids

variable {stops stack ks ls inner : List TokenKind} {k closer : TokenKind}

theorem Avoids.append (h : Avoids stops stack ks) {stack' : List TokenKind}
    (h' : Avoids stops stack' ls) : Avoids stops (stack ++ stack') (ks ++ ls) := by
  induction h with
  | nil => exact h'
  | plain hopen hclose hstop _ ih =>
    exact .plain hopen hclose (fun hnil => hstop (List.append_eq_nil_iff.1 hnil).1) ih
  | opening hk hstop _ ih =>
    exact .opening hk (fun hnil => hstop (List.append_eq_nil_iff.1 hnil).1) ih
  | closing hopen hclose _ ih => exact .closing hopen hclose ih

theorem Avoids.mono {stops' : List TokenKind} (h : Avoids stops stack ks)
    (hstops : stops' ⊆ stops) :
    Avoids stops' stack ks := by
  induction h with
  | nil => exact .nil
  | plain hopen hclose hstop _ ih =>
    exact .plain hopen hclose (fun hnil hmem => hstop hnil (hstops hmem)) ih
  | opening hk hstop _ ih => exact .opening hk (fun hnil hmem => hstop hnil (hstops hmem)) ih
  | closing hopen hclose _ ih => exact .closing hopen hclose ih

theorem Avoids.of_plain (h : ∀ k ∈ ks, k.closer? = none ∧ k.isCloser = false ∧ k ∉ stops) :
    Avoids stops [] ks := by
  induction ks with
  | nil => exact .nil
  | cons k ks ih =>
    obtain ⟨⟨hopen, hclose, hstop⟩, hks⟩ := List.forall_mem_cons.1 h
    exact .plain hopen hclose (fun _ => hstop) (ih hks)

theorem Avoids.closes (h : Avoids stops stack ks) : Closes stack ks := by
  induction h with
  | nil => exact .nil
  | plain hopen hclose _ _ ih => exact .plain hopen hclose ih
  | opening hk _ _ ih => exact .opening hk ih
  | closing hopen hclose _ ih => exact .closing hopen hclose ih

/-- Inside of brackets there may be tokens of any kind. -/
theorem Closes.avoids (h : Closes stack ks) {outer : List TokenKind} (houter : outer ≠ [])
    (h' : Avoids stops outer ls) : Avoids stops (stack ++ outer) (ks ++ ls) := by
  have hne (stack : List TokenKind) : stack ++ outer ≠ [] :=
    List.append_ne_nil_of_right_ne_nil _ houter
  induction h with
  | nil => exact h'
  | plain hopen hclose _ ih => exact .plain hopen hclose (absurd · (hne _)) ih
  | opening hk _ ih => exact .opening hk (absurd · (hne _)) ih
  | closing hopen hclose _ ih => exact .closing hopen hclose ih

theorem closer?_of_closer? (hk : k.closer? = some closer) : closer.closer? = none := by
  cases k <;> cases hk <;> rfl

/-- A group in brackets. -/
theorem Closes.avoids_group (h : Closes [] inner) (hk : k.closer? = some closer)
    (hstop : k ∉ stops) :
    Avoids stops [] (k :: (inner ++ [closer])) := by
  have hclosing : Avoids stops [closer] [closer] :=
    .closing (closer?_of_closer? hk) (TokenKind.isCloser_of_closer? hk) .nil
  exact .opening hk (fun _ => hstop) (h.avoids (List.cons_ne_nil _ _) hclosing)

theorem Closes.avoids_nil (h : Closes stack ks) : Avoids [] stack ks := by
  induction h with
  | nil => exact .nil
  | plain hopen hclose _ ih => exact .plain hopen hclose (fun _ => List.not_mem_nil) ih
  | opening hk _ ih => exact .opening hk (fun _ => List.not_mem_nil) ih
  | closing hopen hclose _ ih => exact .closing hopen hclose ih

end Avoids

end Brackets

namespace Cursor

open Brackets (Avoids)

variable {stops : List TokenKind} {k last closer : TokenKind} {c c₁ c₂ : Cursor}

/-- The tokens between the cursors close what they open. Outside of brackets none is of the
kinds. -/
def Over (stops : List TokenKind) (c c₁ : Cursor) : Prop :=
  ∃ ks, kinds c.ahead = ks ++ kinds c₁.ahead ∧ Avoids stops [] ks

/-- The second cursor stands behind a token of the last kind, and the tokens before that close what
they open. Outside of brackets none of them is of the kinds. -/
def UpTo (stops : List TokenKind) (last : TokenKind) (c c₁ : Cursor) : Prop :=
  ∃ ks, kinds c.ahead = ks ++ last :: kinds c₁.ahead ∧ Avoids stops [] ks

theorem kinds_next? {s : Step 1 Token c} (hs : c.next? = some s) :
    kinds c.ahead = s.value.kind :: kinds s.rest.ahead := by
  rw [(next?_eq_some hs).1, Token.kinds_cons]

theorem kinds_take? {s : Step 1 Token c} (hs : c.take? k = some s) :
    kinds c.ahead = k :: kinds s.rest.ahead := by
  obtain ⟨hnext, hkind⟩ := Option.filter_eq_some_iff.1 hs
  rw [kinds_next? hnext, eq_of_beq hkind]

theorem kinds_takeWord? {w : String} {s : Step 1 Token c} (hs : c.takeWord? w = some s) :
    kinds c.ahead = .word :: kinds s.rest.ahead := by
  obtain ⟨hnext, hword⟩ := Option.filter_eq_some_iff.1 hs
  rw [kinds_next? hnext, eq_of_beq (Bool.and_eq_true_iff.1 hword).1]

theorem kinds_take {s : Step 1 Token c} (hs : c.take k = .ok s) :
    kinds c.ahead = k :: kinds s.rest.ahead := by
  obtain ⟨hahead, -, hkind⟩ := take_eq_ok hs
  rw [hahead, Token.kinds_cons, hkind]

theorem kinds_takeWord {w : String} {s : Step 1 Token c} (hs : c.takeWord w = .ok s) :
    kinds c.ahead = .word :: kinds s.rest.ahead := by
  unfold takeWord at hs
  split at hs
  next htake =>
    cases hs
    exact kinds_takeWord? htake
  next => cases hs

theorem kinds_takeName {s : Step 1 String c} (hs : c.takeName = .ok s) :
    kinds c.ahead = .word :: kinds s.rest.ahead := by
  unfold takeName at hs
  split at hs
  next htake =>
    cases hs
    exact kinds_take? htake
  next => cases hs

theorem kinds_takeVariable {s : Step 1 String c} (hs : c.takeVariable = .ok s) :
    kinds c.ahead = .var :: kinds s.rest.ahead := by
  unfold takeVariable at hs
  split at hs
  next htake =>
    cases hs
    exact kinds_take? htake
  next => cases hs

namespace Over

theorem refl : c.Over stops c := ⟨[], rfl, .nil⟩

theorem trans (h : c.Over stops c₁) (h' : c₁.Over stops c₂) : c.Over stops c₂ := by
  obtain ⟨ks, hks, havoids⟩ := h
  obtain ⟨ls, hls, havoids'⟩ := h'
  exact ⟨ks ++ ls, by rw [hks, hls, List.append_assoc], havoids.append havoids'⟩

/-- One token that is no bracket. -/
theorem one (hkinds : kinds c.ahead = k :: kinds c₁.ahead) (hopen : k.closer? = none)
    (hclose : k.isCloser = false) (hstop : k ∉ stops) : c.Over stops c₁ :=
  ⟨[k], hkinds, .plain hopen hclose (fun _ => hstop) .nil⟩

theorem upTo (h : c.Over stops c₁) {s : Step 1 Token c₁} (hs : c₁.take last = .ok s) :
    c.UpTo stops last s.rest := by
  obtain ⟨ks, hks, havoids⟩ := h
  exact ⟨ks, by rw [hks, kinds_take hs], havoids⟩

theorem upTo_take? (h : c.Over stops c₁) {s : Step 1 Token c₁} (hs : c₁.take? last = some s) :
    c.UpTo stops last s.rest := by
  obtain ⟨ks, hks, havoids⟩ := h
  exact ⟨ks, by rw [hks, kinds_take? hs], havoids⟩

theorem trans_upTo (h : c.Over stops c₁) (h' : c₁.UpTo stops last c₂) : c.UpTo stops last c₂ := by
  obtain ⟨ks, hks, havoids⟩ := h
  obtain ⟨ls, hls, havoids'⟩ := h'
  exact ⟨ks ++ ls, by rw [hks, hls, List.append_assoc], havoids.append havoids'⟩

theorem sameLineComment (h : c.Over stops c₁) : c.Over stops c₁.sameLineComment.rest := by
  rw [Over, Fragment.kinds_ahead_sameLineComment]
  exact h

end Over

/-- A group, of which the opening bracket comes first. -/
theorem UpTo.group (h : c₁.UpTo [] closer c₂) (hkinds : kinds c.ahead = k :: kinds c₁.ahead)
    (hk : k.closer? = some closer) (hstop : k ∉ stops) : c.Over stops c₂ := by
  obtain ⟨inner, hinner, havoids⟩ := h
  refine ⟨k :: (inner ++ [closer]), ?_, havoids.closes.avoids_group hk hstop⟩
  rw [hkinds, hinner]
  simp

theorem takeMore?_eq_some {n : Nat} {s : Step 1 (List Token) c} (hs : c.takeMore? n = some s) :
    s.rest = c.skip (n + 1) := by
  have hahead : c.ahead ≠ [] := by
    intro hnil
    rw [takeMore?, show c.next? = none by unfold next?; split <;> simp_all] at hs
    cases hs
  obtain ⟨s', hs', -, hrest⟩ := exists_takeMore? hahead n
  cases hs.symm.trans hs'
  exact hrest

theorem over_skip {n : Nat} (h : Avoids stops [] (kinds (c.ahead.take n))) :
    c.Over stops (c.skip n) := by
  refine ⟨_, ?_, h⟩
  rw [skip, kinds, kinds, kinds, ← List.map_append, List.take_append_drop]

section Take

variable (hstops : stops ⊆ [.semicolon, .leftBrace])

include hstops

/-- A token that is neither a bracket nor the semicolon. -/
theorem over_next (hkinds : kinds c.ahead = k :: kinds c₁.ahead)
    (hk : k.closer? = none ∧ k.isCloser = false ∧ k ∉ [.semicolon, .leftBrace]) : c.Over stops c₁ :=
  .one hkinds hk.1 hk.2.1 fun hmem => hk.2.2 (hstops hmem)

theorem over_take? {s : Step 1 Token c} (hs : c.take? k = some s)
    (hk : k.closer? = none ∧ k.isCloser = false ∧ k ∉ [.semicolon, .leftBrace]) :
    c.Over stops s.rest :=
  over_next hstops (kinds_take? hs) hk

theorem over_takeWord? {w : String} {s : Step 1 Token c} (hs : c.takeWord? w = some s) :
    c.Over stops s.rest :=
  over_next hstops (kinds_takeWord? hs) (by decide)

theorem over_takeWord {w : String} {s : Step 1 Token c} (hs : c.takeWord w = .ok s) :
    c.Over stops s.rest :=
  over_next hstops (kinds_takeWord hs) (by decide)

theorem over_takeName {s : Step 1 String c} (hs : c.takeName = .ok s) : c.Over stops s.rest :=
  over_next hstops (kinds_takeName hs) (by decide)

theorem over_takeVariable {s : Step 1 String c} (hs : c.takeVariable = .ok s) :
    c.Over stops s.rest :=
  over_next hstops (kinds_takeVariable hs) (by decide)

theorem over_accept (hk : k.closer? = none ∧ k.isCloser = false ∧ k ∉ [.semicolon, .leftBrace]) :
    c.Over stops (c.accept k).rest := by
  unfold accept
  split
  next hs => exact over_take? hstops hs hk
  next => exact .refl

/-- No semicolon and no brace stands in a list of names. -/
theorem over_takeNames {c : Cursor} {s : Step 1 (List String) c} (hs : c.takeNames = .ok s) :
    c.Over stops s.rest := by
  unfold takeNames at hs
  obtain ⟨⟨name, c₁, h₁⟩, hname, hs⟩ := bind_eq_ok.1 hs
  have hc₁ := over_takeName hstops hname
  dsimp only at hs
  split at hs
  next _ c₂ h₂ hcomma =>
    obtain ⟨⟨names, c₃, h₃⟩, hnames, hs⟩ := bind_eq_ok.1 hs
    cases hs
    exact (hc₁.trans (over_take? hstops hcomma (by decide))).trans (over_takeNames hnames)
  next =>
    cases hs
    exact hc₁
termination_by c.size

end Take

end Cursor

section Readers

open Brackets (Avoids)
open Cursor (kinds_take? kinds_take over_take? over_takeWord? over_takeName over_accept over_next)

variable {stops : List TokenKind} {c c₁ c₂ : Cursor}

/-- A group goes up to its own closer. -/
theorem Cursor.exists_of_takeGroup {k closer : TokenKind} (hk : k.closer? = some closer)
    {s : Step 1 (List Token) c} (hs : c.takeGroup k = .ok s) :
    ∃ s' : Step 1 Token c, c.take k = .ok s' ∧ s'.rest.Behind false s.rest ∧
      s'.rest.UpTo [] closer s.rest := by
  unfold takeGroup at hs
  obtain ⟨⟨t, c₁, h₁⟩, htake, hs⟩ := bind_eq_ok.1 hs
  rw [hk] at hs
  obtain ⟨n, hn, hs⟩ := bind_eq_ok.1 hs
  cases hs
  obtain ⟨inner, last, hinner, -, hcloses, hlast⟩ := Extent.exists_kinds_of_groupRest hn
  obtain rfl : last = closer := List.singleton_inj.1 hlast
  have hsplit : kinds c₁.ahead = kinds (c₁.ahead.take n) ++ kinds (c₁.skip n).ahead := by
    rw [skip, kinds, kinds, kinds, ← List.map_append, List.take_append_drop]
  refine ⟨_, htake, .tokens n, inner, ?_, hcloses.avoids_nil⟩
  change kinds c₁.ahead = inner ++ last :: kinds (c₁.skip n).ahead
  rw [hsplit, hinner]
  simp

theorem Cursor.over_takeGroup {k closer : TokenKind} (hk : k.closer? = some closer)
    {s : Step 1 (List Token) c} (hs : c.takeGroup k = .ok s) : c.Over [] s.rest := by
  obtain ⟨s', htake, -, hgroup⟩ := exists_of_takeGroup hk hs
  exact hgroup.group (kinds_take htake) hk List.not_mem_nil

theorem Cursor.over_takeAttributes {c : Cursor} {s : Step 0 (List String) c}
    (hs : c.takeAttributes = .ok s) : c.Over [] s.rest := by
  unfold takeAttributes at hs
  split at hs
  next =>
    obtain ⟨⟨ts, c₁, h₁⟩, hgroup, hs⟩ := bind_eq_ok.1 hs
    obtain ⟨⟨more, c₂, h₂⟩, hmore, hs⟩ := bind_eq_ok.1 hs
    cases hs
    exact (over_takeGroup rfl hgroup).trans (over_takeAttributes hmore)
  next =>
    cases hs
    exact .refl
termination_by c.size

namespace TypeText

variable (hstops : stops ⊆ [.semicolon, .leftBrace])

include hstops

theorem over_readIntersection {c : Cursor} {s : Step 1 String c} (hs : readIntersection c = .ok s) :
    c.Over stops s.rest := by
  unfold readIntersection at hs
  obtain ⟨⟨name, c₁, h₁⟩, hname, hs⟩ := bind_eq_ok.1 hs
  have hc₁ := over_takeName hstops hname
  dsimp only at hs
  split at hs
  next _ c₂ h₂ hsign =>
    obtain ⟨⟨names, c₃, h₃⟩, hnames, hs⟩ := bind_eq_ok.1 hs
    cases hs
    exact (hc₁.trans (over_take? hstops hsign (by decide))).trans (over_readIntersection hnames)
  next =>
    cases hs
    exact hc₁
termination_by c.size

/-- No semicolon and no brace stands in a part of a type, but in parentheses. -/
theorem over_readPart {s : Step 1 String c} (hs : readPart c = .ok s) : c.Over stops s.rest := by
  unfold readPart at hs
  split at hs
  next _ c₁ h₁ hopen =>
    obtain ⟨⟨names, c₂, h₂⟩, hnames, hs⟩ := bind_eq_ok.1 hs
    obtain ⟨⟨_, c₃, h₃⟩, hclose, hs⟩ := bind_eq_ok.1 hs
    cases hs
    have hinner := (over_readIntersection (List.nil_subset _) hnames).upTo hclose
    exact hinner.group (kinds_take? hopen) rfl fun hmem => absurd (hstops hmem) (by decide)
  next =>
    split at hs
    next hword =>
      cases hs
      exact over_take? hstops hword (by decide)
    next => cases hs

/-- The mark between two parts of a type is no bracket. -/
theorem over_joint? {s : Step 1 String c} (hs : joint? c = some s) : c.Over stops s.rest := by
  unfold joint? at hs
  split at hs
  next hpipe =>
    cases hs
    exact over_take? hstops hpipe (by decide)
  next =>
    split at hs
    next hampersand =>
      split at hs
      next => cases hs
      next =>
        cases hs
        exact over_take? hstops hampersand (by decide)
    next => cases hs

/-- No semicolon and no brace stands in a type, but in parentheses. -/
theorem over_readParts {c : Cursor} {s : Step 1 String c} (hs : readParts c = .ok s) :
    c.Over stops s.rest := by
  unfold readParts at hs
  obtain ⟨⟨part, c₁, h₁⟩, hpart, hs⟩ := bind_eq_ok.1 hs
  have hc₁ := over_readPart hstops hpart
  dsimp only at hs
  split at hs
  next _ c₂ h₂ hjoint =>
    obtain ⟨⟨parts, c₃, h₃⟩, hparts, hs⟩ := bind_eq_ok.1 hs
    cases hs
    exact (hc₁.trans (over_joint? hstops hjoint)).trans (over_readParts hparts)
  next =>
    cases hs
    exact hc₁
termination_by c.size

/-- A type ends before the first semicolon or brace, for its own brackets are parentheses. -/
theorem over_read {s : Step 1 String c} (hs : read c = .ok s) : c.Over stops s.rest := by
  unfold read at hs
  split at hs
  next hquestion =>
    obtain ⟨⟨parts, c₂, h₂⟩, hparts, hs⟩ := bind_eq_ok.1 hs
    cases hs
    exact (over_take? hstops hquestion (by decide)).trans (over_readParts hstops hparts)
  next => exact over_readParts hstops hs

end TypeText

namespace Expr

variable {eof : Token} {closers : List TokenKind} {ts : List Token} {n : Nat}

/-- No semicolon stands in an expression outside of its brackets. -/
theorem avoids_of_rawLength (h : rawLength eof closers ts = .ok n) :
    Avoids [.semicolon] closers (kinds (ts.take n)) := by
  induction ts generalizing closers n with
  | nil =>
    unfold rawLength at h
    split at h
    next hclosers =>
      cases h
      rw [List.isEmpty_iff.1 hclosers]
      exact .nil
    next => cases h
  | cons t ts ih =>
    have hnil (hclosers : closers = []) (h : (Except.ok 0 : Except ParseError Nat) = .ok n) :
        Avoids [.semicolon] closers (kinds ((t :: ts).take n)) := by
      cases h
      rw [hclosers]
      exact .nil
    unfold rawLength at h
    split at h
    next hend => exact hnil (List.isEmpty_iff.1 (Bool.and_eq_true_iff.1 hend).1) h
    next hgoes =>
      have hstop : closers = [] → t.kind ∉ [TokenKind.semicolon] := by
        rintro rfl hmem
        rw [List.mem_singleton.1 hmem] at hgoes
        exact hgoes rfl
      split at h
      next closer hopen =>
        obtain ⟨m, hm, rfl⟩ := Scan.map_eq_ok h
        exact .opening hopen hstop (ih hm)
      next hopen =>
        split at h
        next hclose =>
          obtain ⟨m, hm, rfl⟩ := Scan.map_eq_ok h
          exact .plain hopen (by simpa using hclose) hstop (ih hm)
        next hclose =>
          split at h
          next => exact hnil rfl h
          next closer outer =>
            split at h
            next => cases h
            next hkind =>
              rw [Decidable.not_not] at hkind
              subst hkind
              obtain ⟨m, hm, rfl⟩ := Scan.map_eq_ok h
              exact .closing hopen (by simpa using hclose) (ih hm)

/-- An expression that is kept as text ends before the first semicolon outside of its brackets. -/
theorem over_readRaw (hstops : stops ⊆ [.semicolon]) {s : Step 1 Expr c} (hs : readRaw c = .ok s) :
    c.Over stops s.rest := by
  unfold readRaw at hs
  obtain ⟨n, hn, hs⟩ := bind_eq_ok.1 hs
  split at hs
  next step htake =>
    cases hs
    split at htake
    next => cases htake
    next hpos =>
      have hrest : step.rest = c.skip n := by
        rw [Cursor.takeMore?_eq_some htake, Nat.sub_add_cancel (Nat.pos_of_ne_zero hpos)]
      change c.Over stops step.rest
      rw [hrest]
      exact Cursor.over_skip ((avoids_of_rawLength hn).mono hstops)
  next => cases hs

/-- A scalar is one token or a sign and a number, and none of them is a bracket. -/
theorem over_scalar? (hstops : stops ⊆ [.semicolon]) {s : Step 1 Expr c} (hs : scalar? c = some s) :
    c.Over stops s.rest := by
  have hone {c c₁ : Cursor} {t : Token} {h₁ : c₁.size + 1 ≤ c.size} {k : TokenKind}
      (hs : c.next? = some ⟨t, c₁, h₁⟩) (hkind : t.kind = k)
      (hk : k.closer? = none ∧ k.isCloser = false ∧ k ∉ [.semicolon, .leftBrace]) :
      c.Over stops c₁ := by
    refine over_next (List.Subset.trans hstops (by simp)) ?_ hk
    rw [Cursor.kinds_next? hs, hkind]
  unfold scalar? at hs
  split at hs
  next => cases hs
  next t c₁ h₁ hnext =>
    dsimp only at hs
    split at hs
    next hkind =>
      split at hs
      next => cases hs
      next =>
        cases hs
        exact hone hnext hkind (by decide)
    next hkind =>
      obtain ⟨n, -, rfl⟩ := Option.map_eq_some_iff.1 hs
      exact hone hnext hkind (by decide)
    next hkind =>
      cases hs
      exact hone hnext hkind (by decide)
    next hkind =>
      cases hs
      exact hone hnext hkind (by decide)
    next hkind =>
      obtain ⟨⟨u, c₂, h₂⟩, hu, hs⟩ := Option.bind_eq_some_iff.1 hs
      obtain ⟨e, hnumber, rfl⟩ := Option.map_eq_some_iff.1 hs
      refine (hone hnext hkind (by decide)).trans ?_
      unfold negated? at hnumber
      dsimp only at hnumber
      split at hnumber
      next hkind' => exact hone hu hkind' (by decide)
      next hkind' => exact hone hu hkind' (by decide)
      next => cases hnumber
    next => cases hs

/-- The brackets of an array are opened and filled. -/
theorem over_of_arrayOpening? (hstops : stops ⊆ [.semicolon, .leftBrace])
    {s : Step 1 (TokenKind × Bool) c} (hs : arrayOpening? c = some s)
    (hinner : s.rest.UpTo [] s.value.1 c₂) : c.Over stops c₂ := by
  unfold arrayOpening? at hs
  split at hs
  next hopen =>
    cases hs
    exact hinner.group (kinds_take? hopen) rfl fun hmem => absurd (hstops hmem) (by decide)
  next =>
    obtain ⟨⟨_, c₁, h₁⟩, hword, hs⟩ := Option.bind_eq_some_iff.1 hs
    obtain ⟨_, hopen, rfl⟩ := Option.map_eq_some_iff.1 hs
    refine (over_takeWord? hstops hword).trans ?_
    exact hinner.group (kinds_take? hopen) rfl fun hmem => absurd (hstops hmem) (by decide)

mutual

/-- An expression ends before the first semicolon outside of its brackets, whatever the readers made
of it. -/
theorem over_read {stops : List TokenKind} (hstops : stops ⊆ [.semicolon]) {c : Cursor}
    {s : Step 1 Expr c} (hs : read c = .ok s) : c.Over stops s.rest := by
  unfold read at hs
  obtain ⟨literal, hliteral, hs⟩ := bind_eq_ok.1 hs
  split at hs
  next e c₁ h₁ =>
    split at hs
    next =>
      cases hs
      exact over_readLiteral hstops hliteral
    next => exact over_readRaw hstops hs
  next => exact over_readRaw hstops hs
termination_by 4 * c.size + 1

theorem over_readLiteral {stops : List TokenKind} (hstops : stops ⊆ [.semicolon]) {c : Cursor}
    {s : Step 1 Expr c} (hs : readLiteral c = .ok (some s)) : c.Over stops s.rest := by
  unfold readLiteral at hs
  split at hs
  next => exact over_scalar? hstops (Except.ok.inj hs)
  next closer long c₁ h₁ hopening =>
    obtain ⟨⟨⟨items, closing⟩, c₂, h₂⟩, hitems, hs⟩ := bind_eq_ok.1 hs
    cases hs
    exact over_of_arrayOpening? (List.Subset.trans hstops (by simp)) hopening
      (upTo_readItems hitems)
termination_by 4 * c.size + 0

/-- The items of an array go up to its closer. -/
theorem upTo_readItems {closer : TokenKind} {c : Cursor}
    {s : Step 1 (List ArrayItem × List String) c} (hs : readItems closer c = .ok s) :
    c.UpTo [] closer s.rest := by
  unfold readItems at hs
  dsimp only at hs
  split at hs
  next hclose =>
    cases hs
    exact ⟨[], kinds_take? hclose, .nil⟩
  next =>
    split at hs
    next => cases hs
    next =>
      obtain ⟨⟨item, c₁, h₁⟩, hitem, hs⟩ := bind_eq_ok.1 hs
      have hc₁ := over_readItem hitem
      dsimp only at hs
      split at hs
      next _ c₂ h₂ hcomma =>
        have hprogress := c₂.sameLineComment.progress
        obtain ⟨⟨_, c₄, h₄⟩, hitems, hs⟩ := bind_eq_ok.1 hs
        cases hs
        have hc₂ := hc₁.trans (over_take? (List.nil_subset _) hcomma (by decide))
        exact hc₂.sameLineComment.trans_upTo (upTo_readItems hitems)
      next =>
        obtain ⟨⟨_, c₂, h₂⟩, hclose, hs⟩ := bind_eq_ok.1 hs
        cases hs
        exact hc₁.upTo hclose
termination_by 4 * c.size + 3

/-- An item closes the brackets that it opens. -/
theorem over_readItem {c : Cursor} {s : Step 1 ArrayItem c} (hs : readItem c = .ok s) :
    c.Over [] s.rest := by
  unfold readItem at hs
  split at hs
  next _ c₁ h₁ hspread =>
    obtain ⟨⟨value, c₂, h₂⟩, hvalue, hs⟩ := bind_eq_ok.1 hs
    cases hs
    exact (over_take? (List.nil_subset _) hspread (by decide)).trans
      (over_read (List.nil_subset _) hvalue)
  next =>
    have hc₁ : c.Over [] (c.accept .ampersand).rest := over_accept (List.nil_subset _) (by decide)
    generalize c.accept .ampersand = step at hc₁ hs
    obtain ⟨byRef, c₁, h₁⟩ := step
    obtain ⟨⟨first, c₂, h₂⟩, hfirst, hs⟩ := bind_eq_ok.1 hs
    have hc₂ := hc₁.trans (over_read (List.nil_subset _) hfirst)
    dsimp only at hs
    split at hs
    next _ c₃ h₃ harrow =>
      have hc₃ : c.Over [] c₃ := by
        split at harrow
        next => cases harrow
        next => exact hc₂.trans (over_take? (List.nil_subset _) harrow (by decide))
      have hc₄ := hc₃.trans (over_accept (List.nil_subset _) (k := .ampersand) (by decide))
      generalize c₃.accept .ampersand = step at hc₄ hs
      obtain ⟨byRef', c₄, h₄⟩ := step
      obtain ⟨⟨value, c₅, h₅⟩, hvalue, hs⟩ := bind_eq_ok.1 hs
      cases hs
      exact hc₄.trans (over_read (List.nil_subset _) hvalue)
    next =>
      cases hs
      exact hc₂
termination_by 4 * c.size + 2

end

end Expr

namespace Fragment

/-- Statements close the brackets that they open, so that the first closer behind them
is that of the block. -/
theorem over_split {braced isFirst : Bool} {c : Cursor} {s : Step 0 (List InnerStmt) c}
    (hs : split braced isFirst c = .ok s) : c.Over [] s.rest := by
  unfold split at hs
  split at hs
  next => cases hs
  next =>
    split at hs
    next =>
      cases hs
      exact .refl
    next =>
      obtain ⟨⟨ts, c₁, h₁⟩, hstatement, hs⟩ := bind_eq_ok.1 hs
      obtain ⟨n, hahead, hn, -, hrest⟩ := Cursor.takeStatement_eq_ok hstatement
      have hc₁ : c.Over [] c₁ := by
        dsimp only at hrest
        rw [hrest, Nat.sub_add_cancel (Extent.statement_ends hahead hn).1]
        exact Cursor.over_skip (Extent.closes_of_statement hn).avoids_nil
      have hc₂ := hc₁.sameLineComment
      dsimp only at hc₂ hs
      generalize c₁.sameLineComment = step at hc₂ hs
      obtain ⟨comment, c₂, h₂⟩ := step
      obtain ⟨⟨more, c₃, h₃⟩, hmore, hs⟩ := bind_eq_ok.1 hs
      cases hs
      exact hc₂.trans (over_split hmore)
termination_by c.size

/-- A block goes up to the closer of its brace. -/
theorem exists_of_block {s : Step 1 (List InnerStmt) c} (hs : block c = .ok s) :
    ∃ s' : Step 1 Token c, c.take .leftBrace = .ok s' ∧ s'.rest.Behind false s.rest ∧
      s'.rest.UpTo [] .rightBrace s.rest := by
  unfold block at hs
  obtain ⟨s₁, hopen, hs⟩ := bind_eq_ok.1 hs
  obtain ⟨⟨stmts, c₂, h₂⟩, hstmts, hs⟩ := bind_eq_ok.1 hs
  obtain ⟨⟨_, c₃, h₃⟩, hclose, hs⟩ := bind_eq_ok.1 hs
  cases hs
  refine ⟨s₁, hopen, ?_, (over_split hstmts).upTo hclose⟩
  exact ((leaves_split true true Cursor.Behind.refl).rest hstmts |>.take _).rest hclose

end Fragment

end Readers

end ClassEdit
