import ClassEdit.Cursor
import ClassEdit.Layout
import ClassEdit.Proofs.Token.Lexing

/-!
Reading what is written. A text is written as a value if, wherever it stands, a reader that starts
before it takes the value and stops behind it. Such texts are put together from the end: the cursor
before a token is the cursor behind it with the token pushed onto it.
-/

namespace ClassEdit

section Except

variable {ε α β : Type}

@[simp] theorem ok_bind (a : α) (f : α → Except ε β) : ((.ok a : Except ε α) >>= f) = f a := rfl

@[simp] theorem pure_eq_ok (a : α) : (pure a : Except ε α) = .ok a := rfl

@[simp] theorem map_ok (f : α → β) (a : α) : (.ok a : Except ε α).map f = .ok (f a) := rfl

theorem bind_eq_ok {x : Except ε α} {g : α → Except ε β} {b : β} :
    x >>= g = .ok b ↔ ∃ a, x = .ok a ∧ g a = .ok b := by
  cases x with
  | error e => simp [bind, Except.bind]
  | ok a => simp

theorem bind_eq_error {x : Except ε α} {g : α → Except ε β} {e : ε} :
    x >>= g = .error e ↔ x = .error e ∨ ∃ a, x = .ok a ∧ g a = .error e := by
  cases x with
  | error e' => simp [bind, Except.bind]
  | ok a => simp

end Except

namespace Step

variable {α : Type} {k : Nat} {c c₁ : Cursor}

@[simp] theorem value_past (h : c₁.size + 1 ≤ c.size) (s : Step k α c₁) :
    (past h s).value = s.value := rfl

@[simp] theorem rest_past (h : c₁.size + 1 ≤ c.size) (s : Step k α c₁) :
    (past h s).rest = s.rest := rfl

@[simp] theorem value_after (h : c₁.size + 0 ≤ c.size) (s : Step k α c₁) :
    (after h s).value = s.value :=
  rfl

@[simp] theorem rest_after (h : c₁.size + 0 ≤ c.size) (s : Step k α c₁) :
    (after h s).rest = s.rest := rfl

@[simp] theorem value_weaken (s : Step k α c) : s.weaken.value = s.value := rfl

@[simp] theorem rest_weaken (s : Step k α c) : s.weaken.rest = s.rest := rfl

@[simp] theorem value_here (a : α) : (here a : Step 0 α c).value = a := rfl

@[simp] theorem rest_here (a : α) : (here a : Step 0 α c).rest = c := rfl

end Step

@[simp] theorem Lexeme.string_mk (gap : List Char) (k : TokenKind) (x : String) (p : Position) :
    Lexeme.string ⟨gap, k, x.toList, p⟩ = x :=
  String.ofList_toList

namespace Token

def bare (l : Lexeme) : Token := { l with comments := [] }

@[simp] theorem bare_toLexeme (l : Lexeme) : (bare l).toLexeme = l := rfl

@[simp] theorem bare_comments (l : Lexeme) : (bare l).comments = [] := rfl

theorem ofLexemes_cons {l : Lexeme} (h : l.kind ≠ .comment) (comments ls : List Lexeme) :
    ofLexemes comments (l :: ls) = { l with comments := comments } :: ofLexemes [] ls := by
  rw [ofLexemes, if_neg h]

end Token

theorem isBlank_space : ∀ d ∈ [' '], isBlank d = true := by
  simp [isBlank]

theorem isBlank_newline : ∀ d ∈ ['\n'], isBlank d = true := by
  simp [isBlank]

namespace Cursor

def push (c : Cursor) (t : Token) : Cursor := { c with ahead := t :: c.ahead }

@[simp] theorem head_push (c : Cursor) (t : Token) : (c.push t).head = t := rfl

@[simp] theorem second_push (c : Cursor) (t : Token) : (c.push t).second = c.head := rfl

@[simp] theorem ahead_push (c : Cursor) (t : Token) : (c.push t).ahead = t :: c.ahead := rfl

@[simp] theorem isAt_push (c : Cursor) (t : Token) (k : TokenKind) :
    (c.push t).isAt k = (t.kind == k) :=
  rfl

@[simp] theorem isAtWord_push (c : Cursor) (t : Token) (w : String) :
    (c.push t).isAtWord w = t.isWord w :=
  rfl

theorem size_push (c : Cursor) (t : Token) : c.size + 1 ≤ (c.push t).size :=
  Nat.le_refl _

@[simp] theorem next?_push (c : Cursor) (t : Token) :
    (c.push t).next? = some ⟨t, c, size_push c t⟩ :=
  rfl

@[simp] theorem take?_push (c : Cursor) (t : Token) (k : TokenKind) :
    (c.push t).take? k = if t.kind = k then some ⟨t, c, size_push c t⟩ else none := by
  by_cases h : t.kind = k <;> simp [take?, Option.filter, h]

@[simp] theorem takeWord?_push (c : Cursor) (t : Token) (w : String) :
    (c.push t).takeWord? w = if t.isWord w then some ⟨t, c, size_push c t⟩ else none := by
  by_cases h : t.isWord w <;> simp [takeWord?, Option.filter, h]

@[simp] theorem take_push (c : Cursor) (t : Token) (k : TokenKind) :
    (c.push t).take k = if t.kind = k then .ok ⟨t, c, size_push c t⟩
      else .error ((c.push t).unexpected (.kind k)) := by
  by_cases h : t.kind = k <;> simp [take, h]

@[simp] theorem takeWord_push (c : Cursor) (t : Token) (w : String) :
    (c.push t).takeWord w = if t.isWord w then .ok ⟨t, c, size_push c t⟩
      else .error ((c.push t).unexpected (.keyword w)) := by
  by_cases h : t.isWord w <;> simp [takeWord, h]

@[simp] theorem takeName_push (c : Cursor) (t : Token) :
    (c.push t).takeName = if t.kind = .word then .ok ⟨t.string, c, size_push c t⟩
      else .error ((c.push t).unexpected .name) := by
  by_cases h : t.kind = .word <;> simp [takeName, h]

@[simp] theorem takeVariable_push (c : Cursor) (t : Token) :
    (c.push t).takeVariable = if t.kind = .var
      then .ok ⟨String.ofList (t.text.drop 1), c, size_push c t⟩
      else .error ((c.push t).unexpected .variable_) := by
  by_cases h : t.kind = .var <;> simp [takeVariable, h]

theorem eq_push (c : Cursor) : c.ahead = [] ∨ ∃ c' t, c = push c' t := by
  obtain ⟨ahead, eof⟩ := c
  cases ahead with
  | nil => exact .inl rfl
  | cons t ts => exact .inr ⟨⟨ts, eof⟩, t, rfl⟩

/-- A token is ahead of a cursor from which one was taken. -/
theorem isEmpty_ahead {c c' : Cursor} (h : c'.size + 1 ≤ c.size) : c.ahead.isEmpty = false := by
  cases hc : c.ahead with
  | nil => simp [size, hc] at h
  | cons t ts => rfl

theorem next?_eq_none {c : Cursor} (h : c.ahead = []) : c.next? = none := by
  unfold next?
  split
  next hc => simp [h] at hc
  next => rfl

/-- Nothing is taken of a kind that does not come next. -/
theorem take?_eq_none {c : Cursor} {k : TokenKind} (h : c.head.kind ≠ k) : c.take? k = none := by
  rcases c.eq_push with hc | ⟨c, t, rfl⟩
  · rw [take?, next?_eq_none hc]
    rfl
  · rw [head_push] at h
    simp [h]

theorem takeWord?_eq_none {c : Cursor} {w : String} (h : c.head.isWord w = false) :
    c.takeWord? w = none := by
  rcases c.eq_push with hc | ⟨c, t, rfl⟩
  · rw [takeWord?, next?_eq_none hc]
    rfl
  · rw [head_push] at h
    simp [h]

theorem accept_eq_false {c : Cursor} {k : TokenKind} (h : c.head.kind ≠ k) :
    c.accept k = ⟨false, c, Nat.le_refl _⟩ := by
  rw [accept, take?_eq_none h]
  rfl

theorem accept_push {c : Cursor} {t : Token} {k : TokenKind} (h : t.kind = k) :
    (c.push t).accept k = ⟨true, c, Nat.le_of_succ_le (c.size_push t)⟩ := by
  rw [accept, take?_push, if_pos h]
  rfl

theorem sameLineComment_eq_none {c : Cursor} (h : c.head.comments = []) :
    c.sameLineComment = ⟨none, c, Nat.le_refl _⟩ := by
  unfold sameLineComment
  split
  next l ls hc => simp [h] at hc
  next => rfl

/-- The cursor stands before the text, which begins at the place. -/
def Before (c : Cursor) (pos : Position) (cs : List Char) : Prop :=
  ∃ ls, Scan.lexemes .code pos cs = .ok ls ∧ ls ≠ [] ∧
    (∀ l, ls.getLast? = some l → l.kind ≠ .comment) ∧ c = .ofLexemes ls

theorem before_blank (pos : Position) {gap : List Char} (hgap : ∀ c ∈ gap, isBlank c = true) :
    Before ⟨[], .bare ⟨gap, .eof, [], pos.after gap⟩⟩ pos gap := by
  refine ⟨_, Scan.lexemes_blank pos hgap, by simp, ?_, rfl⟩
  intro l hl
  simp only [List.getLast?_singleton, Option.some.injEq] at hl
  simp [← hl]

end Cursor

theorem Token.ofLexemes_ne_nil {comments ls : List Lexeme}
    (h : ∀ l, ls.getLast? = some l → l.kind ≠ .comment) (hne : ls ≠ []) :
    Token.ofLexemes comments ls ≠ [] := by
  intro hnil
  have hpieces := Token.pieces_ofLexemes comments ls h hne
  rw [hnil] at hpieces
  simp [hne] at hpieces

namespace Cursor

/-- White space and a token before a text push the token. -/
theorem Before.token {c : Cursor} {pos : Position} {gap x follow : List Char} {k : TokenKind}
    (hgap : ∀ d ∈ gap, isBlank d = true) (hx : Scan.IsToken k x follow)
    (hmode : Scan.modeAfter k = .code) (hk : k ≠ .comment)
    (h : c.Before ((pos.after gap).after x) follow) :
    (c.push (.bare ⟨gap, k, x, pos.after gap⟩)).Before pos (gap ++ (x ++ follow)) := by
  obtain ⟨ls, hls, hne, hlast, rfl⟩ := h
  refine ⟨_, Scan.lexemes_append_token hgap hx hmode hls, by simp, ?_, ?_⟩
  · intro l hl
    rw [List.getLast?_cons_of_ne_nil hne] at hl
    exact hlast l hl
  · have htokens : Token.ofLexemes [] ls ≠ [] := Token.ofLexemes_ne_nil hlast hne
    simp only [ofLexemes, push, Token.ofLexemes_cons (l := ⟨gap, k, x, pos.after gap⟩) hk,
      Token.bare]
    rw [List.dropLast_cons_of_ne_nil htokens, List.getLast?_cons_of_ne_nil htokens]

end Cursor

/-- The reader takes the value from the first cursor and stops at the second. -/
def Reads {k : Nat} {α : Type} (read : (c : Cursor) → Except ParseError (Step k α c)) (c : Cursor)
    (v : α) (c' : Cursor) : Prop :=
  (read c).map (fun s => (s.value, s.rest)) = .ok (v, c')

theorem Reads.eq_ok {k : Nat} {α : Type} {read : (c : Cursor) → Except ParseError (Step k α c)}
    {c c' : Cursor} {v : α} (h : Reads read c v c') : ∃ hc, read c = .ok ⟨v, c', hc⟩ := by
  unfold Reads at h
  cases hs : read c with
  | error e => simp [hs, Except.map] at h
  | ok s =>
    simp only [hs, Except.map, Except.ok.injEq, Prod.mk.injEq] at h
    obtain ⟨rfl, rfl⟩ := h
    exact ⟨s.progress, rfl⟩

/-- Before the text, wherever it stands, there is a cursor with the property. -/
def Ahead (cs : List Char) (P : Cursor → Prop) : Prop :=
  ∀ pos, ∃ c : Cursor, c.Before pos cs ∧ P c

theorem Ahead.mono {cs : List Char} {P Q : Cursor → Prop} (h : Ahead cs P) (hPQ : ∀ c, P c → Q c) :
    Ahead cs Q := by
  intro pos
  obtain ⟨c, hc, hP⟩ := h pos
  exact ⟨c, hc, hPQ c hP⟩

/-- The cursor stands before one more token of the given gap, kind and text. -/
def Pushed (gap : List Char) (k : TokenKind) (x : List Char) (P : Cursor → Prop) (c : Cursor) :
    Prop :=
  ∃ p c', c = c'.push (.bare ⟨gap, k, x, p⟩) ∧ P c'

theorem Ahead.token {gap x follow : List Char} {k : TokenKind} {P : Cursor → Prop}
    (h : Ahead follow P) (hgap : ∀ d ∈ gap, isBlank d = true) (hx : Scan.IsToken k x follow)
    (hmode : Scan.modeAfter k = .code) (hk : k ≠ .comment) :
    Ahead (gap ++ (x ++ follow)) (Pushed gap k x P) := by
  intro pos
  obtain ⟨c, hc, hP⟩ := h ((pos.after gap).after x)
  exact ⟨_, hc.token hgap hx hmode hk, _, c, rfl, hP⟩

/-- A token with no white space before it. -/
theorem Ahead.mark {x follow : List Char} {k : TokenKind} {P : Cursor → Prop} (h : Ahead follow P)
    (hx : Scan.IsToken k x follow) (hmode : Scan.modeAfter k = .code) (hk : k ≠ .comment) :
    Ahead (x ++ follow) (Pushed [] k x P) :=
  h.token (List.forall_mem_nil _) hx hmode hk

/-- A token behind a space. -/
theorem Ahead.spaced {x follow : List Char} {k : TokenKind} {P : Cursor → Prop} (h : Ahead follow P)
    (hx : Scan.IsToken k x follow) (hmode : Scan.modeAfter k = .code) (hk : k ≠ .comment) :
    Ahead ([' '] ++ (x ++ follow)) (Pushed [' '] k x P) :=
  h.token isBlank_space hx hmode hk

/-- Before the text, behind any white space, there is a cursor with the property. -/
def Shows (cs : List Char) (P : Cursor → Prop) : Prop :=
  ∀ gap, (∀ d ∈ gap, isBlank d = true) → Ahead (gap ++ cs) fun c =>
    c.head.gap = gap ∧ c.head.comments = [] ∧ P c

theorem Shows.mono {cs : List Char} {P Q : Cursor → Prop} (h : Shows cs P) (hPQ : ∀ c, P c → Q c) :
    Shows cs Q :=
  fun gap hgap => (h gap hgap).mono fun c hc => ⟨hc.1, hc.2.1, hPQ c hc.2.2⟩

/-- The text is written as the value, in the sense of the relation: from any cursor before the
text the value leads behind it. What comes first satisfies `first`, and the text may stand before
what satisfies `last`. -/
def Written {α : Type} (reads : Cursor → α → Cursor → Prop) (x : String) (v : α)
    (first : Token → Prop) (last : Cursor → Prop) : Prop :=
  ∀ (follow : List Char) (P : Cursor → Prop), Scan.Stops follow →
    (∀ c, P c → last c) → Ahead follow P →
    Shows (x.toList ++ follow) fun c => first c.head ∧ ∃ c', reads c v c' ∧ P c'

theorem toList_commaList_cons {x : String} {xs : List String} (h : xs ≠ []) :
    (commaList (x :: xs)).toList = x.toList ++ ([','] ++ ([' '] ++ (commaList xs).toList)) := by
  rw [commaList, String.intercalate_cons_of_ne_nil h, String.toList_append, String.toList_append]
  simp [commaList]

theorem Scan.stops_comma (follow : List Char) : Scan.Stops (',' :: follow) :=
  Scan.stops_cons.2 (by decide)

section CommaList

variable {α β : Type} (one : Cursor → α → Cursor → Prop) {list : Cursor → List α → Cursor → Prop}
  {text : β → String} {value : β → α} {first : Token → Prop} {last : Cursor → Prop}

/-- A reader of what stands between commas reads a list of texts if it reads each of them. -/
theorem written_commaList
    (hone : ∀ {c c' v}, one c v c' → c'.head.kind ≠ .comma → list c [v] c')
    (hcons : ∀ {c c' c'' t v vs}, one c v (c'.push t) → t.kind = .comma → list c' vs c'' →
      list c (v :: vs) c'')
    (hcomma : ∀ (c : Cursor) (t : Token), t.kind = .comma → last (c.push t))
    {xs : List β} (hne : xs ≠ []) (hxs : ∀ x ∈ xs, Written one (text x) (value x) first last) :
    Written list (commaList (xs.map text)) (xs.map value) first fun c =>
      last c ∧ c.head.kind ≠ .comma := by
  induction xs with
  | nil => exact absurd rfl hne
  | cons x xs ih =>
    intro follow P hf hlast hA gap hgap
    have hx := hxs x (by simp)
    by_cases hnil : xs = []
    · subst hnil
      have htext : (commaList ([x].map text)).toList = (text x).toList := by simp [commaList]
      rw [htext]
      refine (hx follow P hf (fun c hc => (hlast c hc).1) hA gap hgap).mono ?_
      rintro c ⟨hg, hco, hfirst, c', hread, hP⟩
      exact ⟨hg, hco, hfirst, c', hone hread (hlast c' hP).2, hP⟩
    · have hrest := ih hnil (fun y hy => hxs y (by simp [hy])) follow P hf hlast hA
        [' '] isBlank_space
      have hmark := hrest.mark (Scan.isToken_comma _) rfl (by decide)
      have hitem :=
        hx _ _ (Scan.stops_comma _) (by rintro _ ⟨p, c, rfl, -⟩; exact hcomma _ _ rfl) hmark
        gap hgap
      rw [List.map_cons, toList_commaList_cons (by simpa using hnil)]
      simp only [List.append_assoc]
      refine hitem.mono ?_
      rintro c ⟨hg, hco, hfirst, _, hread, p, c', rfl, -, -, -, c'', hread', hP⟩
      exact ⟨hg, hco, hfirst, c'', hcons hread rfl hread', hP⟩

end CommaList

end ClassEdit
