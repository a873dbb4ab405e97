import ClassEdit.Class.Printer
import ClassEdit.Proofs.Fragment.Resplitting
import ClassEdit.Proofs.Token.Excerpting
import ClassEdit.Proofs.Token.Spelling

/-!
Literals from where they are read to where they are written. A cursor reaches another over the
literals between them; a written text tells literals if it is cut into lexemes with them wherever it
stands. Such texts are put together from the end.
-/

namespace ClassEdit

open Scan (Scanned Begins Holds AtSeparator IsCalm modeAfter)

/-- Before a text that satisfies the condition, the text tells the literals, but for carriage
returns that they lose. Before it a scanner stands in the one mode, behind it in the other. -/
def Tells (mode mode' : Mode) (ends : List Char → Prop) (x : String) (xs : List (List Char)) :
    Prop :=
  ∃ ys, List.Forall₂ LosesReturns xs ys ∧ ∀ follow zs, ends follow → Holds mode' follow zs →
    Holds mode (x.toList ++ follow) (ys ++ zs)

def Anything (_ : List Char) : Prop := True

/-- The text begins in such a way that the condition holds, whatever follows. -/
def Opens (ends : List Char → Prop) (x : String) : Prop :=
  ∀ follow, ends (x.toList ++ follow)

/-- Where the condition holds behind the text, it holds before the text too. -/
def Keeps (ends : List Char → Prop) (x : String) : Prop :=
  ∀ follow, ends follow → ends (x.toList ++ follow)

namespace Keeps

variable {ends : List Char → Prop} {x y : String}

theorem nil (ends : List Char → Prop) : Keeps ends "" := fun _ hfollow => hfollow

theorem append (hx : Keeps ends x) (hy : Keeps ends y) : Keeps ends (x ++ y) := by
  intro follow hfollow
  rw [String.toList_append, List.append_assoc]
  exact hx _ (hy _ hfollow)

theorem join {xs : List String} (h : ∀ x ∈ xs, Keeps ends x) : Keeps ends (String.join xs) := by
  induction xs with
  | nil => exact .nil ends
  | cons x xs ih =>
    obtain ⟨hx, hrest⟩ := List.forall_mem_cons.1 h
    rw [String.join_cons]
    exact hx.append (ih hrest)

end Keeps

namespace Opens

variable {ends : List Char → Prop} {x : String}

theorem keeps (h : Opens ends x) : Keeps ends x := fun follow _ => h follow

theorem append (h : Opens ends x) (y : String) : Opens ends (x ++ y) := by
  intro follow
  rw [String.toList_append, List.append_assoc]
  exact h _

theorem behind {y : String} (h : Opens ends x) (hy : Keeps ends y) : Opens ends (y ++ x) := by
  intro follow
  rw [String.toList_append, List.append_assoc]
  exact hy _ (h follow)

theorem newline : Opens AtLineEnd "\n" := fun _ _ hc => (Option.some.inj hc).symm

theorem atSeparator (h : Opens AtLineEnd x) :
    Opens AtSeparator x := fun follow => .of_atLineEnd (h follow)

theorem separator {c : Char} (hc : c ∈ Scan.separators) :
    Opens AtSeparator (String.ofList [c]) := by
  intro follow
  rw [String.toList_ofList]
  exact Scan.atSeparator_cons hc follow

theorem space : Opens AtSeparator " " := separator (c := ' ') (by decide)

end Opens

namespace Tells

variable {mode mode' mode'' : Mode} {ends ends' : List Char → Prop} {x y : String}
  {xs ys : List (List Char)}

theorem append (hx : Tells mode mode' ends x xs) (hy : Tells mode' mode'' ends' y ys)
    (h : ∀ follow, ends' follow → ends (y.toList ++ follow)) :
    Tells mode mode'' ends' (x ++ y) (xs ++ ys) := by
  obtain ⟨us, hus, hx⟩ := hx
  obtain ⟨vs, hvs, hy⟩ := hy
  refine ⟨us ++ vs, List.rel_append hus hvs, fun follow zs hfollow hrest => ?_⟩
  rw [String.toList_append, List.append_assoc, List.append_assoc]
  exact hx _ _ (h follow hfollow) (hy _ _ hfollow hrest)

theorem mono (hx : Tells mode mode' ends x xs) (h : ∀ follow, ends' follow → ends follow) :
    Tells mode mode' ends' x xs := by
  obtain ⟨us, hus, hx⟩ := hx
  exact ⟨us, hus, fun follow zs hfollow => hx follow zs (h follow hfollow)⟩

theorem append_opens (hx : Tells mode mode' ends x xs) (hy : Tells mode' mode'' ends' y ys)
    (h : Opens ends y) :
    Tells mode mode'' ends' (x ++ y) (xs ++ ys) :=
  hx.append hy fun follow _ => h follow

/-- A text that anything may follow, before another one. -/
theorem before (hx : Tells mode mode' Anything x xs) (hy : Tells mode' mode'' ends y ys) :
    Tells mode mode'' ends (x ++ y) (xs ++ ys) :=
  hx.append hy fun _ _ => trivial

theorem of_holds (h : ∀ follow zs, ends follow → Holds mode' follow zs →
    Holds mode (x.toList ++ follow) zs) :
    Tells mode mode' ends x [] :=
  ⟨[], .nil, h⟩

theorem nil (mode : Mode) (ends : List Char → Prop) : Tells mode mode ends "" [] :=
  of_holds fun _ _ _ hrest => hrest

/-- Names and numbers tell nothing. -/
theorem of_isCalm (hx : IsCalm x) : Tells .code .code AtSeparator x [] :=
  of_holds fun _ _ hfollow hrest => hrest.calm hx hfollow

theorem separator {c : Char} (hc : c ∈ Scan.separators) :
    Tells .code .code Anything (String.ofList [c]) [] :=
  of_holds fun follow _ _ hrest => by
    rw [String.toList_ofList]
    exact hrest.separator hc

theorem blank (hx : ∀ c ∈ x.toList, isBlank c = true) : Tells .code .code Anything x [] :=
  of_holds fun _ _ _ hrest => hrest.behindGap hx

/-- A mark that is a token before any text. -/
theorem mark {kind : TokenKind} (hx : ∀ follow, Scan.IsToken kind x.toList follow)
    (hmode : modeAfter kind = .code) (hliteral : kind.isLiteral = false) :
    Tells .code .code Anything x [] :=
  of_holds fun follow _ _ hrest => hrest.token (hx follow) hmode hliteral

/-- A text that is written in one case only. -/
theorem optional (b : Bool) (hx : Tells .code .code Anything x []) :
    Tells .code .code Anything (if b then x else "") [] := by
  cases b with
  | false => exact nil .code _
  | true => exact hx

/-- A text that tells nothing and ends with a separator. -/
theorem calm_separator (hx : IsCalm x) {c : Char} (hc : c ∈ Scan.separators) :
    Tells .code .code Anything (x ++ String.ofList [c]) [] :=
  (of_isCalm hx).append_opens (separator hc) (.separator hc)

end Tells

theorem Token.Sequence.comments_of_mem {mode : Mode} {t : Token} {ts : List Token}
    (h : Token.Sequence mode ts) (ht : t ∈ ts) : ∀ l ∈ t.comments, l.kind = .comment := by
  induction h with
  | nil => cases ht
  | cons _ comments _ _ ih =>
    rcases List.mem_cons.1 ht with rfl | ht
    · exact comments
    · exact ih ht

namespace Cursor

variable {mode mode' mode'' : Mode} {c c₁ c₂ : Cursor} {xs ys : List (List Char)} {last : Lexeme}
  {ls : List Lexeme}

/-- The cursor stands in a source, inside of the tags or outside. -/
structure IsIn (mode : Mode) (c : Cursor) : Prop where
  lexed : ∃ mode, c.IsLexed mode
  scanned : ∃ p cs, Scanned mode p cs c.pieces

/-- The second cursor stands behind the first, and the literals stand between them. -/
structure Reaches (c : Cursor) (xs : List (List Char)) (mode : Mode) (c₁ : Cursor) : Prop where
  isIn : c₁.IsIn mode
  literals : Lexeme.literals c.pieces = xs ++ Lexeme.literals c₁.pieces

theorem IsIn.refl (hc : c.IsIn mode) : c.Reaches [] mode c := ⟨hc, rfl⟩

theorem Reaches.trans (h : c.Reaches xs mode c₁) (h' : c₁.Reaches ys mode' c₂) :
    c.Reaches (xs ++ ys) mode' c₂ :=
  ⟨h'.isIn, by rw [h.literals, h'.literals, List.append_assoc]⟩

theorem pieces_eq (c : Cursor) : c.pieces = c.ahead.flatMap Token.pieces ++ c.eof.pieces := by
  rw [pieces, tokens, List.flatMap_append, List.flatMap_singleton]

namespace IsIn

/-- All comments are handed to the tokens. -/
theorem comments_of_mem (hc : c.IsIn mode) {t : Token} (ht : t ∈ c.ahead) :
    ∀ l ∈ t.comments, l.kind = .comment := by
  obtain ⟨m, hlexed⟩ := hc.lexed
  exact hlexed.tokens.comments_of_mem (List.mem_append_left _ ht)

theorem kind_of_mem (hc : c.IsIn mode) {t : Token} (ht : t ∈ c.ahead) : t.kind ≠ .comment := by
  obtain ⟨m, hlexed⟩ := hc.lexed
  exact hlexed.tokens.kind_ne (List.mem_append_left _ ht)

/-- What is not a token ahead is the end. -/
theorem kind_head (hc : c.IsIn mode) {k : TokenKind} (hk : k ≠ .eof)
    (h : ∀ t ∈ c.ahead.head?, t.kind ≠ k) :
    c.head.kind ≠ k := by
  cases hahead : c.ahead with
  | nil =>
    obtain ⟨m, hlexed⟩ := hc.lexed
    rw [head, hahead, List.headD_nil, hlexed.eof]
    exact hk.symm
  | cons t ts =>
    rw [head, hahead]
    exact h t (by rw [hahead]; rfl)

theorem comments (hc : c.IsIn mode) : ∀ l ∈ c.head.comments, l.kind = .comment :=
  comments_of_lexed hc.lexed

/-- Behind some of its lexemes a cursor stands in the same source. -/
theorem behind (hc : c.IsIn mode) (hpieces : c.pieces = ls ++ c₁.pieces)
    (hlexed : ∃ mode, c₁.IsLexed mode) (hlast : last ∈ ls.getLast?) :
    c.Reaches (Lexeme.literals ls) (modeAfter last.kind) c₁ := by
  obtain ⟨p, cs, hscanned⟩ := hc.scanned
  have hliterals : Lexeme.literals c.pieces = Lexeme.literals ls ++ Lexeme.literals c₁.pieces := by
    rw [hpieces, Lexeme.literals_append]
  rw [hpieces] at hscanned
  obtain ⟨q, d, hbehind⟩ := hscanned.behind c₁.pieces_ne_nil hlast
  exact ⟨⟨hlexed, q, d, hbehind⟩, hliterals⟩

theorem literals_head (hc : c.IsIn mode) (hk : c.head.kind.isLiteral = false) :
    Lexeme.literals (c.head.comments ++ [c.head.toLexeme]) = [] := by
  rw [Lexeme.literals_append, Lexeme.literals_of_comments hc.comments,
    Lexeme.literals_of_plain (by simpa using hk)]
  rfl

section Taking

variable {k : TokenKind}

theorem skip_one (hc : c.IsIn mode) (hahead : c.ahead ≠ []) (hk : c.head.kind.isLiteral = false) :
    c.Reaches [] (modeAfter c.head.kind) (c.skip 1) := by
  obtain ⟨m, hlexed⟩ := hc.lexed
  obtain ⟨hpieces, hrest⟩ := hlexed.skip_one hahead
  have hparts : c.pieces = (c.head.comments ++ [c.head.toLexeme]) ++ (c.skip 1).pieces := by
    simp [hpieces]
  have hreaches := hc.behind hparts ⟨_, hrest⟩ (List.getLast?_concat)
  rwa [hc.literals_head hk] at hreaches

/-- The next token is cut off from the text behind it. -/
theorem begins_head (hc : c.IsIn mode) (hahead : c.ahead ≠ []) :
    ∃ mode d, Begins mode c.head.kind c.head.text d := by
  obtain ⟨p, cs, hscanned⟩ := hc.scanned
  obtain ⟨m, hlexed⟩ := hc.lexed
  obtain ⟨hpieces, -⟩ := hlexed.skip_one hahead
  have hparts : c.pieces = (c.head.comments ++ [c.head.toLexeme]) ++ (c.skip 1).pieces := by
    simp [hpieces]
  rw [hparts] at hscanned
  obtain ⟨mode', -, d, hbegins, -⟩ := hscanned.begins_last (c.skip 1).pieces_ne_nil
    (List.getLast?_concat)
  exact ⟨mode', d, hbegins⟩

theorem next? (hc : c.IsIn mode) {s : Step 1 Token c} (hs : c.next? = some s)
    (hk : s.value.kind.isLiteral = false) :
    c.Reaches [] (modeAfter s.value.kind) s.rest ∧
      ∃ mode d, Begins mode s.value.kind s.value.text d := by
  obtain ⟨hahead, hrest⟩ := next?_eq_some hs
  have hhead : c.head = s.value := by rw [head, hahead]; rfl
  have hne : c.ahead ≠ [] := by rw [hahead]; exact List.cons_ne_nil _ _
  rw [hrest, ← hhead]
  exact ⟨hc.skip_one hne (hhead ▸ hk), hc.begins_head hne⟩

theorem take? (hc : c.IsIn mode) {s : Step 1 Token c} (hs : c.take? k = some s)
    (hk : k.isLiteral = false) :
    c.Reaches [] (modeAfter k) s.rest ∧ s.value.kind = k ∧
      ∃ mode d, Begins mode k s.value.text d := by
  obtain ⟨hnext, hkind⟩ := Option.filter_eq_some_iff.1 hs
  obtain rfl := eq_of_beq hkind
  obtain ⟨hreaches, hbegins⟩ := hc.next? hnext hk
  exact ⟨hreaches, rfl, hbegins⟩

theorem take (hc : c.IsIn mode) {s : Step 1 Token c} (hs : c.take k = .ok s)
    (hk : k.isLiteral = false) :
    c.Reaches [] (modeAfter k) s.rest := by
  unfold Cursor.take at hs
  split at hs
  next htake =>
    cases hs
    exact (hc.take? htake hk).1
  next => cases hs

theorem takeWord? (hc : c.IsIn mode) {w : String} {s : Step 1 Token c}
    (hs : c.takeWord? w = some s) :
    c.Reaches [] .code s.rest := by
  obtain ⟨hnext, hword⟩ := Option.filter_eq_some_iff.1 hs
  have hkind : s.value.kind = .word := eq_of_beq (Bool.and_eq_true_iff.1 hword).1
  obtain ⟨hreaches, -⟩ := hc.next? hnext (by rw [hkind]; rfl)
  rwa [hkind] at hreaches

theorem takeWord (hc : c.IsIn mode) {w : String} {s : Step 1 Token c} (hs : c.takeWord w = .ok s) :
    c.Reaches [] .code s.rest := by
  unfold Cursor.takeWord at hs
  split at hs
  next htake =>
    cases hs
    exact hc.takeWord? htake
  next => cases hs

/-- A name or a variable has no character that could begin a literal. -/
theorem isCalm_of_begins {mode : Mode} {x d : List Char} (h : Begins mode k x d)
    (hk : k = .word ∨ k = .var) :
    IsCalm (String.ofList x) := by
  have htoken : Scan.IsToken k x d := by
    cases mode with
    | code => exact Scan.begins_code_iff.1 h
    | html =>
      rcases Scan.begins_html_iff.1 h with ⟨rfl, -⟩ | ⟨rfl, -⟩ <;>
      · rcases hk with hk | hk <;> cases hk
  intro c hc
  rw [String.toList_ofList] at hc
  exact htoken.isCalm hk c hc

theorem takeName (hc : c.IsIn mode) {s : Step 1 String c} (hs : c.takeName = .ok s) :
    c.Reaches [] .code s.rest ∧ IsCalm s.value := by
  unfold Cursor.takeName at hs
  split at hs
  next t c' h htake =>
    cases hs
    obtain ⟨hreaches, -, _, d, hbegins⟩ := hc.take? htake rfl
    exact ⟨hreaches, isCalm_of_begins hbegins (.inl rfl)⟩
  next => cases hs

theorem takeVariable (hc : c.IsIn mode) {s : Step 1 String c} (hs : c.takeVariable = .ok s) :
    c.Reaches [] .code s.rest ∧ IsCalm s.value := by
  unfold Cursor.takeVariable at hs
  split at hs
  next t c' h htake =>
    cases hs
    obtain ⟨hreaches, -, _, d, hbegins⟩ := hc.take? htake rfl
    refine ⟨hreaches, fun ch hch => ?_⟩
    have hcalm := isCalm_of_begins hbegins (.inr rfl)
    rw [String.toList_ofList] at hch
    exact hcalm ch (by rw [String.toList_ofList]; exact List.mem_of_mem_drop hch)
  next => cases hs

theorem accept (hc : c.IsIn .code) (hk : k.isLiteral = false) (hmode : modeAfter k = .code) :
    c.Reaches [] .code (c.accept k).rest := by
  unfold Cursor.accept
  split
  next htake =>
    have hreaches := (hc.take? htake hk).1
    rwa [hmode] at hreaches
  next => exact hc.refl

/-- Names are passed over without a literal, and none is in them. -/
theorem takeNames {mode : Mode} {c : Cursor} (hc : c.IsIn mode) {s : Step 1 (List String) c}
    (hs : c.takeNames = .ok s) :
    c.Reaches [] .code s.rest ∧ ∀ name ∈ s.value, IsCalm name := by
  unfold Cursor.takeNames at hs
  obtain ⟨⟨name, c₁, h₁⟩, hname, hs⟩ := bind_eq_ok.1 hs
  obtain ⟨hreaches, hcalm⟩ := hc.takeName hname
  dsimp only at hs
  split at hs
  next _ c₂ h₂ hcomma =>
    obtain ⟨⟨names, c₃, h₃⟩, hnames, hs⟩ := bind_eq_ok.1 hs
    cases hs
    have hreaches₂ := hreaches.trans (hreaches.isIn.take? hcomma rfl).1
    obtain ⟨hreaches₃, hall⟩ := takeNames hreaches₂.isIn hnames
    exact ⟨hreaches₂.trans hreaches₃, List.forall_mem_cons.2 ⟨hcalm, hall⟩⟩
  next =>
    cases hs
    exact ⟨hreaches, List.forall_mem_singleton.2 hcalm⟩
termination_by c.size

/-- The comment behind what was read stands between the cursors. -/
theorem sameLineComment (hc : c.IsIn mode) :
    c.Reaches [] mode c.sameLineComment.rest ∧ ∀ l ∈ c.sameLineComment.value, l ∈
      c.head.comments := by
  rcases c.sameLineComment_cases with ⟨hnone, hrest, -⟩ | ⟨l, ls, hcomments, -, hsome, hrest⟩
  · rw [hnone, hrest]
    exact ⟨hc.refl, nofun⟩
  · obtain ⟨m, hlexed⟩ := hc.lexed
    have hl : l ∈ c.head.comments := by rw [hcomments]; exact List.mem_cons_self
    have hkind := hc.comments l hl
    have hmem : ∀ x ∈ ls, x ∈ c.head.comments := fun x hx => by
      rw [hcomments]; exact List.mem_cons_of_mem l hx
    have hcut : c.head.comments = [l] ++ ls := hcomments
    have hlast : l ∈ [l].getLast? := rfl
    have hreaches := hc.behind (pieces_withComments hcut) ⟨m, hlexed.withComments hmem⟩ hlast
    rw [hsome, hrest]
    refine ⟨⟨?_, ?_⟩, fun x hx => Option.some.inj hx ▸ hl⟩
    · cases mode with
      | code => rw [hkind] at hreaches; exact hreaches.isIn
      | html =>
        obtain ⟨p, cs, hscanned⟩ := hc.scanned
        rw [(outside_of_scanned hscanned hc.lexed).1] at hl
        cases hl
    · rw [hreaches.literals, Lexeme.literals_of_comments (by simpa using hkind)]

end Taking

end IsIn

end Cursor

/-- Behind a comment any part can end. -/
theorem Scan.Boundary.of_comment {l : Lexeme} {behind : List Lexeme} (h : l.kind = .comment) :
    Scan.Boundary [] l behind := by
  refine ⟨fun hmode => ?_, fun hword => ?_⟩
  · rw [h] at hmode
    cases hmode
  · cases h.symm.trans hword

namespace Cursor

variable {mode : Mode} {c : Cursor}

theorem IsIn.stands (hc : c.IsIn .code) : c.Stands := by
  obtain ⟨p, cs, hscanned⟩ := hc.scanned
  exact ⟨hc.lexed, .code, p, cs, hscanned, nofun⟩

/-- Code behind comments. -/
theorem behindComments {p : Position} {cs : List Char} {comments ls : List Lexeme}
    (h : Scanned .code p cs (comments ++ ls)) (hcomments : ∀ l ∈ comments, l.kind = .comment)
    (hls : ls ≠ []) :
    ∃ q d, Scanned .code q d ls := by
  rcases List.eq_nil_or_concat' comments with rfl | ⟨init, l, rfl⟩
  · exact ⟨p, cs, h⟩
  · obtain ⟨q, d, hd⟩ := h.behind hls (List.getLast?_concat)
    rw [hcomments l (by simp)] at hd
    exact ⟨q, d, hd⟩

/-- The next tokens without the comments before the first of them. -/
structure Segment (c : Cursor) (t : Token) (ts : List Token) (u : Token) (c₁ : Cursor) : Prop where
  kind : u.kind ≠ .comment
  last : u.toLexeme ∈ (t.toLexeme :: ts.flatMap Token.pieces).getLast?
  reaches : c.Reaches (Lexeme.literals (t.toLexeme :: ts.flatMap Token.pieces))
    (modeAfter u.kind) c₁
  scanned : ∃ q cs, Scanned .code q cs (t.toLexeme :: ts.flatMap Token.pieces ++ c₁.pieces)

/-- Tokens that are taken make a segment, from the first of them to the last. -/
theorem IsIn.segment (hc : c.IsIn .code) {n : Nat} {t u : Token} {ts : List Token}
    (htake : c.ahead.take n = t :: ts) (hu : u ∈ (t :: ts).getLast?) :
    c.Segment t ts u (c.skip n) := by
  have hhead : t = c.head := by
    cases hahead : c.ahead with
    | nil => rw [hahead, List.take_nil] at htake; cases htake
    | cons t' ts' =>
      rw [head, hahead]
      cases n with
      | zero => cases htake
      | succ n =>
        rw [hahead, List.take_succ_cons] at htake
        exact (List.cons.inj htake).1.symm
  have hcomments : ∀ l ∈ t.comments, l.kind = .comment := hhead ▸ hc.comments
  have hpieces := c.pieces_skip n
  rw [htake] at hpieces
  have hlast : u.toLexeme ∈ ((t :: ts).flatMap Token.pieces).getLast? := by
    rw [getLast?_pieces, Option.mem_def.1 hu]
    rfl
  have hsplit : (t :: ts).flatMap Token.pieces = t.comments ++ t.toLexeme :: ts.flatMap
      Token.pieces := by
    simp [Token.pieces]
  have hreaches := hc.behind hpieces (exists_isLexed_skip hc.lexed n) hlast
  obtain ⟨p, cs, hscanned⟩ := hc.scanned
  rw [hsplit, Lexeme.literals_append, Lexeme.literals_of_comments hcomments, List.nil_append]
    at hreaches
  rw [hsplit, List.getLast?_append, List.getLast?_eq_some_getLast (List.cons_ne_nil _ _),
    Option.some_or, ← List.getLast?_eq_some_getLast] at hlast
  rw [hpieces, hsplit, List.append_assoc] at hscanned
  have hmem : u ∈ c.ahead := List.mem_of_mem_take (htake ▸ List.mem_of_getLast? hu)
  exact ⟨hc.kind_of_mem hmem, hlast, hreaches, behindComments hscanned hcomments
    (List.cons_ne_nil _ _)⟩

theorem IsIn.segment_one (hc : c.IsIn .code) {s : Step 1 Token c} (hs : c.next? = some s) :
    c.Segment s.value [] s.value s.rest := by
  obtain ⟨hahead, hrest⟩ := next?_eq_some hs
  rw [hrest]
  exact hc.segment (by rw [hahead]; rfl) rfl

/-- Where a part can end before a cursor. -/
theorem IsIn.boundary (hc : c.IsIn mode) {l : Lexeme}
    (hout : modeAfter l.kind = .html → c.ahead = [] ∧ c.head.comments = [])
    (hword : l.kind = .word → c.head.kind ≠ .leftBrace) : Scan.Boundary [] l c.pieces := by
  refine ⟨fun hhtml => ?_, fun hkind m hm => ?_⟩
  · obtain ⟨hahead, hnil⟩ := hout hhtml
    rw [pieces_of_nil hahead, hnil]
    exact ⟨rfl, rfl⟩
  · obtain ⟨ls, hpieces, -⟩ := c.pieces_eq_append
    rw [hpieces] at hm
    cases hcomments : c.head.comments with
    | nil =>
      rw [hcomments] at hm
      rw [← Option.some.inj hm]
      exact hword hkind
    | cons x xs =>
      rw [hcomments] at hm
      rw [← Option.some.inj hm, hc.comments x (by rw [hcomments]; exact List.mem_cons_self)]
      decide

/-- The text of tokens that are read as one. -/
theorem Segment.isExcerpt {t u : Token} {ts : List Token} {c₁ : Cursor} (h : c.Segment t ts u c₁)
    (hout : modeAfter u.kind = .html → c₁.ahead = [] ∧ c₁.head.comments = [])
    (hword : u.kind = .word → c₁.head.kind ≠ .leftBrace) :
    ∃ kind ys, IsExcerpt (excerptOf (t :: ts)).toList kind ys ∧
      List.Forall₂ LosesReturns (Lexeme.literals (t.toLexeme :: ts.flatMap Token.pieces)) ys ∧
        modeAfter kind = modeAfter u.kind ∧ (u.kind ≠ .html → kind = u.kind) := by
  obtain ⟨q, cs, hscanned⟩ := h.scanned
  rw [excerptOf, String.toList_ofList]
  exact exists_isExcerpt hscanned c₁.pieces_ne_nil h.last (h.reaches.isIn.boundary hout hword)

/-- The only token of a segment stays the same elsewhere. -/
theorem Segment.isToken {t : Token} {c₁ : Cursor} (h : c.Segment t [] t c₁)
    (hmode : modeAfter t.kind = .code) (hword : t.kind = .word → c₁.head.kind ≠ .leftBrace) :
    Scan.IsToken t.kind t.text [] := by
  obtain ⟨q, cs, hscanned⟩ := h.scanned
  have hboundary : Scan.Boundary [] t.toLexeme c₁.pieces :=
    h.reaches.isIn.boundary (fun hhtml => by rw [hmode] at hhtml; cases hhtml) hword
  obtain ⟨e, -, -, hgap, hcut⟩ := hscanned.cutOff c₁.pieces_ne_nil fun x hx =>
    Option.some.inj hx ▸ hboundary
  obtain ⟨d, -, -, hx, hd⟩ := hcut.uncons (List.cons_ne_nil _ _)
  cases hd with
  | eof =>
    obtain rfl : d = [] := hgap
    exact Scan.begins_code_iff.1 hx
  | cons _ _ hnil => exact absurd rfl hnil.ne_nil

end Cursor

/-- The text is code that ends with a token, and it tells the literals. -/
def TokensTell (x : String) (xs : List (List Char)) : Prop :=
  ∃ kind ys, IsExcerpt x.toList kind ys ∧ List.Forall₂ LosesReturns xs ys ∧ modeAfter kind = .code ∧
    kind ≠ .comment ∧ kind ≠ .openTag

namespace TokensTell

variable {x : String} {xs : List (List Char)}

theorem reindent {margin : String} (h : TokensTell x xs)
    (hmargin : ∀ c ∈ margin.toList, isMargin c = true) :
    TokensTell (reindent margin x) xs := by
  obtain ⟨kind, ys, hexcerpt, hrest⟩ := h
  exact ⟨kind, ys, hexcerpt.reindent hmargin, hrest⟩

theorem tells (h : TokensTell x xs) : Tells .code .code AtSeparator x xs := by
  obtain ⟨kind, ys, hexcerpt, hys, hmode, hcomment, hopen⟩ := h
  refine ⟨ys, hys, fun follow zs hfollow hrest => ?_⟩
  exact hexcerpt.holds_atSeparator hcomment hmode (fun htag => absurd htag hopen) hfollow hrest

end TokensTell

/-- Tokens that are kept as text. -/
theorem Cursor.Segment.tells {c c₁ : Cursor} {t u : Token} {ts : List Token}
    (h : c.Segment t ts u c₁) (hmode : modeAfter u.kind = .code) (hopen : u.kind ≠ .openTag)
    (hword : u.kind = .word → c₁.head.kind ≠ .leftBrace) :
    TokensTell (excerptOf (t :: ts)) (Lexeme.literals (t.toLexeme :: ts.flatMap Token.pieces)) := by
  have hout : modeAfter u.kind = .html → c₁.ahead = [] ∧ c₁.head.comments = [] := by
    rw [hmode]
    nofun
  obtain ⟨kind, ys, hexcerpt, hys, -, hkind⟩ := h.isExcerpt hout hword
  obtain rfl := hkind (by rintro hhtml; rw [hhtml] at hmode; cases hmode)
  exact ⟨_, ys, hexcerpt, hys, hmode, h.kind, hopen⟩

def IsComment (x : String) : Prop := IsExcerpt x.toList .comment []

namespace IsComment

variable {x : String}

theorem reindent {margin : String} (h : IsComment x)
    (hmargin : ∀ c ∈ margin.toList, isMargin c = true) :
    IsComment (reindent margin x) :=
  IsExcerpt.reindent h hmargin

/-- A comment tells nothing at the end of a line. -/
theorem tells (h : IsComment x) : Tells .code .code AtLineEnd x [] :=
  .of_holds fun _ _ hfollow hrest => h.holds_atLineEnd hfollow hrest

end IsComment

/-- A comment before a token is still one when it is written on a line of its own. -/
theorem Cursor.IsIn.isComment {mode : Mode} {c : Cursor} (hc : c.IsIn mode) {l : Lexeme}
    (hl : l ∈ c.head.comments) :
    IsComment l.commentText := by
  have hkind := hc.comments l hl
  obtain ⟨p, cs, hscanned⟩ := hc.scanned
  obtain ⟨rest, hpieces, -⟩ := c.pieces_eq_append
  obtain ⟨before, behind, hcomments⟩ := List.append_of_mem hl
  have hparts : c.pieces = before ++ l :: (behind ++ c.head.toLexeme :: rest) := by
    simp [hpieces, hcomments]
  obtain ⟨q, d, hl'⟩ : ∃ q d, Scanned .code q d (l :: (behind ++ c.head.toLexeme :: rest)) := by
    cases mode with
    | html =>
      rw [(outside_of_scanned hscanned hc.lexed).1] at hl
      cases hl
    | code =>
      rw [hparts] at hscanned
      exact behindComments hscanned (fun m hm => hc.comments m (by simp [hcomments, hm]))
        (List.cons_ne_nil _ _)
  have hend : Scan.Boundary [] l (behind ++ c.head.toLexeme :: rest) := .of_comment hkind
  have hscanned' : Scanned .code q d ([l] ++ (behind ++ c.head.toLexeme :: rest)) := hl'
  have hlast : l ∈ [l].getLast? := rfl
  obtain ⟨kind, ys, hexcerpt, hys, -, hsame⟩ := exists_isExcerpt hscanned' (by simp) hlast hend
  obtain rfl := hsame (by rw [hkind]; decide)
  rw [Lexeme.literals_of_comments (by simpa using hkind), List.forall₂_nil_left_iff] at hys
  rw [hkind, hys] at hexcerpt
  rw [IsComment, Lexeme.commentText, String.toList_ofList]
  exact hexcerpt

theorem Cursor.IsIn.isComment_texts {mode : Mode} {c : Cursor} (hc : c.IsIn mode) :
    ∀ x ∈ Expr.commentTexts c.head.comments, IsComment x := by
  intro x hx
  obtain ⟨l, hl, rfl⟩ := List.mem_map.1 hx
  exact hc.isComment hl

theorem Cursor.IsIn.isComment_sameLine {mode : Mode} {c : Cursor} (hc : c.IsIn mode) :
    ∀ x ∈ c.sameLineComment.value.map Lexeme.commentText, IsComment x := by
  intro x hx
  obtain ⟨l, hl, rfl⟩ := Option.map_eq_some_iff.1 hx
  exact hc.isComment (hc.sameLineComment.2 l hl)

def IsIndent (margin : String) : Prop := ∀ c ∈ margin.toList, isMargin c = true

instance (margin : String) : Decidable (IsIndent margin) :=
  inferInstanceAs (Decidable (∀ c ∈ margin.toList, isMargin c = true))

namespace IsIndent

variable {margin indent : String}

theorem append (hmargin : IsIndent margin) (hindent : IsIndent indent) :
    IsIndent (margin ++ indent) := by
  intro c hc
  rw [String.toList_append] at hc
  exact (List.mem_append.1 hc).elim (hmargin c) (hindent c)

theorem tells (h : IsIndent margin) : Tells .code .code Anything margin [] :=
  .blank fun c hc => isBlank_of_isMargin (h c hc)

end IsIndent

section Lists

variable {mode : Mode} {ends : List Char → Prop} {texts : List String}
  {xss : List (List (List Char))}

theorem tells_newline : Tells .code .code Anything "\n" [] := .separator (c := '\n') (by decide)

theorem tells_space : Tells .code .code Anything " " [] := .separator (c := ' ') (by decide)

theorem tells_ampersand :
    Tells .code .code Anything "&" [] := .of_holds fun _ _ _ hrest => hrest.ampersand

theorem tells_ellipsis : Tells .code .code Anything "..." [] := .mark Scan.isToken_ellipsis rfl rfl

/-- Texts one after the other, each of which may stand behind any. -/
theorem Tells.join (h : List.Forall₂ (Tells .code .code ends) texts xss)
    (hends : ∀ x ∈ texts, Keeps ends x) :
    Tells .code .code ends (String.join texts) xss.flatten := by
  induction h with
  | nil => exact .nil .code ends
  | @cons x xs texts xss hx _ ih =>
    obtain ⟨-, hrest⟩ := List.forall_mem_cons.1 hends
    rw [String.join_cons, List.flatten_cons]
    exact hx.append (ih hrest) (Keeps.join hrest)

/-- Texts with commas between them tell their literals one after the other. -/
theorem Tells.commaList (h : List.Forall₂ (Tells .code .code AtSeparator) texts xss) :
    Tells .code .code AtSeparator (commaList texts) xss.flatten := by
  induction h with
  | nil => exact .nil .code _
  | @cons x xs texts xss hx h ih =>
    cases h with
    | nil => simpa [ClassEdit.commaList] using hx
    | @cons y ys texts xss hy h =>
      have hcomma : ClassEdit.commaList (x :: y :: texts) = x ++
          ("," ++ (" " ++ ClassEdit.commaList (y :: texts))) := by
        rw [← String.toList_inj, toList_commaList_cons (List.cons_ne_nil _ _)]
        simp
      have hrest := (Tells.separator (c := ',') (by decide)).before (tells_space.before ih)
      rw [hcomma, List.flatten_cons]
      exact hx.append_opens hrest ((Opens.separator (c := ',') (by decide)).append _)

theorem linesAt_cons (margin x : String) (texts : List String) :
    Expr.linesAt margin (x :: texts) = "\n" ++ margin ++ x ++ Expr.linesAt margin texts := by
  simp only [Expr.linesAt, List.map_cons, String.join_cons]

theorem keeps_linesAt (margin : String) (texts : List String) :
    Keeps AtLineEnd (Expr.linesAt margin texts) := by
  refine Keeps.join fun x hx => ?_
  obtain ⟨text, -, rfl⟩ := List.mem_map.1 hx
  exact ((Opens.newline.append _).append _).keeps

/-- Comments on lines of their own. -/
theorem tells_linesAt {margin : String} (hmargin : IsIndent margin) (h : ∀ x ∈ texts, IsComment x) :
    Tells .code .code AtLineEnd (Expr.linesAt margin (texts.map (reindent margin))) [] := by
  induction texts with
  | nil => exact .nil .code _
  | cons x texts ih =>
    obtain ⟨hx, hrest⟩ := List.forall_mem_cons.1 h
    have hline := (tells_newline.before hmargin.tells).before (hx.reindent hmargin).tells
    rw [List.map_cons, linesAt_cons]
    exact hline.append (ih hrest) (keeps_linesAt _ _)

end Lists

end ClassEdit
