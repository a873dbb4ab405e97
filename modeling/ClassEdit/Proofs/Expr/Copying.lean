import ClassEdit.Proofs.Copying

/-!
Literals in expressions. A string is written as it was spelled, other expressions from
their text. Main statement: the text of an expression that was read tells the literals that
stand where it was read.
-/

namespace ClassEdit

open Scan (Scanned AtSeparator IsCalm modeAfter)

/-- What was read stands between two cursors in code, and is related to the literals there. -/
def Copied {k : Nat} {α : Type} {c : Cursor} (P : α → List (List Char) → Prop) (s : Step k α c) :
    Prop :=
  ∃ xs, c.Reaches xs .code s.rest ∧ P s.value xs

namespace Expr

def TellsAs (layout : Layout) (e : Expr) (xs : List (List Char)) : Prop :=
  ∀ margin, IsIndent margin → Tells .code .code AtSeparator (e.text layout margin) xs

section Raw

/-- Only a tag or text outside of the tags leaves the code. -/
theorem modeAfter_of_endsExpr {k : TokenKind} (h : k.endsExpr = false) (hhtml : k ≠ .html) :
    modeAfter k = .code := by
  cases k with
  | html => exact absurd rfl hhtml
  | closeTag => cases h
  | _ => rfl

theorem inside_of_isCloser {k : TokenKind} (h : k.isCloser = true) :
    modeAfter k = .code ∧ k ≠ .openTag ∧ k ≠ .leftBrace := by
  cases k with
  | rightParen | rightBrace | rightBracket => exact ⟨rfl, nofun, nofun⟩
  | _ => cases h

theorem ne_leftBrace_of_ends {k : TokenKind} (h : k.endsExpr = true ∨ k.isCloser = true) :
    k ≠ .leftBrace := by
  rintro rfl
  rcases h with h | h <;> cases h

variable {eof : Token} {closers : List TokenKind} {ts : List Token} {n : Nat}
  {mode : Mode} {p : Position}
  {cs : List Char} {behind : List Lexeme}

/-- A token ends an expression, or it is one of its tokens. Behind a token that leaves no bracket
open stands a bracket that closes, or the token was inside of none. -/
theorem rawLength_cons {t : Token} (h : rawLength eof closers (t :: ts) = .ok n) :
    (n = 0 ∧ closers = [] ∧ (t.kind.endsExpr = true ∨ t.kind.isCloser = true)) ∨
      ∃ m closers', n = m + 1 ∧ rawLength eof closers' ts = .ok m ∧
        (closers' = [] → t.kind.isCloser = true ∨ (closers = [] ∧ t.kind.endsExpr = false)) := by
  unfold rawLength at h
  split at h
  next hends =>
    cases h
    obtain ⟨hnil, hends⟩ := Bool.and_eq_true_iff.1 hends
    exact .inl ⟨rfl, List.isEmpty_iff.1 hnil, .inl hends⟩
  next hends =>
    split at h
    next closer _ =>
      obtain ⟨m, hm, rfl⟩ := Scan.map_eq_ok h
      exact .inr ⟨m, _, rfl, hm, fun hnil => absurd hnil (List.cons_ne_nil _ _)⟩
    next =>
      split at h
      next =>
        obtain ⟨m, hm, rfl⟩ := Scan.map_eq_ok h
        refine .inr ⟨m, closers, rfl, hm, fun hnil => .inr ⟨hnil, ?_⟩⟩
        rw [hnil] at hends
        simpa using hends
      next hcloser =>
        have hcloser : t.kind.isCloser = true := by simpa using hcloser
        split at h
        next =>
          cases h
          exact .inl ⟨rfl, rfl, .inr hcloser⟩
        next =>
          split at h
          next => cases h
          next =>
            obtain ⟨m, hm, rfl⟩ := Scan.map_eq_ok h
            exact .inr ⟨m, _, rfl, hm, fun _ => .inl hcloser⟩

/-- Where no token is taken, no bracket is open. -/
theorem rawLength_eq_zero (h : rawLength eof closers ts = .ok n) (hnone : ts.take n = []) :
    closers = [] := by
  cases ts with
  | nil =>
    unfold rawLength at h
    split at h
    next hnil => exact List.isEmpty_iff.1 hnil
    next => cases h
  | cons t ts =>
    rcases rawLength_cons h with ⟨-, hnil, -⟩ | ⟨m, closers', rfl, -⟩
    · exact hnil
    · cases hnone

/-- In code a token is no tag that opens the code, and no text outside of it. -/
theorem kind_of_scanned {t : Token} {ls : List Lexeme}
    (h : Scanned .code p cs (t.comments ++ t.toLexeme :: ls))
    (hcomments : ∀ l ∈ t.comments, l.kind = .comment) (hls : ls ≠ []) :
    t.kind ≠ .html ∧ t.kind ≠ .openTag := by
  obtain ⟨q, d, hd⟩ := Cursor.behindComments h hcomments (List.cons_ne_nil _ _)
  obtain ⟨r, -, -, hbegins, -⟩ := hd.uncons hls
  have htoken := Scan.begins_code_iff.1 hbegins
  exact ⟨htoken.kind_ne_html, htoken.kind_ne_openTag⟩

/-- An expression ends inside of the tags, and before no brace. -/
theorem rawLength_ends (h : rawLength eof closers ts = .ok n)
    (hscanned : Scanned mode p cs (ts.flatMap Token.pieces ++ behind)) (hbehind : behind ≠ [])
    (hcomments : ∀ t ∈ ts, ∀ l ∈ t.comments, l.kind = .comment)
    (hmode : closers = [] → mode = .code) :
    (∀ u ∈ (ts.take n).getLast?, modeAfter u.kind = .code ∧ u.kind ≠ .openTag) ∧
      ∀ t ∈ (ts.drop n).head?, t.kind ≠ .leftBrace := by
  induction ts generalizing closers n mode p cs with
  | nil => simp
  | cons t ts ih =>
    obtain ⟨ht, hts⟩ := List.forall_mem_cons.1 hcomments
    have hrestNe : ts.flatMap Token.pieces ++ behind ≠ [] := by simp [hbehind]
    rcases rawLength_cons h with ⟨rfl, -, hends⟩ | ⟨m, closers', rfl, hm, hopen⟩
    · refine ⟨by simp, fun u hu => ?_⟩
      obtain rfl := Option.some.inj hu
      exact ne_leftBrace_of_ends hends
    · have htoken (hnil : closers' = []) : modeAfter t.kind = .code ∧ t.kind ≠ .openTag := by
        rcases hopen hnil with hcloser | ⟨hnone, hends⟩
        · obtain ⟨hcode, htag, -⟩ := inside_of_isCloser hcloser
          exact ⟨hcode, htag⟩
        · have hsplit : (t :: ts).flatMap Token.pieces ++ behind =
              t.comments ++ t.toLexeme :: (ts.flatMap Token.pieces ++ behind) := by
            simp [Token.pieces]
          obtain rfl := hmode hnone
          rw [hsplit] at hscanned
          obtain ⟨hhtml, htag⟩ := kind_of_scanned hscanned ht hrestNe
          exact ⟨modeAfter_of_endsExpr hends hhtml, htag⟩
      obtain ⟨q, d, hd⟩ : ∃ q d, Scanned (modeAfter t.kind) q d
        (ts.flatMap Token.pieces ++ behind) := by
        have hconcat : (t :: ts).flatMap Token.pieces ++ behind =
            (t.comments ++ [t.toLexeme]) ++ (ts.flatMap Token.pieces ++ behind) := by
          simp [Token.pieces]
        rw [hconcat] at hscanned
        exact hscanned.behind hrestNe (List.getLast?_concat)
      obtain ⟨hlast, hhead⟩ := ih hm hd hts fun hnil => (htoken hnil).1
      refine ⟨fun u hu => ?_, hhead⟩
      rw [List.take_succ_cons, List.getLast?_cons] at hu
      cases htake : (ts.take m).getLast? with
      | some v =>
        rw [htake] at hu
        exact Option.some.inj hu ▸ hlast v htake
      | none =>
        rw [htake] at hu
        obtain rfl : t = u := Option.some.inj hu
        exact htoken (rawLength_eq_zero hm (List.getLast?_eq_none_iff.1 htake))

end Raw

section Reading

variable {layout : Layout} {c : Cursor}

/-- An expression that is kept as text is written with the literals in it. -/
theorem readRaw_copied (hc : c.IsIn .code) {s : Step 1 Expr c} (hs : readRaw c = .ok s) :
    Copied (TellsAs layout) s := by
  unfold readRaw at hs
  obtain ⟨n, hn, hs⟩ := bind_eq_ok.1 hs
  by_cases hzero : n = 0
  · rw [if_pos hzero] at hs
    cases hs
  obtain ⟨n, rfl⟩ := Nat.exists_eq_succ_of_ne_zero hzero
  rw [if_neg hzero, Nat.succ_sub_one] at hs
  split at hs
  next taken htaken =>
    cases hs
    have hahead : c.ahead ≠ [] := by
      intro hnil
      rw [hnil] at hn
      cases hn
    obtain ⟨taken', htaken', hvalue, hrest⟩ := c.exists_takeMore? hahead n
    obtain rfl := Option.some.inj (htaken.symm.trans htaken')
    obtain ⟨t, ts, hts⟩ := List.exists_cons_of_ne_nil (fun hnil => hahead
      ((List.take_eq_nil_iff.1 hnil).resolve_left (Nat.succ_ne_zero n)) : c.ahead.take (n + 1) ≠ [])
    have hlast := List.getLast?_eq_some_getLast (List.cons_ne_nil t ts)
    have hsegment := hc.segment hts hlast
    obtain ⟨p, cs, hscanned⟩ := hc.scanned
    rw [c.pieces_eq] at hscanned
    obtain ⟨hends, hnext⟩ := rawLength_ends hn hscanned (by simp [Token.pieces])
      (fun t ht => hc.comments_of_mem ht)
      fun _ => rfl
    rw [hts] at hends
    obtain ⟨hmode, hopen⟩ := hends _ hlast
    have hreaches := hsegment.reaches
    rw [hmode] at hreaches
    refine ⟨_, hrest ▸ hreaches, fun margin hmargin => ?_⟩
    rw [Step.map, hvalue, hts, text]
    have hword := hreaches.isIn.kind_head (by decide) hnext
    exact ((hsegment.tells hmode hopen fun _ => hword).reindent hmargin).tells
  next => cases hs

/-- A single token is written as it was spelled. -/
theorem tells_token {t : Token} {c₁ : Cursor} (h : c.Segment t [] t c₁)
    (hmode : modeAfter t.kind = .code) (hword : t.kind = .word → c₁.head.kind ≠ .leftBrace) :
    Tells .code .code AtSeparator t.string (Lexeme.literals [t.toLexeme]) := by
  refine ⟨_, List.forall₂_same.2 fun x _ => .refl x, fun follow zs hfollow hrest => ?_⟩
  have htoken := (h.isToken hmode hword).append (fun _ => h.kind) hfollow
  rw [← hmode] at hrest
  have hlexeme := hrest.lexeme (Scan.begins_code_iff.2 htoken)
  rw [Lexeme.string, String.toList_ofList, Lexeme.literals_cons, Lexeme.literals_nil,
    List.append_nil]
  exact hlexeme

theorem readsAs_token {s : Step 1 Token c} {e : Expr} (hc : c.IsIn .code) (hs : c.next? = some s)
    (hmode : modeAfter s.value.kind = .code) (hword : s.value.kind = .word →
      s.rest.head.kind ≠ .leftBrace)
    (he : ∀ margin, e.text layout margin = s.value.string) :
    Copied (TellsAs layout) (⟨e, s.rest, s.progress⟩ : Step 1 Expr c) := by
  have hsegment := hc.segment_one hs
  have hreaches := hsegment.reaches
  rw [hmode] at hreaches
  refine ⟨_, hreaches, fun margin _ => ?_⟩
  rw [he margin]
  exact tells_token hsegment hmode hword

theorem ne_leftBrace_of_endsExpr {k : TokenKind} (h : k.endsExpr = true) : k ≠ .leftBrace := by
  rintro rfl
  cases h

theorem negated?_eq_some {u : Token} {e : Expr} (h : negated? u = some e) :
    (u.kind = .int ∨ u.kind = .float) ∧ ∀ margin, e.text layout margin = "-" ++ u.string := by
  unfold negated? at h
  split at h
  next hkind =>
    obtain ⟨n, -, rfl⟩ := Option.map_eq_some_iff.1 h
    exact ⟨.inl hkind, fun _ => by rw [text]; rfl⟩
  next hkind =>
    obtain rfl := Option.some.inj h
    exact ⟨.inr hkind, fun _ => by rw [text]; rfl⟩
  next => cases h

/-- Behind a sign a number is one. -/
theorem tells_negated {u : Token} {c₁ : Cursor} (h : c.Segment u [] u c₁)
    (hu : u.kind = .int ∨ u.kind = .float) :
    Tells .code .code AtSeparator ("-" ++ u.string) (Lexeme.literals [u.toLexeme]) := by
  have hmode : modeAfter u.kind = .code := by rcases hu with hu | hu <;> rw [hu] <;> rfl
  have hword : u.kind = .word → c₁.head.kind ≠ .leftBrace := by
    rcases hu with hu | hu <;> rw [hu] <;> nofun
  obtain ⟨ch, t, htext, hch⟩ := (h.isToken hmode hword).exists_digit hu
  obtain ⟨ys, hys, hnumber⟩ := tells_token h hmode hword
  refine ⟨ys, hys, fun follow zs hfollow hrest => ?_⟩
  have hnext := hnumber follow zs hfollow hrest
  have hsign : Scan.IsToken .minus ['-'] (u.string.toList ++ follow) := by
    refine Scan.isToken_minus fun d hd => ?_
    rw [Lexeme.string, String.toList_ofList, htext] at hd
    obtain rfl := Option.some.inj hd
    rcases hch with hch | rfl
    · refine ⟨?_, ?_, ?_⟩ <;> rintro rfl <;> cases hch
    · decide
  rw [String.toList_append, List.append_assoc]
  exact hnext.token hsign rfl rfl

/-- A number, a string or a constant is written as it was spelled. -/
theorem scalar?_copied (hc : c.IsIn .code) {s : Step 1 Expr c} (hs : scalar? c = some s)
    (hends : s.rest.head.kind.endsExpr = true) : Copied (TellsAs layout) s := by
  unfold scalar? at hs
  split at hs
  next => cases hs
  next t c₁ h₁ hnext =>
    have htoken {e : Expr} (hmode : modeAfter t.kind = .code) (hs : s = ⟨e, c₁, h₁⟩)
        (he : ∀ margin, e.text layout margin = t.string) : Copied (TellsAs layout) s := by
      subst hs
      exact readsAs_token hc hnext hmode (fun _ => ne_leftBrace_of_endsExpr hends) he
    dsimp only at hs
    split at hs
    next hkind =>
      split at hs
      next => cases hs
      next => exact htoken (by rw [hkind]; rfl) (Option.some.inj hs).symm fun _ => by rw [text]; rfl
    next hkind =>
      obtain ⟨n, -, hs⟩ := Option.map_eq_some_iff.1 hs
      exact htoken (by rw [hkind]; rfl) hs.symm fun _ => by rw [text]; rfl
    next hkind =>
      exact htoken (by rw [hkind]; rfl) (Option.some.inj hs).symm fun _ => by rw [text]; rfl
    next hkind => exact htoken (by rw [hkind]; rfl) (Option.some.inj hs).symm fun _ => by rw [text]
    next hkind =>
      obtain ⟨⟨u, c₂, h₂⟩, hu, hs⟩ := Option.bind_eq_some_iff.1 hs
      obtain ⟨e, he, rfl⟩ := Option.map_eq_some_iff.1 hs
      obtain ⟨hunsigned, htext⟩ : _ ∧ ∀ margin, e.text layout margin = _ := negated?_eq_some he
      have hreaches := (hc.next? hnext (by rw [hkind]; rfl)).1
      rw [hkind] at hreaches
      have hsegment := hreaches.isIn.segment_one hu
      have hbehind := hsegment.reaches
      have hmode : modeAfter u.kind = .code := by rcases hunsigned with hu | hu <;> rw [hu] <;> rfl
      rw [hmode] at hbehind
      refine ⟨_, hreaches.trans hbehind, fun margin _ => ?_⟩
      rw [List.nil_append]
      exact htext margin ▸ tells_negated hsegment hunsigned
    next => cases hs

end Reading

section Arrays

variable {layout : Layout} {items : List ArrayItem} {item : ArrayItem} {xs ks : List (List Char)}
  {xss : List (List (List Char))} {margin : String}

/-- The text of the item tells the literals, and its comments are comments. -/
structure ItemTells (layout : Layout) (item : ArrayItem) (xs : List (List Char)) : Prop where
  comments : ∀ x ∈ item.comments, IsComment x
  trailing : ∀ x ∈ item.trailing, IsComment x
  text : ∀ margin, IsIndent margin → Tells .code .code AtSeparator (itemText layout margin item) xs

theorem tells_arrow : Tells .code .code Anything " => " [] :=
  .of_holds fun follow zs _ hrest => by
    have harrow := (hrest.separator (c := ' ') (by decide)).token
      (Scan.isToken_arrow (' ' :: follow)) rfl rfl
    simpa using harrow.separator (c := ' ') (by decide)

theorem opens_arrow : Opens AtSeparator " => " := by
  intro follow
  simpa using Scan.atSeparator_cons (c := ' ') (by decide) _

/-- An item tells the literals of its key and behind them those of its value. -/
theorem tells_itemText (hkey : ∀ k ∈ item.key, TellsAs layout k ks)
    (hnone : item.key = none → ks = []) (hvalue : TellsAs layout item.value xs)
    (hmargin : IsIndent margin) :
    Tells .code .code AtSeparator (itemText layout margin item) (ks ++ xs) := by
  obtain ⟨_, key, value, byRef, spread, _⟩ := item
  have hspread := Tells.optional spread tells_ellipsis
  have hbehind := (Tells.optional byRef tells_ampersand).before (hvalue margin hmargin)
  cases key with
  | none =>
    obtain rfl := hnone rfl
    rw [itemText, String.append_empty, String.append_assoc]
    exact hspread.before hbehind
  | some k =>
    have hpair := ((hkey k rfl margin hmargin).append_opens tells_arrow opens_arrow).before hbehind
    rw [List.append_nil] at hpair
    rw [itemText, String.append_assoc, String.append_assoc]
    exact hspread.before hpair

/-- The comment behind a comma. -/
theorem tells_trailing {trailing : Option String} (h : ∀ x ∈ trailing, IsComment x) :
    Tells .code .code AtLineEnd (trailing.elim "" fun c => " " ++ c) [] := by
  cases trailing with
  | none => exact .nil .code _
  | some x => exact tells_space.before (h x rfl).tells

theorem keeps_itemLines (items : List ArrayItem) :
    Keeps AtLineEnd (itemLines layout margin items) := by
  induction items with
  | nil => exact .nil _
  | cons item items ih =>
    have hline := Opens.newline.behind (keeps_linesAt margin (item.comments.map (reindent margin)))
    rw [itemLines]
    exact (((((hline.append _).append _).append _).append _).append _).keeps

theorem ItemTells.withComments (h : ItemTells layout item xs) {comments : List String}
    {trailing : Option String} (hcomments : ∀ x ∈ comments, IsComment x)
    (htrailing : ∀ x ∈ trailing, IsComment x) :
    ItemTells layout { item with comments, trailing } xs := by
  refine ⟨hcomments, htrailing, fun margin hmargin => ?_⟩
  have htext := h.text margin hmargin
  obtain ⟨_, key, value, byRef, spread, _⟩ := item
  cases key <;> exact htext

/-- Items on lines of their own tell their literals in order; the comments between them have
none. -/
theorem tells_itemLines (h : List.Forall₂ (ItemTells layout) items xss)
    (hmargin : IsIndent margin) :
    Tells .code .code AtLineEnd (itemLines layout margin items) xss.flatten := by
  induction h with
  | nil => exact .nil .code _
  | @cons item xs items xss hitem _ ih =>
    have hline := (tells_linesAt hmargin hitem.comments).append_opens tells_newline Opens.newline
    have hitemText := (hline.before hmargin.tells).before (hitem.text margin hmargin)
    have hcomma := hitemText.append_opens (.separator (c := ',') (by decide))
      (.separator (by decide))
    have hall := (hcomma.before (tells_trailing hitem.trailing)).append ih (keeps_itemLines items)
    rw [List.append_nil, List.append_nil] at hall
    rw [itemLines, List.flatten_cons]
    exact hall

theorem forall₂_itemTexts (h : List.Forall₂ (ItemTells layout) items xss)
    (hmargin : IsIndent margin) :
    List.Forall₂ (Tells .code .code AtSeparator) (itemTexts layout margin items) xss := by
  induction h with
  | nil => exact .nil
  | cons hitem _ ih => exact .cons (hitem.text margin hmargin) ih

/-- An array tells the literals of its items, in both layouts. -/
theorem tells_array {literal : ArrayLiteral} (hlayout : IsIndent layout.indent)
    (h : List.Forall₂ (ItemTells layout) literal.items xss)
    (hclosing : ∀ x ∈ literal.closingComments, IsComment x) :
    TellsAs layout (.array literal) xss.flatten := by
  intro margin hmargin
  obtain ⟨items, long, multiline, closing⟩ := literal
  have hopening : Tells .code .code Anything (if long then "array(" else "[") [] := by
    cases long with
    | true =>
      have hword : IsCalm "array" := by decide
      exact .calm_separator (c := '(') hword (by decide)
    | false => exact .mark Scan.isToken_leftBracket rfl rfl
  have hcloser : Tells .code .code Anything (if long then ")" else "]") [] := by
    cases long with
    | true => exact .separator (c := ')') (by decide)
    | false => exact .separator (c := ']') (by decide)
  have hends : Opens AtSeparator (if long then ")" else "]") := by
    cases long with
    | true => exact .separator (c := ')') (by decide)
    | false => exact .separator (c := ']') (by decide)
  rw [text, arrayText]
  split
  next =>
    have hinner := hmargin.append hlayout
    have hlines := hopening.before (tells_itemLines h hinner)
    have hbehind := hlines.append (tells_linesAt hinner hclosing) (keeps_linesAt _ _)
    have hall :=
      ((hbehind.append_opens tells_newline Opens.newline).before hmargin.tells).before hcloser
    simp only [List.nil_append, List.append_nil] at hall
    exact hall.mono fun _ _ => trivial
  next =>
    have hall :=
      (hopening.before (Tells.commaList (forall₂_itemTexts h hmargin))).append_opens hcloser hends
    rw [List.nil_append, List.append_nil] at hall
    exact hall.mono fun _ _ => trivial

end Arrays

section Reading

variable {layout : Layout}

theorem arrayOpening?_reaches {c : Cursor} (hc : c.IsIn .code) {s : Step 1 (TokenKind × Bool) c}
    (hs : arrayOpening? c = some s) :
    c.Reaches [] .code s.rest ∧ modeAfter s.value.1 = .code ∧ s.value.1.isLiteral = false := by
  unfold arrayOpening? at hs
  split at hs
  next htake =>
    cases hs
    exact ⟨(hc.take? htake rfl).1, rfl, rfl⟩
  next =>
    obtain ⟨⟨t, c₁, h₁⟩, hword, hs⟩ := Option.bind_eq_some_iff.1 hs
    obtain ⟨⟨u, c₂, h₂⟩, hparen, rfl⟩ := Option.map_eq_some_iff.1 hs
    have hreaches := hc.takeWord? hword
    exact ⟨hreaches.trans (hreaches.isIn.take? hparen rfl).1, rfl, rfl⟩

mutual

/-- An expression is written with the literals that stand where it was read. -/
theorem read_copied (hlayout : IsIndent layout.indent) {c : Cursor} (hc : c.IsIn .code)
    {s : Step 1 Expr c} (hs : read c = .ok s) : Copied (TellsAs layout) s := by
  rw [read] at hs
  obtain ⟨found, hfound, hs⟩ := bind_eq_ok.1 hs
  split at hs
  next e c' h =>
    split at hs
    next hends =>
      cases hs
      exact readLiteral_copied hlayout hc hfound hends
    next => exact readRaw_copied hc hs
  next => exact readRaw_copied hc hs
termination_by 4 * c.size + 1

/-- A literal expression is written with its literals if it is all that there is. -/
theorem readLiteral_copied (hlayout : IsIndent layout.indent) {c : Cursor} (hc : c.IsIn .code)
    {s : Step 1 Expr c} (hs : readLiteral c = .ok (some s))
    (hends : s.rest.head.kind.endsExpr = true) : Copied (TellsAs layout) s := by
  rw [readLiteral] at hs
  split at hs
  next => exact scalar?_copied hc (Except.ok.inj hs) hends
  next closer long c₁ h₁ hopening =>
    obtain ⟨⟨⟨items, closing⟩, c₂, h₂⟩, hitems, hs⟩ := bind_eq_ok.1 hs
    cases hs
    obtain ⟨hreaches, hmode, hliteral⟩ := arrayOpening?_reaches hc hopening
    obtain ⟨xss, hrest, htell, hclosing⟩ :=
      readItems_copied hlayout closer hmode hliteral hreaches.isIn hitems
    exact ⟨xss.flatten, hreaches.trans hrest, tells_array hlayout htell hclosing⟩
termination_by 4 * c.size + 0

/-- The literals of the items follow one another, and what is behind the last item is comments. -/
theorem readItems_copied (hlayout : IsIndent layout.indent) (closer : TokenKind)
    (hmode : modeAfter closer = .code) (hliteral : closer.isLiteral = false) {c : Cursor}
    (hc : c.IsIn .code) {s : Step 1 (List ArrayItem × List String) c}
    (hs : readItems closer c = .ok s) :
    ∃ xss, c.Reaches xss.flatten .code s.rest ∧ List.Forall₂ (ItemTells layout) s.value.1 xss ∧
      ∀ x ∈ s.value.2, IsComment x := by
  rw [readItems] at hs
  split at hs
  next htake =>
    cases hs
    have hreaches := (hc.take? htake hliteral).1
    rw [hmode] at hreaches
    exact ⟨[], hreaches, .nil, hc.isComment_texts⟩
  next =>
    split at hs
    next => cases hs
    next =>
      obtain ⟨⟨item, c₁, h₁⟩, hitem, hs⟩ := bind_eq_ok.1 hs
      obtain ⟨xs, hreaches, htell⟩ := readItem_copied hlayout hc hitem
      dsimp only at hs
      split at hs
      next _ c₂ h₂ hcomma =>
        have h₃ := c₂.sameLineComment.progress
        obtain ⟨⟨⟨items, closing⟩, c₄, h₄⟩, hitems, hs⟩ := bind_eq_ok.1 hs
        cases hs
        have hreaches₂ := hreaches.trans (hreaches.isIn.take? hcomma rfl).1
        obtain ⟨hbehind, hcomment⟩ := hreaches₂.isIn.sameLineComment
        obtain ⟨xss, hrest, htells, hclosing⟩ :=
          readItems_copied hlayout closer hmode hliteral hbehind.isIn hitems
        have hall := (hreaches₂.trans hbehind).trans hrest
        rw [List.append_nil, List.append_nil] at hall
        have hitem' := htell.withComments hc.isComment_texts hreaches₂.isIn.isComment_sameLine
        exact ⟨xs :: xss, hall, .cons hitem' htells, hclosing⟩
      next =>
        obtain ⟨⟨t, c₂, h₂⟩, hcloser, hs⟩ := bind_eq_ok.1 hs
        cases hs
        have hall := hreaches.trans (hreaches.isIn.take hcloser hliteral)
        rw [hmode] at hall
        have hitem' := htell.withComments hc.isComment_texts htell.trailing
        exact ⟨[xs], hall, .cons hitem' .nil, hreaches.isIn.isComment_texts⟩
termination_by 4 * c.size + 3

/-- An item tells the literals of its key and of its value, in this order. -/
theorem readItem_copied (hlayout : IsIndent layout.indent) {c : Cursor} (hc : c.IsIn .code)
    {s : Step 1 ArrayItem c} (hs : readItem c = .ok s) : Copied (ItemTells layout) s := by
  rw [readItem] at hs
  split at hs
  next _ c₁ h₁ htake =>
    obtain ⟨⟨value, c₂, h₂⟩, hvalue, hs⟩ := bind_eq_ok.1 hs
    cases hs
    have hreaches := (hc.take? htake rfl).1
    obtain ⟨xs, hrest, htell⟩ := read_copied hlayout hreaches.isIn hvalue
    refine ⟨xs, hreaches.trans hrest, nofun, nofun, fun margin hmargin => ?_⟩
    have hkey : ∀ k ∈ (none : Option Expr), TellsAs layout k [] := nofun
    exact tells_itemText hkey (fun _ => rfl) htell hmargin
  next =>
    have hreaches := hc.accept (k := .ampersand) rfl rfl
    have h₁ := (c.accept .ampersand).progress
    dsimp only at hs
    obtain ⟨⟨first, c₂, h₂⟩, hfirst, hs⟩ := bind_eq_ok.1 hs
    obtain ⟨xs, hrest, htell⟩ := read_copied hlayout hreaches.isIn hfirst
    dsimp only at hs
    split at hs
    next t c₃ h₃ harrow =>
      have harrow : c₂.take? .arrow = some ⟨t, c₃, h₃⟩ := by
        split at harrow
        next => cases harrow
        next => exact harrow
      have h₄ := (c₃.accept .ampersand).progress
      have hreaches₃ := (hreaches.trans hrest).trans (hrest.isIn.take? harrow rfl).1
      have hreaches₄ := hreaches₃.trans (hreaches₃.isIn.accept (k := .ampersand) rfl rfl)
      obtain ⟨⟨value, c₅, h₅⟩, hvalue, hs⟩ := bind_eq_ok.1 hs
      cases hs
      obtain ⟨ys, hbehind, htells⟩ := read_copied hlayout hreaches₄.isIn hvalue
      refine ⟨xs ++ ys, ?_, nofun, nofun, fun margin hmargin => ?_⟩
      · simpa using hreaches₄.trans hbehind
      · exact tells_itemText (fun k hk => Option.some.inj hk ▸ htell) nofun htells hmargin
    next =>
      cases hs
      refine ⟨xs, hreaches.trans hrest, nofun, nofun, fun margin hmargin => ?_⟩
      have hkey : ∀ k ∈ (none : Option Expr), TellsAs layout k [] := nofun
      exact tells_itemText hkey (fun _ => rfl) htell hmargin
termination_by 4 * c.size + 2

end

end Reading

end Expr

end ClassEdit
