import ClassEdit.Proofs.Expr.Reading

/-!
Arrays of literals are read as they are written, on one line or with one item on a line. Main
statement: every literal that was made is read as this literal with the spelling it was written in.
-/

namespace ClassEdit.Expr

open Scan (Stops)

variable {layout : Layout} {margin : String}

theorem endsExpr_closer (long : Bool) :
    (closer long).1.endsExpr = true ∧ (closer long).1 ≠ .arrow ∧ (closer long).1 ≠ .comma := by
  cases long <;> decide

theorem stops_closer (long : Bool) (follow : List Char) :
    Stops ((closer long).2.toList ++ follow) := by
  cases long <;> exact Scan.stops_cons.2 (by decide)

theorem IsItemFirst.kind_ne_closer {t : Token} (h : IsItemFirst t) (long : Bool) :
    t.kind ≠ (closer long).1 := by
  rcases h with h | h | h
  · cases long <;> simp [h, closer]
  · cases long <;> simp [h, closer]
  · cases long
    · exact h.kind_ne.2.2.2
    · exact h.kind_ne.2.2.1

/-- An item keeps no comments of its own. -/
theorem IsLiteralItem.spelledItem_eq {item : ArrayItem} (h : IsLiteralItem item) :
    { spelledItem item with comments := [], trailing := none } = spelledItem item ∧
      { spelledItem item with comments := [] } = spelledItem item := by
  cases h <;> exact ⟨rfl, rfl⟩

section Items

variable {c c' c'' : Cursor} {t : Token} {closer : TokenKind} {item : ArrayItem}

theorem reads_items_nil (ht : t.kind = closer) (hcomments : t.comments = []) :
    Reads (readItems closer) (c.push t) ([], []) c := by
  rw [Reads, readItems]
  simp [ht, hcomments, commentTexts]

theorem reads_items_last (hread : Reads readItem c item (c'.push t)) (hc : c.head.kind ≠ closer)
    (hcomments : c.head.comments = []) (ht : t.kind = closer) (hclose : t.comments = [])
    (hcloser : closer ≠ .comma) :
    Reads (readItems closer) c ([{ item with comments := [] }], []) c' := by
  obtain ⟨hsize, hread⟩ := hread.eq_ok
  rw [Reads, readItems, Cursor.take?_eq_none hc]
  simp [Cursor.isEmpty_ahead hsize, hread, hcloser, ht, hclose, hcomments, commentTexts]

/-- An item is read with those behind its comma. -/
theorem reads_items_cons {items : List ArrayItem} (hread : Reads readItem c item (c'.push t))
    (hc : c.head.kind ≠ closer) (hcomments : c.head.comments = []) (ht : t.kind = .comma)
    (hnext : c'.head.comments = []) (hitems : Reads (readItems closer) c' (items, []) c'') :
    Reads (readItems closer) c ({ item with comments := [], trailing := none } :: items, [])
      c'' := by
  obtain ⟨hsize, hread⟩ := hread.eq_ok
  obtain ⟨_, hitems⟩ := hitems.eq_ok
  rw [Reads, readItems, Cursor.take?_eq_none hc]
  simp only [Cursor.isEmpty_ahead hsize, hread, ok_bind, Bool.false_eq_true, if_false,
    Cursor.take?_push, ht, if_true]
  generalize hs : c'.sameLineComment = s
  rw [Cursor.sameLineComment_eq_none hnext] at hs
  subst hs
  simp [hitems, hcomments, commentTexts]

end Items

theorem itemTexts_eq_map (items : List ArrayItem) :
    itemTexts layout margin items = items.map (itemText layout margin) := by
  induction items with
  | nil => rfl
  | cons item items ih => rw [itemTexts, ih, List.map_cons]

/-- The items of an array and the mark that closes it, on one line. -/
theorem written_inline {items : List ArrayItem} (long : Bool)
    (hitems : ∀ item ∈ items, IsLiteralItem item)
    (hw : ∀ item ∈ items, WrittenItem layout margin item) :
    Written (Reads (readItems (closer long).1))
      (commaList (itemTexts layout margin items) ++ (closer long).2) (spelledItems items, [])
      (fun _ => True) fun _ => True := by
  rw [itemTexts_eq_map]
  induction items with
  | nil =>
    intro follow P hf hlast hA gap hgap
    have htext : (commaList ([].map (itemText layout margin)) ++ (closer long).2).toList =
        (closer long).2.toList := by simp [commaList]
    rw [htext]
    refine (hA.token hgap (isToken_closer long follow) (by cases long <;> rfl)
      (by cases long <;> decide)).mono ?_
    rintro _ ⟨p, c, rfl, hP⟩
    exact ⟨rfl, rfl, trivial, c, reads_items_nil rfl rfl, hP⟩
  | cons item items ih =>
    intro follow P hf hlast hA gap hgap
    obtain ⟨hcons, hone⟩ := (hitems item (by simp)).spelledItem_eq
    have hitem := hw item (by simp)
    by_cases hnil : items = []
    · subst hnil
      have htext : (commaList ([item].map (itemText layout margin)) ++ (closer long).2).toList =
          (itemText layout margin item).toList ++ (closer long).2.toList := by simp [commaList]
      have hclose := hA.mark (isToken_closer long follow) (by cases long <;> rfl)
        (by cases long <;> decide)
      rw [htext, List.append_assoc]
      refine (hitem _ _ (stops_closer long follow) ?_ hclose gap hgap).mono ?_
      · rintro _ ⟨p, c, rfl, -⟩
        exact ⟨(endsExpr_closer long).1, (endsExpr_closer long).2.1⟩
      · rintro c ⟨hg, hco, hfirst, _, hread, p, c', rfl, hP⟩
        have hitems := reads_items_last hread (hfirst.kind_ne_closer long) hco rfl rfl
          (endsExpr_closer long).2.2
        rw [hone] at hitems
        exact ⟨hg, hco, trivial, c', hitems, hP⟩
    · have hrest := ih (fun i hi => hitems i (by simp [hi])) (fun i hi => hw i (by simp [hi]))
        follow P hf hlast hA [' '] isBlank_space
      have hmark := hrest.mark (Scan.isToken_comma _) rfl (by decide)
      have hfirst := hitem _ _ (Scan.stops_comma _)
        (by rintro _ ⟨p, c, rfl, -⟩; exact ⟨rfl, by simp⟩) hmark gap hgap
      rw [List.map_cons, String.toList_append, toList_commaList_cons (by simpa using hnil)]
      simp only [String.toList_append, List.append_assoc] at hfirst ⊢
      refine hfirst.mono ?_
      rintro c ⟨hg, hco, hfirst, _, hread, p, c', rfl, -, hnext, -, c'', hread', hP⟩
      have hitems := reads_items_cons hread (hfirst.kind_ne_closer long) hco rfl hnext hread'
      rw [hcons] at hitems
      exact ⟨hg, hco, trivial, c'', hitems, hP⟩

theorem itemLines_cons {item : ArrayItem} (h : IsLiteralItem item) (items : List ArrayItem) :
    (itemLines layout margin (item :: items)).toList =
      ('\n' :: margin.toList) ++ ((itemText layout margin item).toList ++ ([','] ++
        (itemLines layout margin items).toList)) := by
  have hcomments : item.comments = [] ∧ item.trailing = none := by
    cases h <;> exact ⟨rfl, rfl⟩
  simp [itemLines, hcomments, linesAt]

/-- The items of an array, each on a line, up to the mark that closes it. -/
theorem ahead_itemLines {items : List ArrayItem} (long : Bool) {inner : String}
    (hmargin : ∀ d ∈ margin.toList, isBlank d = true)
    (hinner : ∀ d ∈ inner.toList, isBlank d = true) (hitems : ∀ item ∈ items, IsLiteralItem item)
    (hw : ∀ item ∈ items, WrittenItem layout inner item) {follow : List Char} {P : Cursor → Prop}
    (hA : Ahead follow P) :
    Ahead ((itemLines layout inner items).toList ++ (('\n' :: margin.toList) ++
        ((closer long).2.toList ++ follow))) fun c =>
      c.head.isOnNewLine = true ∧ c.head.comments = [] ∧
        ∃ c', Reads (readItems (closer long).1) c (spelledItems items, []) c' ∧ P c' := by
  have hblank : ∀ {x : String}, (∀ d ∈ x.toList, isBlank d = true) →
      ∀ d ∈ '\n' :: x.toList, isBlank d = true := by
    intro x hx d hd
    rcases List.mem_cons.1 hd with rfl | hd
    · rfl
    · exact hx d hd
  induction items with
  | nil =>
    refine (hA.token (hblank hmargin) (isToken_closer long follow) (by cases long <;> rfl)
      (by cases long <;> decide)).mono ?_
    rintro _ ⟨p, c, rfl, hP⟩
    exact ⟨rfl, rfl, c, reads_items_nil rfl rfl, hP⟩
  | cons item items ih =>
    obtain ⟨hcons, -⟩ := (hitems item (by simp)).spelledItem_eq
    have hrest := ih (fun i hi => hitems i (by simp [hi])) fun i hi => hw i (by simp [hi])
    have hmark := hrest.mark (Scan.isToken_comma _) rfl (by decide)
    have hitem := hw item (by simp) _ _ (Scan.stops_comma _)
      (by rintro _ ⟨p, c, rfl, -⟩; exact ⟨rfl, by simp⟩) hmark _ (hblank hinner)
    rw [itemLines_cons (hitems item (by simp))]
    simp only [List.append_assoc]
    refine hitem.mono ?_
    rintro c ⟨hg, hco, hfirst, _, hread, p, c', rfl, -, hnext, c'', hread', hP⟩
    have hitems := reads_items_cons hread (hfirst.kind_ne_closer long) hco rfl hnext hread'
    rw [hcons] at hitems
    refine ⟨?_, hco, c'', hitems, hP⟩
    rw [Token.isOnNewLine, Lexeme.isOnNewLine, hg]
    rfl

/-- The mark that opens an array, in either syntax. -/
theorem ahead_opening (long : Bool) {gap follow : List Char} {P : Cursor → Prop}
    (hgap : ∀ d ∈ gap, isBlank d = true) (hA : Ahead follow P) :
    Ahead (gap ++ ((if long then "array(" else "[").toList ++ follow)) fun c =>
      c.head.gap = gap ∧ c.head.comments = [] ∧ IsFirst c.head ∧
        ∃ c' h, arrayOpening? c = some ⟨((closer long).1, long), c', h⟩ ∧ P c' := by
  cases long with
  | false =>
    refine (hA.token hgap (Scan.isToken_leftBracket follow) rfl (by decide)).mono ?_
    rintro _ ⟨p, c, rfl, hP⟩
    refine ⟨rfl, rfl, by simp [IsFirst], c, c.size_push _, ?_, hP⟩
    simp [arrayOpening?, closer]
  | true =>
    have hparen := hA.mark (Scan.isToken_leftParen follow) rfl (by decide)
    have hword := hparen.token (x := "array".toList) hgap
      (Scan.isToken_word rfl (Scan.stops_cons.2 (by decide))) rfl (by decide)
    refine hword.mono ?_
    rintro _ ⟨p, _, rfl, p', c, rfl, hP⟩
    refine ⟨rfl, rfl, by simp [IsFirst], c,
      Nat.le_trans (c.size_push _) (Nat.le_of_succ_le (Cursor.size_push _ _)), ?_, hP⟩
    have harray : Lexeme.isWord ⟨gap, .word, "array".toList, p⟩ "array" = true := rfl
    simp only [arrayOpening?, Cursor.take?_push, Cursor.takeWord?_push, Token.bare_toLexeme, harray]
    rfl

/-- No comment of an item puts it on a line of its own. -/
theorem arrayLiteral_spelled {items : List ArrayItem} (long multiline : Bool)
    (hitems : ∀ item ∈ items, IsLiteralItem item) :
    arrayLiteral long (multiline && !items.isEmpty) (spelledItems items) [] =
      spelledArray ⟨items, long, multiline, []⟩ := by
  have hbare : (spelledItems items).any (fun i => !i.comments.isEmpty || i.trailing.isSome) =
      false := by
    induction items with
    | nil => rfl
    | cons item items ih =>
      rw [spelledItems, List.any_cons, ih fun i hi => hitems i (by simp [hi])]
      cases hitems item (by simp) <;> rfl
  simp [arrayLiteral, spelledArray, hbare]

/-- The text of an array behind the mark that opens it. -/
def arrayBody (layout : Layout) (margin : String) (items : List ArrayItem) (long multiline : Bool) :
    List Char :=
  if multiline && !items.isEmpty then
    (itemLines layout (margin ++ layout.indent) items).toList ++ (('\n' :: margin.toList) ++
      (closer long).2.toList)
  else (commaList (itemTexts layout margin items) ++ (closer long).2).toList

theorem toList_text_array (items : List ArrayItem) (long multiline : Bool) :
    (text layout margin (.array ⟨items, long, multiline, []⟩)).toList =
      (if long then "array(" else "[").toList ++ arrayBody layout margin items long multiline := by
  cases hlines : multiline && !items.isEmpty <;> cases long <;>
    simp [text, arrayText, arrayBody, hlines, linesAt, closer]

/-- An array is read back with the literals of its items, in both layouts. -/
theorem written_array {items : List ArrayItem} (long multiline : Bool)
    (hmargin : ∀ d ∈ margin.toList, isBlank d = true)
    (hindent : ∀ d ∈ layout.indent.toList, isBlank d = true)
    (hitems : ∀ item ∈ items, IsLiteralItem item)
    (hw : ∀ margin : String, (∀ d ∈ margin.toList, isBlank d = true) →
      ∀ item ∈ items, WrittenItem layout margin item) :
    WrittenAs layout margin (.array ⟨items, long, multiline, []⟩) where
  written := by
    intro follow P hf hlast hA gap hgap
    have hrest : Ahead (arrayBody layout margin items long multiline ++ follow) fun c =>
        c.head.isOnNewLine = (multiline && !items.isEmpty) ∧
          ∃ c', Reads (readItems (closer long).1) c (spelledItems items, []) c' ∧ P c' := by
      have hinner : ∀ d ∈ (margin ++ layout.indent).toList, isBlank d = true := by
        intro d hd
        rw [String.toList_append, List.mem_append] at hd
        exact hd.elim (hmargin d) (hindent d)
      cases hlines : multiline && !items.isEmpty with
      | true =>
        rw [arrayBody, if_pos hlines, List.append_assoc, List.append_assoc]
        refine (ahead_itemLines long hmargin hinner hitems (hw _ hinner) hA).mono ?_
        rintro c ⟨hline, -, hread⟩
        exact ⟨hline, hread⟩
      | false =>
        rw [arrayBody, if_neg (by simp [hlines])]
        have hinline := written_inline long hitems (hw margin hmargin) follow P hf
          (fun _ _ => trivial) hA [] (by simp)
        refine hinline.mono ?_
        rintro c ⟨hg, hco, -, hread⟩
        refine ⟨?_, hread⟩
        simp [Token.isOnNewLine, Lexeme.isOnNewLine, hg, hco]
    rw [toList_text_array, List.append_assoc]
    refine (ahead_opening long hgap hrest).mono ?_
    rintro c ⟨hg, hco, hfirst, c₁, h₁, hopen, hline, c', hread, hP⟩
    obtain ⟨hsize, hread⟩ := hread.eq_ok
    refine ⟨hg, hco, hfirst, c', reads_of_readLiteral (h := ?_) ?_ (hlast c' hP), hP⟩
    · exact Nat.le_of_succ_le (Nat.le_trans (Nat.add_le_add_right hsize 1) h₁)
    · rw [readLiteral, hopen]
      simp [hread, Step.past, hline, arrayLiteral_spelled long multiline hitems, spelled]
  opens := by
    rw [toList_text_array]
    cases long
    · exact ⟨'[', _, rfl, by decide, by decide⟩
    · exact ⟨'a', _, rfl, by decide, by decide⟩

mutual

/-- A literal that was made is read as it is written. -/
theorem IsLiteral.writtenAs {e : Expr} (h : IsLiteral e) {margin : String}
    (hindent : ∀ d ∈ layout.indent.toList, isBlank d = true)
    (hmargin : ∀ d ∈ margin.toList, isBlank d = true) : WrittenAs layout margin e := by
  match h with
  | .string value => exact written_string value
  | .int n => exact written_int n
  | .const hname => exact written_const hname
  | .array long multiline hitems =>
    exact written_array long multiline hmargin hindent hitems fun margin hmargin item hitem =>
      (hitems item hitem).written hindent hmargin

theorem IsLiteralItem.written {item : ArrayItem} (h : IsLiteralItem item) {margin : String}
    (hindent : ∀ d ∈ layout.indent.toList, isBlank d = true)
    (hmargin : ∀ d ∈ margin.toList, isBlank d = true) : WrittenItem layout margin item := by
  match h with
  | .positional byRef hv => exact writtenItem_positional (hv.writtenAs hindent hmargin) byRef
  | .spread hv => exact writtenItem_spread (hv.writtenAs hindent hmargin)
  | .keyed byRef hk hv =>
    exact writtenItem_keyed (hk.writtenAs hindent hmargin) (hv.writtenAs hindent hmargin) byRef

end

end ClassEdit.Expr
