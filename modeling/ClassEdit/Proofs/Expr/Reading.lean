import ClassEdit.Expr.Parser
import ClassEdit.Expr.Printer
import ClassEdit.Proofs.Number.Integer
import ClassEdit.Proofs.Reading

/-!
Literals are read as they are written. Main statement: the text of a literal that was made, before
anything that ends an expression, is read as this literal with the spelling it was written in.
-/

namespace ClassEdit

open Scan (isName Stops IsToken)

namespace Expr

mutual

/-- The literals that can be made: strings, integers, named constants, and arrays of them. -/
inductive IsLiteral : Expr → Prop where
  | string (value : String) : IsLiteral (.string value none)
  | int (n : Int64) : IsLiteral (.int n none)
  | const {name : String} (h : isName name.toList = true) : IsLiteral (.const name)
  | array {items : List ArrayItem} (long multiline : Bool)
      (h : ∀ item ∈ items, IsLiteralItem item) :
      IsLiteral (.array ⟨items, long, multiline, []⟩)

/-- The items of such arrays. An item that is spread has no key. -/
inductive IsLiteralItem : ArrayItem → Prop where
  | positional {value : Expr} (byRef : Bool) (h : IsLiteral value) :
      IsLiteralItem { ArrayItem.positional value with byRef }
  | spread {value : Expr} (h : IsLiteral value) :
      IsLiteralItem { ArrayItem.positional value with spread := true }
  | keyed {key value : Expr} (byRef : Bool) (hk : IsLiteral key) (hv : IsLiteral value) :
      IsLiteralItem { ArrayItem.keyed key value with byRef }

end

mutual

/-- The expression with every literal spelled as it is written. The least integer is written as a
constant, and an empty array on one line. -/
def spelled : Expr → Expr
  | .string value spelling => .string value (some (spelling.getD (Quoted.encode value)))
  | .int n spelling =>
    if spelling.isNone && n == Int64.minValue then .const (integerText n)
    else .int n (some (spelling.getD (integerText n)))
  | .float x spelling => .float x (some (spelling.getD (FloatStyle.literal.write x)))
  | .const name => .const name
  | .raw code => .raw code
  | .array literal => .array (spelledArray literal)

def spelledArray : ArrayLiteral → ArrayLiteral
  | ⟨items, long, multiline, closing⟩ =>
    ⟨spelledItems items, long, multiline && !(items.isEmpty && closing.isEmpty), closing⟩

def spelledItems : List ArrayItem → List ArrayItem
  | [] => []
  | item :: items => spelledItem item :: spelledItems items

def spelledItem : ArrayItem → ArrayItem
  | ⟨comments, key, value, byRef, spread, trailing⟩ =>
    ⟨comments, match key with | some key => some (spelled key) | none => none,
      spelled value, byRef, spread,
      trailing⟩

end

def IsFirst (t : Token) : Prop :=
  t.kind ∈ [.quoted, .int, .minus, .word, .leftBracket]

/-- The expression is written as its spelled form, and does not begin with what goes on with an
ampersand. -/
structure WrittenAs (layout : Layout) (margin : String) (e : Expr) : Prop where
  written : Written (Reads read) (e.text layout margin) e.spelled IsFirst fun c =>
    c.head.kind.endsExpr = true
  opens : ∃ d r, (e.text layout margin).toList = d :: r ∧ d ≠ '&' ∧ d ≠ '='

variable {layout : Layout} {margin : String}

theorem arrayOpening?_eq_none {c : Cursor} {t : Token} (hbracket : t.kind ≠ .leftBracket)
    (hc : t.kind = .word → c.head.kind ≠ .leftParen) : arrayOpening? (c.push t) = none := by
  unfold arrayOpening?
  by_cases hw : t.isWord "array"
  · have hk : t.kind = .word := by
      simp only [Lexeme.isWord, Bool.and_eq_true, beq_iff_eq] at hw
      exact hw.1
    simp [hbracket, hw, Cursor.take?_eq_none (hc hk)]
  · simp [hbracket, hw]

theorem reads_of_readLiteral {c c' : Cursor} {e : Expr} {h : c'.size + 1 ≤ c.size}
    (hread : readLiteral c = .ok (some ⟨e, c', h⟩)) (hend : c'.head.kind.endsExpr = true) :
    Reads read c e c' := by
  rw [Reads, read]
  simp [hread, hend]

theorem reads_of_scalar? {c c' : Cursor} {t : Token} {e : Expr} (h : c'.size + 1 ≤ (c.push t).size)
    (hbracket : t.kind ≠ .leftBracket) (hc : t.kind = .word → c.head.kind ≠ .leftParen)
    (he : scalar? (c.push t) = some ⟨e, c', h⟩) (hend : c'.head.kind.endsExpr = true) :
    Reads read (c.push t) e c' := by
  refine reads_of_readLiteral (h := h) ?_ hend
  rw [readLiteral, arrayOpening?_eq_none hbracket hc, he]

/-- What ends an expression does not make an array of the word before it. -/
theorem ne_leftParen_of_endsExpr {k : TokenKind} (h : k.endsExpr = true) : k ≠ .leftParen := by
  rintro rfl
  cases h

theorem scalar?_quoted (c : Cursor) {t : Token} (hk : t.kind = .quoted)
    (h : Quoted.isInterpolated t.text = false) : scalar? (c.push t) =
      some ⟨.string (String.ofList (Quoted.value t.text)) (some t.string), c, c.size_push t⟩ := by
  simp [scalar?, hk, h]

theorem scalar?_word (c : Cursor) {t : Token} (hk : t.kind = .word) :
    scalar? (c.push t) = some ⟨.const t.string, c, c.size_push t⟩ := by
  simp [scalar?, hk]

theorem scalar?_int (c : Cursor) {t : Token} (hk : t.kind = .int) {n : Int64}
    (hn : NumberLiteral.readInteger t.text = some n) :
    scalar? (c.push t) = some ⟨.int n (some t.string), c, c.size_push t⟩ := by
  simp [scalar?, hk, hn]

theorem scalar?_minus (c : Cursor) {t u : Token} (hk : t.kind = .minus)
    (hu : u.kind = .int) {n : Int64} (hn : NumberLiteral.readInteger u.text = some n) :
    ∃ h, scalar? ((c.push u).push t) = some ⟨.int (-n) (some ("-" ++ u.string)), c, h⟩ := by
  refine ⟨Nat.le_trans (c.size_push u) (Nat.le_of_succ_le ((c.push u).size_push t)), ?_⟩
  simp [scalar?, hk, negated?, hu, hn]
  rfl

/-- A string is read back with the spelling in which it is written. -/
theorem written_string (value : String) : WrittenAs layout margin (.string value none) where
  written := by
    intro follow P hf hlast hA gap hgap
    refine (hA.token hgap (Scan.isToken_encode value follow) rfl (by decide)).mono ?_
    rintro _ ⟨p, c, rfl, hP⟩
    refine ⟨rfl, rfl, by simp [IsFirst], c,
      reads_of_scalar? (c.size_push _) (by simp) (by simp) ?_ (hlast c hP), hP⟩
    rw [scalar?_quoted c rfl (by simp [Quoted.isInterpolated, Quoted.encode])]
    simp [Quoted.value_encode, spelled]
  opens :=
  ⟨'\x27', Quoted.escapeAll value.toList ++ ['\x27'], by simp [text, Quoted.encode], by decide,
    by decide⟩

theorem opens_of_isName {name : List Char} (h : isName name = true) :
    ∃ d r, name = d :: r ∧ d ≠ '&' ∧ d ≠ '=' := by
  fun_cases isName name with
  | case1 c r => exact ⟨'\\', c :: r, rfl, by decide, by decide⟩
  | case2 c r hne =>
    rw [Scan.isName_cons hne] at h
    refine ⟨c, r, rfl, ?_, ?_⟩
    all_goals
      rintro rfl
      simp [Quoted.isNameStart] at h
  | case3 => simp [isName] at h

/-- The name of a constant is read back, for no number or literal begins like it. -/
theorem written_const {name : String} (h : isName name.toList = true) :
    WrittenAs layout margin (.const name) where
  written := by
    intro follow P hf hlast hA gap hgap
    refine (hA.token hgap (Scan.isToken_word h hf) rfl (by decide)).mono ?_
    rintro _ ⟨p, c, rfl, hP⟩
    refine ⟨rfl, rfl, by simp [IsFirst], c,
      reads_of_scalar? (c.size_push _) (by simp) (fun _ => ne_leftParen_of_endsExpr (hlast c hP)) ?_
        (hlast c hP), hP⟩
    rw [scalar?_word c rfl]
    simp [spelled]
  opens := opens_of_isName h

/-- An integer that has a literal is written by the digits of its value, behind a sign if it needs
one. -/
theorem toList_integerText {n : Int64} (h : n ≠ Int64.minValue) :
    (integerText n).toList =
      if 0 ≤ n.toInt then Nat.toDigits 10 n.toInt.natAbs
        else '-' :: Nat.toDigits 10 n.toInt.natAbs := by
  rw [integerText, if_neg h, Int.toString_eq_repr, Int.repr_eq_if]
  split
  next hn =>
    rw [Nat.toList_repr]
    congr 1
    omega
  next hn =>
    rw [String.toList_append, Nat.toList_repr]
    have hneg : (-n.toInt).toNat = n.toInt.natAbs := by omega
    rw [hneg]
    rfl

theorem spelled_int {n : Int64} (h : n ≠ Int64.minValue) :
    spelled (.int n none) = .int n (some (integerText n)) := by
  simp [spelled, h]

theorem toDigits_eq_cons (n : Nat) : ∃ d r, Nat.toDigits 10 n = d :: r ∧ d.isDigit = true := by
  cases hd : Nat.toDigits 10 n with
  | nil => simp at hd
  | cons d r => exact ⟨d, r, rfl, NumberLiteral.isDigit_of_mem_toDigits (by rw [hd]; simp)⟩

theorem isToken_toDigits (n : Nat) {follow : List Char} (hf : Stops follow) :
    IsToken .int (Nat.toDigits 10 n) follow :=
  Scan.isToken_int (by simp) (fun _ hc => NumberLiteral.isDigit_of_mem_toDigits hc) hf

/-- A number that is not negative is read back as one token. -/
theorem written_nonneg {n : Int64} (hmin : n ≠ Int64.minValue) (hn : 0 ≤ n.toInt) :
    WrittenAs layout margin (.int n none) := by
  have htext := toList_integerText hmin
  have hvalue := NumberLiteral.readInteger_natAbs hmin
  rw [if_pos hn] at htext hvalue
  refine ⟨?_, ?_⟩
  · intro follow P hf hlast hA gap hgap
    change Ahead (gap ++ ((integerText n).toList ++ follow)) _
    rw [htext]
    refine (hA.token hgap (isToken_toDigits _ hf) rfl (by decide)).mono ?_
    rintro _ ⟨p, c, rfl, hP⟩
    refine ⟨rfl, rfl, by simp [IsFirst], c,
      reads_of_scalar? (c.size_push _) (by simp) (by simp) ?_ (hlast c hP), hP⟩
    rw [scalar?_int c rfl hvalue]
    simp [spelled_int hmin, Lexeme.string, ← htext]
  · obtain ⟨d, r, hd, hdigit⟩ := toDigits_eq_cons n.toInt.natAbs
    refine ⟨d, r, htext.trans hd, ?_, ?_⟩
    all_goals
      rintro rfl
      exact absurd hdigit (by decide)

/-- A negative number is read back from its sign and its digits. -/
theorem written_neg {n : Int64} (hmin : n ≠ Int64.minValue) (hn : ¬ 0 ≤ n.toInt) :
    WrittenAs layout margin (.int n none) := by
  have htext := toList_integerText hmin
  have hvalue := NumberLiteral.readInteger_natAbs hmin
  rw [if_neg hn] at htext hvalue
  refine ⟨?_, '-', _, htext, by decide, by decide⟩
  intro follow P hf hlast hA gap hgap
  change Ahead (gap ++ ((integerText n).toList ++ follow)) _
  rw [htext]
  obtain ⟨d, r, hd, hdigit⟩ := toDigits_eq_cons n.toInt.natAbs
  have hsign : IsToken .minus ['-'] ([] ++ (Nat.toDigits 10 n.toInt.natAbs ++ follow)) := by
    refine Scan.isToken_minus fun c hc => ?_
    simp only [hd, List.nil_append, List.cons_append, List.head?_cons, Option.some.injEq] at hc
    subst hc
    refine ⟨?_, ?_, ?_⟩
    all_goals
      rintro rfl
      exact absurd hdigit (by decide)
  have hint := hA.mark (isToken_toDigits n.toInt.natAbs hf) rfl (by decide)
  refine (hint.token hgap hsign rfl (by decide)).mono ?_
  rintro _ ⟨p, _, rfl, p', c, rfl, hP⟩
  obtain ⟨hc, hscalar⟩ := scalar?_minus c (t := .bare ⟨gap, .minus, ['-'], p⟩)
    (u := .bare ⟨[], .int, Nat.toDigits 10 n.toInt.natAbs, p'⟩) rfl rfl hvalue
  have hspelling : integerText n = "-" ++ String.ofList (Nat.toDigits 10 n.toInt.natAbs) := by
    rw [← String.toList_inj, htext]
    simp
  refine ⟨rfl,
    rfl, by simp [IsFirst], c, reads_of_scalar? hc (by simp) (by simp) ?_ (hlast c hP), hP⟩
  rw [hscalar]
  simp [spelled_int hmin, hspelling, Lexeme.string]

/-- Every number is read back, the least one too, which has no literal of its own. -/
theorem written_int (n : Int64) : WrittenAs layout margin (.int n none) := by
  by_cases hmin : n = Int64.minValue
  · subst hmin
    have htext : text layout margin (.int Int64.minValue none) = "PHP_INT_MIN" := rfl
    have hspelled : spelled (.int Int64.minValue none) = .const "PHP_INT_MIN" := rfl
    have hconst : WrittenAs layout margin (.const "PHP_INT_MIN") := written_const rfl
    refine ⟨?_, ?_⟩
    · rw [htext, hspelled]
      exact hconst.written
    · rw [htext]
      exact hconst.opens
  · by_cases hn : 0 ≤ n.toInt
    · exact written_nonneg hmin hn
    · exact written_neg hmin hn

def closer (long : Bool) : TokenKind × String :=
  if long then (.rightParen, ")") else (.rightBracket, "]")

theorem isToken_closer (long : Bool) (follow : List Char) :
    IsToken (closer long).1 (closer long).2.toList follow := by
  cases long
  · exact Scan.isToken_rightBracket follow
  · exact Scan.isToken_rightParen follow

def IsItemFirst (t : Token) : Prop :=
  t.kind = .ampersand ∨ t.kind = .ellipsis ∨ IsFirst t

def WrittenItem (layout : Layout) (margin : String) (item : ArrayItem) : Prop :=
  Written (Reads readItem) (itemText layout margin item) (spelledItem item) IsItemFirst fun c =>
    c.head.kind.endsExpr = true ∧ c.head.kind ≠ .arrow

theorem WrittenAs.isToken_ampersand {e : Expr} (h : WrittenAs layout margin e)
    (follow : List Char) :
    IsToken .ampersand ['&'] ((e.text layout margin).toList ++ follow) := by
  refine Scan.isToken_ampersand fun c hc => ?_
  obtain ⟨d, r, hd, hne⟩ := h.opens
  simp only [hd, List.cons_append, List.head?_cons, Option.some.injEq] at hc
  rwa [← hc]

theorem IsFirst.kind_ne {t : Token} (h : IsFirst t) :
    t.kind ≠ .ellipsis ∧ t.kind ≠ .ampersand ∧ t.kind ≠ .rightParen ∧ t.kind ≠ .rightBracket := by
  unfold IsFirst at h
  generalize t.kind = k at h
  revert h
  cases k <;> decide

/-- A value is read back as an item without a key, if no arrow follows. -/
theorem writtenItem_positional {value : Expr} (hv : WrittenAs layout margin value) (byRef : Bool) :
    WrittenItem layout margin { ArrayItem.positional value with byRef } := by
  intro follow P hf hlast hA gap hgap
  have hvalue := hv.written follow P hf (fun c hc => (hlast c hc).1) hA
  cases byRef with
  | false =>
    refine (hvalue gap hgap).mono ?_
    rintro c ⟨hg, hco, hfirst, c', hread, hP⟩
    obtain ⟨hc, hread⟩ := hread.eq_ok
    refine ⟨hg, hco, .inr (.inr hfirst), c', ?_, hP⟩
    rw [Reads, readItem, Cursor.take?_eq_none hfirst.kind_ne.1,
      Cursor.accept_eq_false hfirst.kind_ne.2.1]
    simp [hread, Cursor.take?_eq_none (hlast c' hP).2, spelledItem, ArrayItem.positional]
  | true =>
    have htext : (itemText layout margin { ArrayItem.positional value with byRef := true }).toList =
        '&' :: (value.text layout margin).toList := by
      simp [itemText, ArrayItem.positional]
    rw [htext]
    refine ((hvalue [] (by simp)).token hgap (hv.isToken_ampersand follow) rfl (by decide)).mono ?_
    rintro _ ⟨p, c, rfl, -, -, -, c', hread, hP⟩
    obtain ⟨hc, hread⟩ := hread.eq_ok
    refine ⟨rfl, rfl, .inl rfl, c', ?_, hP⟩
    rw [Reads, readItem, Cursor.accept_push (k := .ampersand) rfl]
    simp [hread, spelledItem, ArrayItem.positional]

/-- A spread value is read back with its mark. -/
theorem writtenItem_spread {value : Expr} (hv : WrittenAs layout margin value) :
    WrittenItem layout margin { ArrayItem.positional value with spread := true } := by
  intro follow P hf hlast hA gap hgap
  have htext : (itemText layout margin { ArrayItem.positional value with spread := true }).toList =
      ['.', '.', '.'] ++ (value.text layout margin).toList := by
    simp [itemText, ArrayItem.positional]
  have hvalue := hv.written follow P hf (fun c hc => (hlast c hc).1) hA [] (by simp)
  have hmark := hvalue.token hgap (Scan.isToken_ellipsis _) rfl (by decide)
  rw [htext]
  refine hmark.mono ?_
  rintro _ ⟨p, c, rfl, -, -, -, c', hread, hP⟩
  obtain ⟨hc, hread⟩ := hread.eq_ok
  refine ⟨rfl, rfl, .inr (.inl rfl), c', ?_, hP⟩
  rw [Reads, readItem]
  simp [hread, spelledItem, ArrayItem.positional]

/-- A key and a value are read back from both sides of the arrow. -/
theorem writtenItem_keyed {key value : Expr} (hk : WrittenAs layout margin key)
    (hv : WrittenAs layout margin value) (byRef : Bool) :
    WrittenItem layout margin { ArrayItem.keyed key value with byRef } := by
  intro follow P hf hlast hA gap hgap
  have hvalue := hv.written follow P hf (fun c hc => (hlast c hc).1) hA
  cases byRef with
  | false =>
    have htext : (itemText layout margin { ArrayItem.keyed key value with byRef := false }).toList =
        (key.text layout margin).toList ++ ([' '] ++ (['=', '>'] ++ ([' '] ++
          (value.text layout margin).toList))) := by
      simp [itemText, ArrayItem.keyed]
    have harrow := (hvalue [' '] isBlank_space).token isBlank_space (Scan.isToken_arrow _) rfl
      (by decide)
    have hkey := hk.written _ _ (by simp [Scan.stops_cons]; decide)
      (by rintro _ ⟨p, c, rfl, -⟩; rfl) harrow gap hgap
    rw [htext]
    simp only [List.append_assoc]
    refine hkey.mono ?_
    rintro c ⟨hg, hco, hfirst, _, hread, p, c', rfl, -, -, hfirst', c'', hread', hP⟩
    obtain ⟨hc, hread⟩ := hread.eq_ok
    obtain ⟨hc', hread'⟩ := hread'.eq_ok
    refine ⟨hg, hco, .inr (.inr hfirst), c'', ?_, hP⟩
    rw [Reads, readItem, Cursor.take?_eq_none hfirst.kind_ne.1,
      Cursor.accept_eq_false hfirst.kind_ne.2.1]
    simp only [hread, ok_bind, Bool.false_eq_true, if_false, Cursor.take?_push, Token.bare_toLexeme,
      if_true]
    generalize hbyRef : c'.accept .ampersand = s
    rw [Cursor.accept_eq_false hfirst'.kind_ne.2.1] at hbyRef
    subst hbyRef
    simp [hread', spelledItem, ArrayItem.keyed]
  | true =>
    have htext : (itemText layout margin { ArrayItem.keyed key value with byRef := true }).toList =
        (key.text layout margin).toList ++ ([' '] ++ (['=', '>'] ++ ([' '] ++ (['&'] ++ ([] ++
          (value.text layout margin).toList))))) := by
      simp [itemText, ArrayItem.keyed]
    have hamp := (hvalue [] (by simp)).token isBlank_space (hv.isToken_ampersand follow) rfl
      (by decide)
    have harrow := hamp.token isBlank_space (Scan.isToken_arrow _) rfl (by decide)
    have hkey := hk.written _ _ (by simp [Scan.stops_cons]; decide)
      (by rintro _ ⟨p, c, rfl, -⟩; rfl) harrow gap hgap
    rw [htext]
    simp only [List.append_assoc]
    refine hkey.mono ?_
    rintro c ⟨hg, hco, hfirst, _, hread, p, _, rfl, p', c', rfl, -, -, -, c'', hread', hP⟩
    obtain ⟨hc, hread⟩ := hread.eq_ok
    obtain ⟨hc', hread'⟩ := hread'.eq_ok
    refine ⟨hg, hco, .inr (.inr hfirst), c'', ?_, hP⟩
    rw [Reads, readItem, Cursor.take?_eq_none hfirst.kind_ne.1,
      Cursor.accept_eq_false hfirst.kind_ne.2.1]
    simp only [hread, ok_bind, Bool.false_eq_true, if_false, Cursor.take?_push, Token.bare_toLexeme,
      if_true]
    generalize hbyRef : Cursor.accept _ .ampersand = s
    rw [Cursor.accept_push (k := .ampersand) rfl] at hbyRef
    subst hbyRef
    simp [hread', spelledItem, ArrayItem.keyed]

end Expr

end ClassEdit
