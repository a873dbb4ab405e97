import Mathlib.Data.List.TakeWhile
import ClassEdit.Number.Literal
import ClassEdit.Proofs.Token.Scanned

/-!
Escapes in string literals. Between double quotes a backslash with a letter or a sign stands for one
character, and a backslash with digits for the character of a number: up to three octal digits, `x`
with one or two hexadecimal digits, or `u` with hexadecimal digits in braces. Main statement: the
value that is read of a literal is the one that the escapes give it if no escape in it is by number
but for a lone zero, and only then.
-/

namespace ClassEdit.Quoted

/-- The character that a backslash and a letter or a sign stand for. -/
def named? : Char → Option Char
  | 'n' => some '\n'
  | 't' => some '\t'
  | 'r' => some '\r'
  | 'v' => some '\x0b'
  | 'e' => some '\x1b'
  | 'f' => some '\x0c'
  | '\\' => some '\\'
  | '$' => some '$'
  | '\x22' => some '\x22'
  | _ => none

def leadingDigits (base : Nat) (cs : List Char) : List Char :=
  cs.takeWhile fun c => (NumberLiteral.digitValue c.toLower).any (· < base)

def numberOf (base : Nat) (digits : List Char) : Nat :=
  (NumberLiteral.readDigits base (digits.map Char.toLower)).getD 0

/-- The number of an escape by number, behind its backslash, and the characters that the escape
takes up there. Of an octal number only the lowest byte counts. -/
def numbered? : List Char → Option (Nat × Nat)
  | 'x' :: r =>
    let digits := (leadingDigits 16 r).take 2
    if digits.isEmpty then none else some (numberOf 16 digits, digits.length + 1)
  | 'u' :: '\x7b' :: r =>
    let digits := leadingDigits 16 r
    if digits.isEmpty || r[digits.length]? != some '\x7d' then none
    else some (numberOf 16 digits, digits.length + 3)
  | cs =>
    let digits := (leadingDigits 8 cs).take 3
    if digits.isEmpty then none else some (numberOf 8 digits % 256, digits.length)

/-- What a text between double quotes stands for, if none of its escapes stands for more than ASCII.
A backslash that begins no escape stands for itself. -/
def meaning? : List Char → Option (List Char)
  | '\\' :: c :: r =>
    match named? c, numbered? (c :: r) with
    | some d, _ => (d :: ·) <$> meaning? r
    | none, some (n, k) =>
      if n < 128 then (Char.ofNat n :: ·) <$> meaning? (r.drop (k - 1)) else none
    | none, none => (['\\', c] ++ ·) <$> meaning? r
  | c :: r => (c :: ·) <$> meaning? r
  | [] => some []
termination_by cs => cs.length
decreasing_by all_goals (simp only [List.length_cons, List.length_drop]; omega)

/-- Whether a text between double quotes has an escape by number other than a lone zero. -/
def hasNumber : List Char → Bool
  | '\\' :: c :: r => (numbered? (c :: r)).any (fun (_, k) => c != '0' || k != 1) || hasNumber r
  | _ :: r => hasNumber r
  | [] => false

section Numbered

variable {c : Char} {r : List Char} {n k : Nat}

theorem not_mem_leadingDigits (base : Nat) (cs : List Char) : '\\' ∉ leadingDigits base cs := by
  intro h
  have hdigit := List.mem_takeWhile_imp h
  cases hdigit

theorem leadingDigits_append (base : Nat) (cs : List Char) :
    leadingDigits base cs ++ cs.drop (leadingDigits base cs).length = cs :=
  List.prefix_iff_eq_append.1 (List.takeWhile_prefix _)

theorem exists_take_leadingDigits (base m : Nat) (cs : List Char) :
    ∃ digits, cs = digits ++ cs.drop ((leadingDigits base cs).take m).length ∧
      ((leadingDigits base cs).take m).length = digits.length ∧ '\\' ∉ digits := by
  have hprefix := (List.take_prefix m _).trans (List.takeWhile_prefix (l := cs)
    fun c => (NumberLiteral.digitValue c.toLower).any (· < base))
  refine ⟨(leadingDigits base cs).take m, (List.prefix_iff_eq_append.1 hprefix).symm,
    rfl, fun hmem => ?_⟩
  exact not_mem_leadingDigits base cs (List.mem_of_mem_take hmem)

/-- An escape by number takes up characters that are no backslashes. -/
theorem exists_of_numbered? (h : numbered? (c :: r) = some (n, k)) :
    ∃ digits, r = digits ++ r.drop (k - 1) ∧ k = digits.length + 1 ∧ '\\' ∉ digits := by
  unfold numbered? at h
  split at h
  next hcs =>
    obtain ⟨rfl, rfl⟩ := List.cons.inj hcs
    dsimp only at h
    split at h
    next => cases h
    next =>
      cases h
      obtain ⟨digits, hr, hlength, hplain⟩ := exists_take_leadingDigits 16 2 r
      exact ⟨digits, hr, by rw [hlength], hplain⟩
  next s hcs =>
    obtain ⟨rfl, rfl⟩ := List.cons.inj hcs
    dsimp only at h
    split at h
    next => cases h
    next hclosed =>
      cases h
      refine ⟨'\x7b' :: (leadingDigits 16 s ++ ['\x7d']), ?_, by simp, ?_⟩
      · have hbrace : s[(leadingDigits 16 s).length]? = some '\x7d' := by
          simp only [Bool.or_eq_true, not_or, bne_iff_ne, ne_eq, Decidable.not_not] at hclosed
          exact hclosed.2
        obtain ⟨hlength, hbrace⟩ := List.getElem?_eq_some_iff.1 hbrace
        have hs := leadingDigits_append 16 s
        rw [List.drop_eq_getElem_cons hlength, hbrace] at hs
        simp only [List.cons_append, List.append_assoc, List.nil_append]
        exact congrArg _ hs.symm
      · simp [not_mem_leadingDigits]
  next =>
    dsimp only at h
    split at h
    next => cases h
    next hdigits =>
      cases h
      obtain ⟨digits, hr, hlength, hplain⟩ := exists_take_leadingDigits 8 3 (c :: r)
      cases digits with
      | nil => exact absurd (List.isEmpty_iff_length_eq_zero.2 hlength) hdigits
      | cons d digits =>
        rw [hlength] at hr ⊢
        exact ⟨digits, (List.cons.inj hr).2, rfl, fun hmem => hplain (List.mem_cons_of_mem d hmem)⟩

/-- A letter or a sign that stands for a character begins no number. -/
theorem numbered?_of_named? {d : Char} (h : named? c = some d) : numbered? (c :: r) = none := by
  unfold named? at h
  split at h <;> first | rfl | cases h

theorem numbered?_zero (r : List Char) : numbered? ('0' :: r) =
    some (numberOf 8 ('0' :: (leadingDigits 8 r).take 2) % 256,
      ((leadingDigits 8 r).take 2).length + 1) :=
  rfl

theorem escaped_of_named? {d : Char} (h : named? c = some d) : escaped '\x22' c = [d] := by
  unfold named? at h
  split at h <;> first | cases h; rfl | cases h

theorem escaped_of_named?_eq_none (h : named? c = none) (hzero : c ≠ '0') :
    escaped '\x22' c = ['\\', c] := by
  unfold named? at h
  split at h
  all_goals try cases h
  unfold escaped
  split
  all_goals try contradiction
  rw [if_neg ‹_›]

theorem doubleValue_append {quote : Char} {digits : List Char} (h : '\\' ∉ digits) (r : List Char) :
    doubleValue quote (digits ++ r) = digits ++ doubleValue quote r := by
  induction digits with
  | nil => rfl
  | cons c digits ih =>
    rw [List.mem_cons, not_or] at h
    rw [List.cons_append, doubleValue.eq_2 _ _ _ (fun _ _ hc => absurd hc.symm h.1), ih h.2]
    rfl

theorem hasNumber_append {digits : List Char} (h : '\\' ∉ digits) (r : List Char) :
    hasNumber (digits ++ r) = hasNumber r := by
  induction digits with
  | nil => rfl
  | cons c digits ih =>
    rw [List.mem_cons, not_or] at h
    rw [List.cons_append, hasNumber.eq_2 _ _ (fun _ _ hc => absurd hc.symm h.1), ih h.2]

end Numbered

section Meaning

variable {c : Char} {r cs v : List Char} {n k : Nat}

theorem hasNumber_escape (c : Char) (r : List Char) :
    hasNumber ('\\' :: c :: r) = ((numbered? (c :: r)).any (fun (_, k) => c != '0' || k != 1) ||
      hasNumber r) := by
  rw [hasNumber]

theorem hasNumber_cons (h : ∀ d s, c = '\\' → r = d :: s → False) :
    hasNumber (c :: r) = hasNumber r := by
  rw [hasNumber]
  exact h

/-- The only number that is left is a lone zero. -/
theorem zero_of_hasNumber_eq_false (hnumber : numbered? (c :: r) = some (n, k))
    (h : hasNumber ('\\' :: c :: r) = false) : c = '0' ∧ n = 0 ∧ k = 1 ∧ hasNumber r = false := by
  rw [hasNumber_escape, hnumber, Bool.or_eq_false_iff] at h
  obtain ⟨hlone, hr⟩ := h
  simp only [Option.any_some, Bool.or_eq_false_iff, bne_eq_false_iff_eq] at hlone
  obtain ⟨rfl, rfl⟩ := hlone
  rw [numbered?_zero, Option.some.injEq, Prod.mk.injEq] at hnumber
  obtain ⟨rfl, hk⟩ := hnumber
  rw [List.eq_nil_of_length_eq_zero (Nat.succ.inj hk)]
  exact ⟨rfl, rfl, rfl, hr⟩

/-- Without an escape by number the value that is read is what the text stands for. -/
theorem meaning?_of_hasNumber_eq_false (h : hasNumber cs = false) :
    meaning? cs = some (doubleValue '\x22' cs) := by
  fun_induction meaning? cs with
  | case1 c r d hnamed ih =>
    rw [hasNumber_escape, Bool.or_eq_false_iff] at h
    rw [ih h.2, doubleValue, escaped_of_named? hnamed]
    rfl
  | case2 c r n k hnumber hnamed hascii ih =>
    obtain ⟨rfl, rfl, rfl, hr⟩ := zero_of_hasNumber_eq_false hnumber h
    rw [ih hr, doubleValue]
    rfl
  | case3 c r n k hnumber hnamed hwide =>
    obtain ⟨-, rfl, -, -⟩ := zero_of_hasNumber_eq_false hnumber h
    exact absurd (Nat.zero_lt_succ _) hwide
  | case4 c r hnumber hnamed ih =>
    rw [hasNumber_escape, Bool.or_eq_false_iff] at h
    have hzero : c ≠ '0' := by
      rintro rfl
      cases hnumber.symm.trans (numbered?_zero r)
    rw [ih h.2, doubleValue, escaped_of_named?_eq_none hnamed hzero]
    rfl
  | case5 c r hplain ih =>
    rw [hasNumber_cons hplain] at h
    rw [ih h, doubleValue]
    · rfl
    · exact hplain
  | case6 => rfl

/-- What the text stands for is no longer than the value that is read, and shorter with an escape by
number. -/
theorem length_of_meaning? (h : meaning? cs = some v) :
    v.length + (hasNumber cs).toNat ≤ (doubleValue '\x22' cs).length := by
  fun_induction meaning? cs generalizing v with
  | case1 c r d hnamed ih =>
    obtain ⟨v, hv, rfl⟩ := Option.map_eq_some_iff.1 h
    rw [hasNumber_escape, numbered?_of_named? hnamed, doubleValue, escaped_of_named? hnamed]
    have hlength := ih hv
    simp only [Option.any_none, Bool.false_or, List.length_append, List.length_cons,
      List.length_nil]
    omega
  | case2 c r n k hnumber hnamed hascii ih =>
    obtain ⟨v, hv, rfl⟩ := Option.map_eq_some_iff.1 h
    have hlength := ih hv
    obtain ⟨digits, hr, rfl, hplain⟩ := exists_of_numbered? hnumber
    have hnumbers : hasNumber r = hasNumber (r.drop digits.length) := by
      conv => lhs; rw [hr]
      exact hasNumber_append hplain _
    have hvalue : doubleValue '\x22' r = digits ++ doubleValue '\x22' (r.drop digits.length) := by
      conv => lhs; rw [hr]
      exact doubleValue_append hplain _
    rw [hasNumber_escape, hnumber, hnumbers, doubleValue, hvalue]
    simp only [Nat.add_sub_cancel] at hlength
    simp only [Option.any_some, List.length_append, List.length_cons]
    -- a lone zero gives way to its value, any other number stands as it is written
    by_cases hlone : c = '0' ∧ digits = []
    · obtain ⟨rfl, rfl⟩ := hlone
      have hone : (escaped '\x22' '0').length = 1 := rfl
      simp only [hone, bne_self_eq_false, Bool.false_or, List.length_nil, Nat.zero_add,
        List.drop_zero] at hlength ⊢
      omega
    · have hwritten : 2 ≤ (escaped '\x22' c).length + digits.length := by
        by_cases hzero : c = '0'
        · have hdigits := List.length_pos_iff.2 fun hnil => hlone ⟨hzero, hnil⟩
          rw [hzero]
          exact Nat.add_le_add_left hdigits 1
        · rw [escaped_of_named?_eq_none hnamed hzero]
          exact Nat.le_add_right 2 _
      refine (Nat.add_le_add_left (Bool.toNat_le _) _).trans ?_
      omega
  | case3 => cases h
  | case4 c r hnumber hnamed ih =>
    obtain ⟨v, hv, rfl⟩ := Option.map_eq_some_iff.1 h
    have hzero : c ≠ '0' := by
      rintro rfl
      cases hnumber.symm.trans (numbered?_zero r)
    rw [hasNumber_escape, hnumber, doubleValue, escaped_of_named?_eq_none hnamed hzero]
    have hlength := ih hv
    simp only [Option.any_none, Bool.false_or, List.length_append, List.length_cons,
      List.length_nil]
    omega
  | case5 c r hplain ih =>
    obtain ⟨v, hv, rfl⟩ := Option.map_eq_some_iff.1 h
    rw [hasNumber_cons hplain, doubleValue.eq_2 _ _ _ hplain]
    have hlength := ih hv
    simp only [List.length_cons]
    omega
  | case6 =>
    cases h
    exact Nat.le_refl 0

/-- The value that is read is what the text stands for if it has no escape by number, and only
then. -/
theorem meaning?_eq_doubleValue_iff :
    meaning? cs = some (doubleValue '\x22' cs) ↔ hasNumber cs = false := by
  refine ⟨fun h => ?_, meaning?_of_hasNumber_eq_false⟩
  have hlength := length_of_meaning? h
  cases hnumber : hasNumber cs with
  | false => rfl
  | true =>
    rw [hnumber] at hlength
    exact absurd hlength (Nat.not_succ_le_self _)

end Meaning

section Literals

open Scan

variable {mode : Mode} {start : Position} {cs : List Char} {ls : List Lexeme}

/-- A quoted literal ends with its quote. -/
theorem ends_of_quotedLength {quote : Char} {t d : List Char}
    (h : quotedLength quote (t ++ d) = .ok t.length) :
    ∃ text, t = text ++ [quote] := by
  induction hn : t.length using Nat.strongRecOn generalizing t with
  | ind n ih =>
    subst hn
    cases t with
    | nil => exact absurd (quotedLength_pos h) (Nat.lt_irrefl 0)
    | cons c t =>
      by_cases hc : c = '\\'
      · subst hc
        cases t with
        | nil =>
          cases d with
          | nil => cases h
          | cons c d =>
            obtain ⟨m, -, hm⟩ := Scan.map_eq_ok h
            cases hm
        | cons c t =>
          have hshort : t.length < ('\\' :: c :: t).length := Nat.lt_add_of_pos_right Nat.two_pos
          obtain ⟨text, rfl⟩ := ih _ hshort (quotedLength_escape.1 h) rfl
          exact ⟨'\\' :: c :: text, rfl⟩
      · by_cases hquote : c = quote
        · subst hquote
          rw [List.cons_append, quotedLength_cons hc, if_pos rfl] at h
          rw [List.eq_nil_of_length_eq_zero (Nat.succ.inj (Except.ok.inj h)).symm]
          exact ⟨[], rfl⟩
        · obtain ⟨text, rfl⟩ :=
            ih _ (Nat.lt_succ_self _) ((quotedLength_cons_of_ne hc hquote).1 h) rfl
          exact ⟨c :: text, rfl⟩

/-- A string literal stands between two quotes of the same kind. -/
theorem exists_text_of_quoted (h : lexemes mode start cs = .ok ls) :
    ∀ l ∈ ls, l.kind = .quoted → ∃ quote text, l.text = quote :: (text ++ [quote]) := by
  have hscanned := scanned_of_lexemes h
  clear h
  induction hscanned with
  | eof => simp
  | @cons mode _ _ _ _ _ _ _ hx _ ih =>
    refine List.forall_mem_cons.2 ⟨?_, ih⟩
    rintro rfl
    cases mode with
    | html => rcases begins_html_iff.1 hx with ⟨h, -⟩ | ⟨h, -⟩ <;> cases h
    | code =>
      obtain ⟨c, t, rfl, -, hl⟩ := begins_code_iff.1 hx
      obtain ⟨t', d, ht, hlength, hspans⟩ := spans_of_codeLexeme (hl start) rfl
      obtain ⟨rfl, -⟩ := List.append_inj ht hlength
      cases hspans with
      | quoted _ ht =>
        obtain ⟨text, rfl⟩ := ends_of_quotedLength ht
        exact ⟨c, text, rfl⟩

/-- The value that is read of a literal between double quotes is what its text stands for, if no
escape in it is by number but for a lone zero, and only then. -/
theorem meaning?_eq_value_iff (h : lexemes mode start cs = .ok ls) :
    ∀ l ∈ ls, l.kind = .quoted → l.text.head? = some '\x22' →
      ∃ text, l.text = '\x22' :: (text ++ ['\x22']) ∧
        (meaning? text = some (value l.text) ↔ hasNumber text = false) := by
  intro l hl hkind hhead
  obtain ⟨quote, text, htext⟩ := exists_text_of_quoted h l hl hkind
  rw [htext, List.head?_cons, Option.some.injEq] at hhead
  subst hhead
  refine ⟨text, htext, ?_⟩
  have hvalue : value l.text = doubleValue '\x22' text := by
    rw [htext]
    simp [value, body]
  rw [hvalue]
  exact meaning?_eq_doubleValue_iff

/-- A tab, a zero, and backslashes that stay: nothing in it is a number. -/
theorem meaning?_eq_value_iff_zero : ∃ ls, ∃ l ∈ ls,
    lexemes .code .start "\x22\\t\\0\\q\\\\x41\x22;".toList = .ok ls ∧ l.kind = .quoted ∧
      l.text.head? = some '\x22' ∧
      ∃ text, l.text = '\x22' :: (text ++ ['\x22']) ∧
        (meaning? text = some (value l.text) ↔ hasNumber text = false) := by
  have h : ∃ ls, ∃ l ∈ ls, lexemes .code .start "\x22\\t\\0\\q\\\\x41\x22;".toList = .ok ls ∧
      l.kind = .quoted ∧ l.text.head? = some '\x22' :=
    ⟨[⟨[], .quoted, "\x22\\t\\0\\q\\\\x41\x22".toList, .start⟩,
      ⟨[], .semicolon, [';'], ⟨13, 1, 14, 0, false⟩⟩,
      ⟨[], .eof, [], ⟨14, 1, 15, 0, false⟩⟩], _, .head _, by decide +kernel⟩
  obtain ⟨ls, l, hl, hls, hkind, hhead⟩ := h
  exact ⟨ls, l, hl, hls, hkind, hhead, meaning?_eq_value_iff hls l hl hkind hhead⟩

/-- An octal number stays as it is written behind a zero. -/
theorem value_ne_meaning? : ∃ ls, ∃ l ∈ ls, lexemes .code .start "\x22\\012\x22".toList = .ok ls ∧
    l.text = '\x22' :: ("\\012".toList ++ ['\x22']) ∧ isInterpolated l.text = false ∧
      meaning? "\\012".toList = some ['\n'] ∧ value l.text = ['\x00', '1', '2'] :=
  ⟨[⟨[], .quoted, "\x22\\012\x22".toList, .start⟩, ⟨[], .eof, [], ⟨6, 1, 7, 0, false⟩⟩], _,
    .head _, by decide +kernel⟩

end Literals

end ClassEdit.Quoted
