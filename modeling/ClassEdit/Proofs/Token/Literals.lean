import ClassEdit.Proofs.Text.Returns
import ClassEdit.Proofs.Token.Scanned

/-!
The literals among the lexemes of a source. A literal ends with its quote or its label. Main
statement: a literal that is moved left loses nothing but carriage returns before its newlines.
-/

namespace ClassEdit

namespace Lexeme

/-- The texts of the literals among lexemes. -/
def literals (ls : List Lexeme) : List (List Char) :=
  (ls.filter (·.kind.isLiteral)).map (·.text)

@[simp] theorem literals_nil : literals [] = [] := rfl

theorem literals_cons (l : Lexeme) (ls : List Lexeme) :
    literals (l :: ls) = (if l.kind.isLiteral then [l.text] else []) ++ literals ls := by
  rw [literals, List.filter_cons]
  split <;> rfl

theorem literals_append (ls ms : List Lexeme) :
    literals (ls ++ ms) = literals ls ++ literals ms := by
  simp [literals]

theorem literals_of_plain {ls : List Lexeme} (h : ∀ l ∈ ls, l.kind.isLiteral = false) :
    literals ls = [] := by
  rw [literals, List.filter_eq_nil_iff.2 fun l hl => by rw [h l hl]; exact Bool.false_ne_true]
  rfl

theorem literals_of_comments {ls : List Lexeme} (h : ∀ l ∈ ls, l.kind = .comment) :
    literals ls = [] :=
  literals_of_plain fun l hl => by rw [h l hl]; rfl

end Lexeme

namespace Scan

variable {mode : Mode} {kind : TokenKind} {x t d out follow : List Char} {b b' : Bool}

/-- A quoted literal ends with its quote. -/
theorem getLast?_of_quotedLength {quote : Char} (h : quotedLength quote (t ++ d) = .ok t.length) :
    t.getLast? = some quote := by
  induction hlength : t.length using Nat.strongRecOn generalizing t with
  | ind n ih =>
    subst hlength
    cases t with
    | nil => exact absurd (quotedLength_pos h) (Nat.lt_irrefl 0)
    | cons c r =>
      by_cases hc : c = '\\'
      · subst hc
        cases r with
        | nil =>
          cases d with
          | nil => cases h
          | cons c d =>
            obtain ⟨m, -, hm⟩ := map_eq_ok h
            cases hm
        | cons c r =>
          have hshort : r.length < ('\\' :: c :: r).length := Nat.lt_add_of_pos_right Nat.two_pos
          rw [List.getLast?_cons, List.getLast?_cons, ih _ hshort (quotedLength_escape.1 h) rfl]
          rfl
      · by_cases hquote : c = quote
        · subst hquote
          rw [List.cons_append, quotedLength_cons hc, if_pos rfl] at h
          have hnil : r = [] := List.eq_nil_of_length_eq_zero (Nat.succ.inj (Except.ok.inj h)).symm
          rw [hnil]
          rfl
        · rw [List.getLast?_cons,
            ih _ (Nat.lt_succ_self _) ((quotedLength_cons_of_ne hc hquote).1 h) rfl]
          rfl

/-- The body of a heredoc ends with its label. -/
theorem getLast?_of_heredocBodyLength? {label : List Char} (hlabel : label ≠ [])
    (h : heredocBodyLength? label (t ++ d) = some t.length) : t.getLast? = label.getLast? := by
  have hsome := List.getLast?_eq_some_getLast hlabel
  induction t with
  | nil => exact absurd (heredocBodyLength?_pos h) (Nat.lt_irrefl 0)
  | cons c r ih =>
    by_cases hcloses : c = '\n' ∧ closesLine label (r ++ d) = true
    · obtain ⟨rfl, hcloses⟩ := hcloses
      obtain ⟨margins, rfl, -, -⟩ := closing_of_heredocBodyLength? hcloses h
      rw [List.getLast?_cons, List.getLast?_append, hsome]
      rfl
    · rw [List.getLast?_cons, ih ((heredocBodyLength?_eq_some_succ (by simpa using hcloses)).1 h),
        hsome]
      rfl

/-- A heredoc ends with a character of a name. -/
theorem IsHeredoc.exists_getLast? (h : IsHeredoc d t) :
    ∃ c, t.getLast? = some c ∧ isNamePart c = true := by
  cases h with
  | @mk _ _ label _ _ _ hlabel _ hbody =>
    have hne : label ≠ [] := by
      rintro rfl
      cases hlabel
    have hlast := getLast?_of_heredocBodyLength? hne hbody
    rw [List.getLast?_eq_some_getLast hne] at hlast
    refine ⟨_, ?_, List.all_eq_true.1 (Bool.and_eq_true_iff.1 hlabel).2 _ (List.getLast_mem hne)⟩
    simp only [List.getLast?_append, hlast, Option.some_or]

theorem Begins.isToken_of_literal (h : Begins mode kind x d) (hliteral : kind.isLiteral = true) :
    IsToken kind x d := by
  cases mode with
  | code => exact begins_code_iff.1 h
  | html => rcases begins_html_iff.1 h with ⟨rfl, -⟩ | ⟨rfl, -⟩ <;> cases hliteral

/-- A literal does not end with a carriage return. -/
theorem IsToken.getLast?_of_literal (h : IsToken kind x d) (hliteral : kind.isLiteral = true) :
    x.getLast? ≠ some '\r' := by
  obtain ⟨c, t, rfl, -, hl⟩ := h
  have hspansLines : kind.spansLines = true := by cases kind <;> first | rfl | cases hliteral
  obtain ⟨t', e, hr, hn, hspans⟩ := spans_of_codeLexeme (hl .start) hspansLines
  obtain ⟨rfl, rfl⟩ := List.append_inj hr hn
  cases hspans with
  | line => cases hliteral
  | block => cases hliteral
  | heredoc ht =>
    obtain ⟨c, hlast, hc⟩ := ht.exists_getLast?
    rw [List.getLast?_cons, List.getLast?_cons, List.getLast?_cons, hlast]
    exact fun h => (plain_of_isNamePart hc).1 (Option.some.inj h)
  | quoted hc ht =>
    rw [List.getLast?_cons, getLast?_of_quotedLength ht]
    rcases hc with rfl | rfl | rfl <;> decide

/-- A literal that is moved left loses nothing but carriage returns before its newlines. -/
theorem Begins.losesReturns (h : Begins mode kind x d) (hliteral : kind.isLiteral = true)
    (hmoved : MovedLeft follow b (x.map (·, true)) out b') : LosesReturns x out := by
  have htoken := h.isToken_of_literal hliteral
  have hlast := htoken.getLast?_of_literal hliteral
  obtain ⟨c, t, rfl, hc, -⟩ := htoken
  obtain ⟨out, rfl, hrest⟩ := hmoved.of_cons hc
  refine .keep c (.of_movedLeft hrest fun hend => hlast ?_)
  rw [List.getLast?_cons, hend]
  rfl

end Scan

end ClassEdit
