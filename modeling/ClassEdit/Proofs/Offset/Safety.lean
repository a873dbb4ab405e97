import ClassEdit.Proofs.Offset.Source

/-!
Accesses of the readers that go by offsets. They fault where an offset lies outside of the source or
inside of a character, where two of them are out of order, or where a number is negated that has no
negation. Main statement: no source and no code makes them fault.
-/

namespace ClassEdit

open NumberLiteral (integerAt? negate? readInteger integerAt?_eq negate?_eq readInteger_nonneg
  toInt_neg_of_nonneg)
open Scan (lexemesByOffset lexemesByOffset_eq)

/-- The digits of an integer literal are read without a sign, and its value is one that can be
negated. -/
theorem IsWhole.integerAt? {ls : List Lexeme} (h : IsWhole ls) {l : Lexeme} (hl : l ∈ ls)
    (hkind : l.kind = .int) :
    ∃ value, NumberLiteral.integerAt? l.text = some value ∧ ∀ n ∈ value, 0 ≤ n.toInt ∧
      n.toInt ≤ Int64.maxValue.toInt ∧
      negate? n = some (-n) ∧ (-n).toInt = -n.toInt := by
  refine ⟨_, integerAt?_eq (h.isUnsigned hl hkind), fun n hn => ?_⟩
  have hnonneg := readInteger_nonneg hn
  exact ⟨hnonneg, Int64.toInt_le n, negate?_eq hnonneg, toInt_neg_of_nonneg hnonneg⟩

/-- No source faults when it is read as a file, as code or as an expression, and no code when it is
moved right. What faults is a text taken from an offset or between two of them that are no positions
of the text or out of order, a difference that is negative, or an integer literal without a
negation, and there is no such among the lexemes of a source. -/
theorem byOffset_safe :
    (∀ source, SourceFile.byOffset source ≠ .error .fault ∧
      Fragment.byOffset source ≠ .error .fault ∧
      Expr.byOffset source ≠ .error .fault) ∧
    (∀ margin code, reindentByOffset margin code = .ok (reindent margin code)) ∧
    (∀ (s : String) (i j : Nat), ((from? s.toList i).isSome ↔ String.Pos.Raw.IsValid s ⟨i⟩) ∧
      ((cut? s.toList i j).isSome ↔ i ≤ j ∧ String.Pos.Raw.IsValid s ⟨i⟩ ∧
        String.Pos.Raw.IsValid s ⟨j⟩) ∧
      ((sub? j i).isSome ↔ i ≤ j)) ∧
    ∀ mode source ls, lexemesByOffset mode source = .ok ls → ∀ l ∈ ls, l.kind = .int →
      ∃ value, integerAt? l.text = some value ∧ ∀ n ∈ value, 0 ≤ n.toInt ∧
        n.toInt ≤ Int64.maxValue.toInt ∧
        negate? n = some (-n) ∧ (-n).toInt = -n.toInt := by
  refine ⟨fun source => ?_, reindentByOffset_eq, fun s i j =>
    ⟨isSome_from?_iff s i, isSome_cut?_iff s i j, ?_⟩,
    fun mode source ls hls l hl hkind => ?_⟩
  · rw [SourceFile.byOffset_eq, Fragment.byOffset_eq, Expr.byOffset_eq]
    exact ⟨Halt.ofResult_ne (by simp), Halt.ofResult_ne (by simp), Halt.ofResult_ne (by simp)⟩
  · rw [sub?]
    split <;> simp_all
  · rw [lexemesByOffset_eq, Halt.ofResult_eq_ok] at hls
    exact (IsWhole.of_lexemes hls).1.integerAt? hl hkind

/-- The greatest integer that a literal can hold is negated without overflow. -/
theorem byOffset_safe_greatest :
    ∃ ls l, lexemesByOffset .code "-9223372036854775807".toList = .ok ls ∧ l ∈ ls ∧
    l.kind = .int ∧ ∃ value, integerAt? l.text = some value ∧
      ∀ n ∈ value, 0 ≤ n.toInt ∧ n.toInt ≤ Int64.maxValue.toInt ∧ negate? n = some (-n) ∧
        (-n).toInt = -n.toInt := by
  have hls : lexemesByOffset .code "-9223372036854775807".toList =
      .ok [⟨[], .minus, "-".toList, .start⟩,
      ⟨[], .int, "9223372036854775807".toList, ⟨1, 1, 2, 0, false⟩⟩,
        ⟨[], .eof, [], ⟨20, 1, 21, 0, false⟩⟩] := by
    decide +kernel
  have hvalue := byOffset_safe.2.2.2 .code "-9223372036854775807".toList _ hls _
    (.tail _ (.head _)) rfl
  exact ⟨_, _, hls, .tail _ (.head _), rfl, hvalue⟩

end ClassEdit
