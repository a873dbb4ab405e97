import ClassEdit.Number.Literal
import ClassEdit.Proofs.Offset.Tape

/-!
Integer literals read with a sign, as digits of a base are read that may have one. Main statement:
an integer among the lexemes of a source has no sign, so that its value lies between zero and the
greatest integer and can be negated.
-/

namespace ClassEdit

open Scan (isNamePart)

namespace NumberLiteral

/-- The value of at least one digit behind an optional sign, if it fits 64 bits. -/
def readSigned (base : Nat) : List Char → Option Int64
  | '-' :: ds =>
      (readDigits base ds).bind fun n => if n ≤ 0x8000000000000000
        then some (-Int64.ofNat n) else none
  | '+' :: ds =>
      (readDigits base ds).bind fun n => if n < 0x8000000000000000
        then some (Int64.ofNat n) else none
  | ds =>
      (readDigits base ds).bind fun n => if n < 0x8000000000000000
        then some (Int64.ofNat n) else none

/-- The value of an integer literal. An octal number is cut off behind its zero. -/
def integerAt? (text : List Char) : Option (Option Int64) :=
  let lower := (text.filter (· != '_')).map Char.toLower
  match lower with
  | '0' :: 'x' :: ds => some (readSigned 16 ds)
  | '0' :: 'b' :: ds => some (readSigned 2 ds)
  | '0' :: 'o' :: ds => some (readSigned 8 ds)
  | '0' :: _ :: _ => readSigned 8 <$> from? lower 1
  | ds => some (readSigned 10 ds)

def negate? (n : Int64) : Option Int64 :=
  if n = Int64.minValue then none else some (-n)

theorem negate?_eq {n : Int64} (h : 0 ≤ n.toInt) : negate? n = some (-n) := by
  refine if_neg ?_
  rintro rfl
  exact absurd h (by decide)

theorem toInt_neg_of_nonneg {n : Int64} (h : 0 ≤ n.toInt) : (-n).toInt = -n.toInt := by
  have hlt := n.toInt_lt
  rw [Int64.toInt_neg]
  exact Int.bmod_eq_of_le (by omega) (by omega)

def IsUnsigned (cs : List Char) : Prop :=
  ∀ c ∈ cs, c ≠ '-' ∧ c ≠ '+'

theorem readSigned_eq {base : Nat} {cs : List Char} (h : IsUnsigned cs) : readSigned base cs =
    (readDigits base cs).bind fun n => if n < 0x8000000000000000 then some (Int64.ofNat n)
      else none := by
  unfold readSigned
  split
  next => exact absurd rfl (h '-' List.mem_cons_self).1
  next => exact absurd rfl (h '+' List.mem_cons_self).2
  next => rfl

theorem toLower_eq_of_not_lower {c d : Char} (hd : ¬('a' ≤ d ∧ d ≤ 'z')) (h : c.toLower = d) :
    c = d := by
  delta Char.toLower at h
  split at h
  next hupper =>
    subst h
    have hle : 65 ≤ c.val.toNat ∧ c.val.toNat ≤ 90 := hupper
    have hshift : (c.val + ('a'.val - 'A'.val)).toNat = c.val.toNat + 32 := by
      have hdifference : ('a'.val - 'A'.val).toNat = 32 := by decide
      rw [UInt32.toNat_add, hdifference]
      exact Nat.mod_eq_of_lt (by omega)
    refine absurd ⟨?_, ?_⟩ hd
    · show 97 ≤ (c.val + ('a'.val - 'A'.val)).toNat
      omega
    · show (c.val + ('a'.val - 'A'.val)).toNat ≤ 122
      omega
  next => exact h

/-- Digits without a sign are read the same by the parser of the standard library. -/
theorem integerAt?_eq {text : List Char} (h : IsUnsigned text) :
    integerAt? text = some (readInteger text) := by
  have hlower : IsUnsigned ((text.filter (· != '_')).map Char.toLower) := by
    intro c hc
    obtain ⟨d, hd, rfl⟩ := List.mem_map.1 hc
    have hd := h d (List.mem_filter.1 hd).1
    refine ⟨fun hlow => hd.1 (toLower_eq_of_not_lower (by decide) hlow),
      fun hlow => hd.2 (toLower_eq_of_not_lower (by decide) hlow)⟩
  have htail {c : Char} {cs : List Char} (hcs : IsUnsigned (c :: cs)) : IsUnsigned cs :=
    fun d hd => hcs d (List.mem_cons_of_mem c hd)
  unfold integerAt? readInteger
  dsimp only
  generalize (text.filter (· != '_')).map Char.toLower = lower at hlower
  split
  next => exact congrArg some (readSigned_eq (htail (htail hlower)))
  next => exact congrArg some (readSigned_eq (htail (htail hlower)))
  next => exact congrArg some (readSigned_eq (htail (htail hlower)))
  next d ds hx hb ho =>
    have hfrom := from?_append ['0'] (d :: ds)
    have hsize : byteSize ['0'] = 1 := rfl
    rw [hsize, List.singleton_append] at hfrom
    have hvalue := @readSigned_eq 8 _ (htail hlower)
    refine (congrArg (readSigned 8 <$> ·) hfrom).trans ((congrArg some hvalue).trans ?_)
    simp_all
  next =>
    refine (congrArg some (readSigned_eq hlower)).trans ?_
    simp_all

end NumberLiteral

open NumberLiteral (IsUnsigned)

namespace Scan

theorem isUnsigned_of_forall {p : Char → Bool} (hminus : p '-' = false) (hplus : p '+' = false)
    {cs : List Char} (h : ∀ c ∈ cs, p c = true) : IsUnsigned cs := by
  intro c hc
  have hc := h c hc
  constructor
  · rintro rfl
    rw [hminus] at hc
    cases hc
  · rintro rfl
    rw [hplus] at hc
    cases hc

theorem isUnsigned_takeWhile {p : Char → Bool} (hminus : p '-' = false) (hplus : p '+' = false)
    (cs : List Char) :
    IsUnsigned (cs.take (cs.takeWhile p).length) := by
  rw [← List.prefix_iff_eq_take.1 (List.takeWhile_prefix p)]
  exact isUnsigned_of_forall hminus hplus fun c hc => List.all_eq_true.1 List.all_takeWhile c hc

theorem isUnsigned_of_decimalExtent {cs : List Char} {n : Nat} (h : decimalExtent cs = (.int, n)) :
    IsUnsigned (cs.take n) := by
  have hform : ∃ places power, decimalExtent cs =
      (if places + power = 0 then .int else .float, digitsLength cs + places + power) := ⟨_, _, rfl⟩
  obtain ⟨places, power, hform⟩ := hform
  rw [hform] at h
  obtain ⟨hkind, rfl⟩ := Prod.mk.inj h
  split at hkind
  next hzero =>
    rw [Nat.add_assoc, hzero]
    exact isUnsigned_takeWhile (p := fun c => c.isDigit || c == '_') (by decide) (by decide) cs
  next => cases hkind

/-- A number in a source has no sign. -/
theorem isUnsigned_of_numberExtent {cs : List Char} {n : Nat} (h : numberExtent cs = (.int, n)) :
    IsUnsigned (cs.take n) := by
  unfold numberExtent at h
  split at h
  next c r =>
    split at h
    next hbase =>
      obtain ⟨-, rfl⟩ := Prod.mk.inj h
      have hdigits : IsUnsigned (r.take (r.takeWhile fun d => isHexDigit d || d == '_').length) :=
        isUnsigned_takeWhile (p := fun d => isHexDigit d || d == '_') (by decide) (by decide) r
      have hbegins : IsUnsigned ['0', c] := by
        refine isUnsigned_of_forall (p := fun d => d == '0' || "xXbBoO".toList.contains d)
          (by decide) (by decide) ?_
        simp at hbase ⊢
        exact .inr hbase
      intro d hd
      rw [Nat.add_comm] at hd
      rcases List.mem_append.1 (show d ∈ ['0', c] ++ r.take _ from hd) with hd | hd
      · exact hbegins d hd
      · exact hdigits d hd
    next => exact isUnsigned_of_decimalExtent h
  next => exact isUnsigned_of_decimalExtent h

/-- An integer among the lexemes of code goes as far as the extent of a number says. -/
theorem numberExtent_of_codeLexeme {p : Position} {c : Char} {r : List Char} {n : Nat}
    (h : codeLexeme p c r = .ok (.int, n)) : numberExtent (c :: r) = (.int, n + 1) := by
  have hrule := (laterRule_of_codeLexeme h).resolve_left (by decide)
  generalize hkind : TokenKind.int = kind at hrule
  cases hrule with
  | var | word | quoted => cases hkind
  | number _ hn => exact Prod.ext rfl hn
  | operator ho =>
    have hkinds : ∀ o ∈ operators, o.2 ≠ .int := by decide
    exact absurd hkind.symm (hkinds _ ho)

end Scan

/-- The text of an integer has no sign, since a sign is a token of its own. -/
theorem IsWhole.isUnsigned {ls : List Lexeme} (h : IsWhole ls) {l : Lexeme} (hl : l ∈ ls)
    (hkind : l.kind = .int) :
    IsUnsigned l.text := by
  obtain ⟨a, b, rfl⟩ := List.append_of_mem hl
  have hne : b ≠ [] := by
    rcases (h.head rfl).2 with ⟨heof, -⟩ | ⟨-, -, hne⟩
    · rw [hkind] at heof
      cases heof
    · exact hne
  obtain ⟨mode, h⟩ := h
  obtain ⟨mode', h⟩ := h.of_append (List.cons_ne_nil _ _)
  obtain ⟨d, -, -, ⟨c, t, htext, -, hbegins⟩, -⟩ := h.uncons hne
  have hlexeme := hbegins .start
  rw [hkind] at hlexeme
  cases mode' with
  | html =>
    have hint := (Prod.mk.inj (Except.ok.inj hlexeme)).1
    cases htag : Scan.atOpenTag (c :: (t ++ d)) with
    | false => rw [htag] at hint; cases hint
    | true => rw [htag] at hint; cases hint
  | code =>
    have hunsigned := Scan.isUnsigned_of_numberExtent (Scan.numberExtent_of_codeLexeme hlexeme)
    rwa [List.take_succ_cons, List.take_left, ← htext] at hunsigned

end ClassEdit
