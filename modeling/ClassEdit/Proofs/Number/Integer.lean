import ClassEdit.Number.Literal

/-!
Integers written in base ten. Main statement: the digits of a number are read as the number, if it
fits 63 bits; a zero before other digits, which would change the base, is never written.
-/

namespace ClassEdit.NumberLiteral

theorem isDigit_of_mem_toDigits {n : Nat} {c : Char} (h : c ∈ Nat.toDigits 10 n) :
    c.isDigit = true :=
  Nat.isDigit_of_mem_toDigits (by decide) (by decide) h

theorem toLower_of_isDigit {c : Char} (h : c.isDigit = true) : c.toLower = c := by
  delta Char.toLower
  rw [dif_neg]
  simp only [Char.isDigit, Bool.and_eq_true, decide_eq_true_eq, ge_iff_le,
    UInt32.le_iff_toNat_le] at h ⊢
  have h9 : '9'.val.toNat = 57 := rfl
  have hA : 'A'.val.toNat = 65 := rfl
  omega

theorem digitValue_of_isDigit {c : Char} (h : c.isDigit = true) :
    digitValue c = some (c.toNat - '0'.toNat) ∧ c.toNat - '0'.toNat < 10 := by
  refine ⟨by rw [digitValue, if_pos h], ?_⟩
  simp only [Char.isDigit, Bool.and_eq_true, decide_eq_true_eq] at h
  have h0 : '0'.toNat = 48 := rfl
  have hle : c.toNat ≤ 57 := h.2
  omega

theorem foldlM_digits {cs : List Char} (h : ∀ c ∈ cs, c.isDigit = true) (n : Nat) :
    cs.foldlM (fun n c => (digitValue c).bind fun d => if d < 10 then some (n * 10 + d) else none)
      n =
      some (Nat.ofDigitChars 10 cs n) := by
  induction cs generalizing n with
  | nil => rfl
  | cons c r ih =>
    obtain ⟨hvalue, hlt⟩ := digitValue_of_isDigit (h c (by simp))
    have hrest := ih (fun d hd => h d (by simp [hd])) (n * 10 + (c.toNat - '0'.toNat))
    rw [List.foldlM_cons, hvalue, Option.bind_some, if_pos hlt, Nat.ofDigitChars_cons,
      Nat.mul_comm 10 n]
    exact hrest

theorem readDigits_toDigits (n : Nat) : readDigits 10 (Nat.toDigits 10 n) = some n := by
  have hfold := foldlM_digits (fun _ hc => isDigit_of_mem_toDigits (n := n) hc) 0
  rw [Nat.ofDigitChars_toDigits (by decide) (by decide)] at hfold
  simpa [readDigits] using hfold

/-- A number that is not zero is written without a zero at its front. -/
theorem head?_toDigits {n : Nat} (h : n ≠ 0) : (Nat.toDigits 10 n).head? ≠ some '0' := by
  induction n using Nat.strongRecOn with
  | ind n ih =>
    rw [Nat.toDigits_eq_if (by decide)]
    split
    next hlt => simpa using h
    next hge =>
      have hrest := ih (n / 10) (by omega) (by omega)
      cases hd : Nat.toDigits 10 (n / 10) with
      | nil => simp at hd
      | cons c r => simpa [hd] using hrest

/-- A number is read back from its decimal digits. -/
theorem readInteger_toDigits {n : Nat} (h : n < 0x8000000000000000) :
    readInteger (Nat.toDigits 10 n) = some (Int64.ofNat n) := by
  have hplain : ((Nat.toDigits 10 n).filter (· != '_')).map Char.toLower = Nat.toDigits 10 n := by
    have hdigit : ∀ c ∈ Nat.toDigits 10 n, c.isDigit = true :=
      fun _ hc => isDigit_of_mem_toDigits hc
    have hfilter : (Nat.toDigits 10 n).filter (· != '_') = Nat.toDigits 10 n := by
      refine List.filter_eq_self.2 fun c hc => ?_
      have hne : c ≠ '_' := by
        rintro rfl
        exact absurd (hdigit _ hc) (by decide)
      simpa using hne
    rw [hfilter]
    exact (List.map_congr_left fun c hc => toLower_of_isDigit (hdigit c hc)).trans (List.map_id _)
  unfold readInteger
  rw [hplain]
  by_cases hn : n = 0
  · subst hn
    decide
  · have hhead := head?_toDigits hn
    have hvalue := readDigits_toDigits n
    split
    next hd => simp [hd] at hhead
    next hd => simp [hd] at hhead
    next hd => simp [hd] at hhead
    next hd => simp [hd] at hhead
    next => simp [hvalue, h]

/-- The digits of the value without its sign are read as the value or as its negation. -/
theorem readInteger_natAbs {n : Int64} (h : n ≠ Int64.minValue) :
    readInteger (Nat.toDigits 10 n.toInt.natAbs) = some (if 0 ≤ n.toInt then n else -n) := by
  have hmin : n.toInt ≠ Int64.minValue.toInt := fun he => h (Int64.toInt_inj.1 he)
  have hle : -2 ^ 63 ≤ n.toInt := Int64.le_toInt n
  have hlt : n.toInt < 2 ^ 63 := Int64.toInt_lt n
  have hvalue : Int64.minValue.toInt = -2 ^ 63 := by decide
  rw [readInteger_toDigits (by omega), ← Int64.ofInt_eq_ofNat]
  split
  next hn => rw [Int.natAbs_of_nonneg hn, Int64.ofInt_toInt]
  next hn => rw [Int.ofNat_natAbs_of_nonpos (by omega), Int64.ofInt_neg, Int64.ofInt_toInt]

end ClassEdit.NumberLiteral
