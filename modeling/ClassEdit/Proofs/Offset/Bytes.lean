import ClassEdit.Proofs.Token.Places

/-!
Texts by byte offsets. A cut from one offset to another is possible if both lie between
characters and the first is not behind the second. Main statement: these are the cuts at two
positions of the text that are valid.
-/

namespace ClassEdit

def byteSize : List Char → Nat
  | [] => 0
  | c :: cs => c.utf8Size + byteSize cs

/-- The text from an offset on, if the offset lies between characters. -/
def from? : List Char → Nat → Option (List Char)
  | cs, 0 => some cs
  | [], _ + 1 => none
  | c :: cs, n + 1 => if c.utf8Size ≤ n + 1 then from? cs (n + 1 - c.utf8Size) else none

/-- The text up to an offset, if the offset lies between characters. -/
def upTo? : List Char → Nat → Option (List Char)
  | _, 0 => some []
  | [], _ + 1 => none
  | c :: cs, n + 1 =>
      if c.utf8Size ≤ n + 1 then (c :: ·) <$> upTo? cs (n + 1 - c.utf8Size) else none

/-- The text between two offsets, if both lie between characters and are in order. -/
def cut? (cs : List Char) (start stop : Nat) : Option (List Char) :=
  if start ≤ stop then (from? cs start).bind (upTo? · (stop - start)) else none

section Size

variable (a b : List Char) (c : Char)

@[simp] theorem byteSize_nil : byteSize [] = 0 := rfl

@[simp] theorem byteSize_cons : byteSize (c :: a) = c.utf8Size + byteSize a := rfl

@[simp] theorem byteSize_append : byteSize (a ++ b) = byteSize a + byteSize b := by
  induction a with
  | nil => exact (Nat.zero_add _).symm
  | cons c a ih => rw [List.cons_append, byteSize_cons, byteSize_cons, ih, Nat.add_assoc]

theorem utf8ByteSize_ofList (cs : List Char) : (String.ofList cs).utf8ByteSize = byteSize cs := by
  induction cs with
  | nil => rfl
  | cons c cs ih => simp [byteSize_cons, ← ih]

theorem byteSize_eq_zero {cs : List Char} : byteSize cs = 0 ↔ cs = [] := by
  cases cs with
  | nil => simp
  | cons c cs =>
    have hpos := c.utf8Size_pos
    simp only [byteSize_cons, reduceCtorEq, iff_false]
    omega

theorem byteSize_pos {cs : List Char} (h : cs ≠ []) : 0 < byteSize cs :=
  Nat.pos_of_ne_zero fun hzero => h (byteSize_eq_zero.1 hzero)

theorem Position.byte_after_start (cs : List Char) :
    (Position.start.after cs).byte = byteSize cs := by
  rw [byte_after, utf8ByteSize_ofList]
  exact Nat.zero_add _

end Size

section Cut

variable {cs r : List Char} {i j : Nat}

theorem from?_cons (c : Char) (cs : List Char) (n : Nat) :
    from? (c :: cs) (c.utf8Size + n) = from? cs n := by
  obtain ⟨k, hk⟩ := Nat.exists_eq_succ_of_ne_zero (Nat.ne_of_gt c.utf8Size_pos)
  rw [hk, Nat.succ_add, from?, if_pos (by omega)]
  congr 1
  omega

theorem upTo?_cons (c : Char) (cs : List Char) (n : Nat) :
    upTo? (c :: cs) (c.utf8Size + n) = (c :: ·) <$> upTo? cs n := by
  obtain ⟨k, hk⟩ := Nat.exists_eq_succ_of_ne_zero (Nat.ne_of_gt c.utf8Size_pos)
  rw [hk, Nat.succ_add, upTo?, if_pos (by omega)]
  congr 2
  omega

theorem from?_zero (cs : List Char) : from? cs 0 = some cs := by
  cases cs <;> rfl

theorem upTo?_zero (cs : List Char) : upTo? cs 0 = some [] := by
  cases cs <;> rfl

theorem from?_append (a b : List Char) : from? (a ++ b) (byteSize a) = some b := by
  induction a with
  | nil => exact from?_zero b
  | cons c a ih => rw [List.cons_append, byteSize_cons, from?_cons, ih]

theorem upTo?_append (a b : List Char) : upTo? (a ++ b) (byteSize a) = some a := by
  induction a with
  | nil => exact upTo?_zero b
  | cons c a ih =>
    rw [List.cons_append, byteSize_cons, upTo?_cons, ih]
    rfl

theorem cut?_append (a b d : List Char) :
    cut? (a ++ (b ++ d)) (byteSize a) (byteSize a + byteSize b) = some b := by
  rw [cut?, if_pos (Nat.le_add_right _ _), from?_append, Option.bind_some, Nat.add_sub_cancel_left,
    upTo?_append]

/-- A text can be cut at an offset exactly where a character begins. -/
theorem from?_eq_some (h : from? cs i = some r) : ∃ a, cs = a ++ r ∧ i = byteSize a := by
  fun_induction from? cs i with
  | case1 =>
    cases h
    exact ⟨[], rfl, rfl⟩
  | case2 => cases h
  | case3 c cs n hle ih =>
    obtain ⟨a, rfl, hn⟩ := ih h
    refine ⟨c :: a, rfl, ?_⟩
    rw [byteSize_cons, ← hn]
    omega
  | case4 => cases h

/-- What stands before an offset has as many bytes. -/
theorem upTo?_eq_some (h : upTo? cs i = some r) : ∃ b, cs = r ++ b ∧ i = byteSize r := by
  fun_induction upTo? cs i generalizing r with
  | case1 cs =>
    cases h
    exact ⟨cs, rfl, rfl⟩
  | case2 => cases h
  | case3 c cs n hle ih =>
    obtain ⟨r, hr, rfl⟩ := Option.map_eq_some_iff.1 h
    obtain ⟨b, rfl, hn⟩ := ih hr
    refine ⟨b, rfl, ?_⟩
    rw [byteSize_cons, ← hn]
    omega
  | case4 => cases h

/-- An offset between characters is a valid position. -/
theorem isValid_iff (s : String) (i : Nat) :
    String.Pos.Raw.IsValid s ⟨i⟩ ↔ ∃ a b, s.toList = a ++ b ∧ i = byteSize a := by
  rw [String.Pos.Raw.isValid_iff_exists_append]
  constructor
  · rintro ⟨s₁, s₂, rfl, hi⟩
    refine ⟨s₁.toList, s₂.toList, String.toList_append, ?_⟩
    rw [← utf8ByteSize_ofList, String.ofList_toList]
    exact congrArg String.Pos.Raw.byteIdx hi
  · rintro ⟨a, b, hs, rfl⟩
    refine ⟨String.ofList a, String.ofList b, ?_, ?_⟩
    · rw [← String.ofList_append, ← hs, String.ofList_toList]
    · rw [← utf8ByteSize_ofList]
      rfl

/-- A text goes on from each of its positions, and only from there. -/
theorem isSome_from?_iff (s : String) (i : Nat) :
    (from? s.toList i).isSome ↔ String.Pos.Raw.IsValid s ⟨i⟩ := by
  rw [isValid_iff]
  constructor
  · intro h
    obtain ⟨r, hr⟩ := Option.isSome_iff_exists.1 h
    obtain ⟨a, hs, hi⟩ := from?_eq_some hr
    exact ⟨a, r, hs, hi⟩
  · rintro ⟨a, b, hs, rfl⟩
    rw [hs, from?_append]
    rfl

/-- A text can be cut between two of its positions, and only there. -/
theorem isSome_cut?_iff (s : String) (i j : Nat) : (cut? s.toList i j).isSome ↔
    i ≤ j ∧ String.Pos.Raw.IsValid s ⟨i⟩ ∧ String.Pos.Raw.IsValid s ⟨j⟩ := by
  rw [isValid_iff, isValid_iff]
  constructor
  · intro h
    obtain ⟨r, hr⟩ := Option.isSome_iff_exists.1 h
    unfold cut? at hr
    split at hr
    next hle =>
      obtain ⟨rest, hrest, hr⟩ := Option.bind_eq_some_iff.1 hr
      obtain ⟨a, hs, hi⟩ := from?_eq_some hrest
      obtain ⟨b, rfl, hj⟩ := upTo?_eq_some hr
      refine ⟨hle, ⟨a, _, hs, hi⟩, a ++ r, b, by rw [hs, List.append_assoc], ?_⟩
      rw [byteSize_append]
      omega
    next => cases hr
  · rintro ⟨hle, ⟨a, b, hs, rfl⟩, a', b', hs', rfl⟩
    -- both cut the same text, and the second not before the first
    obtain ⟨d, rfl⟩ : ∃ d, a' = a ++ d := by
      rcases List.append_eq_append_iff.1 (hs.symm.trans hs') with ⟨d, rfl, -⟩ | ⟨d, rfl, -⟩
      · exact ⟨d, rfl⟩
      · have hd : d = [] := byteSize_eq_zero.1 (by rw [byteSize_append] at hle; omega)
        exact ⟨[], by rw [hd, List.append_nil, List.append_nil]⟩
    rw [hs', List.append_assoc, byteSize_append, cut?_append]
    rfl

end Cut

end ClassEdit
