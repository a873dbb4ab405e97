import Mathlib.Data.List.Lex
import Mathlib.Tactic.SplitIfs

/-!
The order of texts and the order of their bytes. In UTF-8 the bytes of a character begin with a mark
of how many they are, and its digits follow, the highest first. Main statement: a text that is
smaller by its characters is smaller by its bytes.
-/

namespace ClassEdit

def utf8Bytes (s : String) : List UInt8 :=
  s.toUTF8.data.toList

/-- The bytes of two characters differ, and those of the smaller one are smaller where they first
do, whatever follows them. -/
theorem utf8EncodeChar_append_lt {c d : Char} (h : c < d) (r s : List UInt8) :
    String.utf8EncodeChar c ++ r < String.utf8EncodeChar d ++ s := by
  have hlt : c.val.toNat < d.val.toNat := UInt32.lt_iff_toNat_lt.1 h
  have hd : d.val.toNat < 0x110000 := by
    rcases d.valid with hd | hd
    · omega
    · omega
  unfold String.utf8EncodeChar
  dsimp only
  generalize c.val.toNat = v at hlt
  generalize d.val.toNat = w at hlt hd
  -- the bytes hold the digits to the base 64
  have hdigits (n : Nat) : n / 4096 = n / 64 / 64 ∧ n / 262144 = n / 64 / 64 / 64 := by omega
  split_ifs
  all_goals
    simp only [List.cons_append, List.nil_append, List.cons_lt_cons_iff, UInt8.lt_iff_toNat_lt,
      ← UInt8.toNat_inj, UInt8.toNat_ofNat', (hdigits _).1, (hdigits _).2]
    omega

/-- Texts are ordered as their bytes are. -/
theorem flatMap_utf8EncodeChar_lt {a b : List Char} (h : a < b) :
    a.flatMap String.utf8EncodeChar < b.flatMap String.utf8EncodeChar := by
  induction a generalizing b with
  | nil =>
    cases b with
    | nil => cases h
    | cons d b =>
      rw [List.flatMap_nil, List.flatMap_cons]
      cases hbytes : String.utf8EncodeChar d with
      | nil => exact absurd hbytes String.utf8EncodeChar_ne_nil
      | cons x bytes => exact List.nil_lt_cons _ _
  | cons c a ih =>
    cases b with
    | nil => cases h
    | cons d b =>
      rw [List.flatMap_cons, List.flatMap_cons]
      rcases List.cons_lt_cons_iff.1 h with hlt | ⟨rfl, hlt⟩
      · exact utf8EncodeChar_append_lt hlt _ _
      · exact List.Lex.append_left _ (ih hlt) _

/-- Of two texts the smaller one has the smaller bytes. -/
theorem utf8Bytes_lt {a b : String} (h : a < b) : utf8Bytes a < utf8Bytes b := by
  have hbytes (s : String) : utf8Bytes s = s.toList.flatMap String.utf8EncodeChar := by
    rw [← String.ofList_toList (s := s), utf8Bytes, String.toList_ofList]
    exact List.toList_data_toByteArray
  rw [hbytes, hbytes]
  exact flatMap_utf8EncodeChar_lt (String.lt_iff.1 h)

end ClassEdit
