import ClassEdit.Number.Binary64

/-!
Number literals of a program. Underscores between digits count for nothing. Main statement: an
integer literal is never negative, so its negation does not overflow.
-/

namespace ClassEdit.NumberLiteral

/-- The value of a digit in bases up to thirty-six, in small letters. -/
def digitValue (c : Char) : Option Nat :=
  if c.isDigit then some (c.toNat - '0'.toNat)
  else if 'a' ≤ c && c ≤ 'z' then some (c.toNat - 'a'.toNat + 10)
  else none

/-- The value of at least one digit, all of them digits of the base. -/
def readDigits (base : Nat) (cs : List Char) : Option Nat :=
  if cs.isEmpty then none
  else
    cs.foldlM (fun n c => (digitValue c).bind fun d => if d < base then some (n * base + d)
      else none) 0

/-- The value of an integer literal: hexadecimal, binary, octal (after `0o` or after a zero alone)
or decimal. None if a digit does not belong to the base or the value does not fit 63 bits. -/
def readInteger (text : List Char) : Option Int64 :=
  let value := match (text.filter (· != '_')).map Char.toLower with
    | '0' :: 'x' :: ds => readDigits 16 ds
    | '0' :: 'b' :: ds => readDigits 2 ds
    | '0' :: 'o' :: ds => readDigits 8 ds
    | '0' :: d :: ds => readDigits 8 (d :: ds)
    | ds => readDigits 10 ds
  value.bind fun n => if n < 0x8000000000000000 then some (Int64.ofNat n) else none

/-- The value of a float literal, to the nearest binary64 number: digits, a point with digits, an
exponent. -/
def readFloat (text : List Char) : Binary64 :=
  let cs := text.filter (· != '_')
  let whole := cs.takeWhile Char.isDigit
  let afterWhole := cs.drop whole.length
  let places := match afterWhole with
    | '.' :: r => r.takeWhile Char.isDigit
    | _ => []
  let afterPlaces := match afterWhole with
    | '.' :: r => r.drop places.length
    | r => r
  let power : Int := match afterPlaces with
    | _ :: '-' :: r => -((readDigits 10 r).getD 0 : Nat)
    | _ :: '+' :: r => (readDigits 10 r).getD 0
    | _ :: r => (readDigits 10 r).getD 0
    | [] => 0
  Binary64.ofDecimal ((readDigits 10 (whole ++ places)).getD 0) (power - places.length)

theorem readInteger_nonneg {text : List Char} {n : Int64} (h : readInteger text = some n) :
    0 ≤ n.toInt := by
  unfold readInteger at h
  obtain ⟨v, -, h⟩ := Option.bind_eq_some_iff.1 h
  split at h
  next hv =>
    cases h
    rw [Int64.toInt_ofNat_of_lt hv]
    exact Int.natCast_nonneg v
  next => cases h

end ClassEdit.NumberLiteral
