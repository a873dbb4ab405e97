/-!
IEEE 754 binary64 numbers as their bits, so that all of their arithmetic here is arithmetic of
natural numbers. A finite number is `significand · 2 ^ exponent`; `ofDecimal` is the number nearest
to a decimal, of two equally near ones the one with the even significand.
-/

namespace ClassEdit

/-- A binary64 number: the sign, eleven bits of exponent, fifty-two bits of fraction. -/
structure Binary64 where
  bits : UInt64
deriving DecidableEq

namespace Binary64

def isNegative (x : Binary64) : Bool :=
  0x8000000000000000 ≤ x.bits.toNat

/-- The least significand of a number that is not too small for a leading bit of its own. -/
def leadingBit : Nat := 0x10000000000000

def biasedExponent (x : Binary64) : Nat :=
  x.bits.toNat / leadingBit % 2048

def fraction (x : Binary64) : Nat :=
  x.bits.toNat % leadingBit

def isFinite (x : Binary64) : Bool :=
  x.biasedExponent != 2047

def isNaN (x : Binary64) : Bool :=
  !x.isFinite && x.fraction != 0

def isZero (x : Binary64) : Bool :=
  x.biasedExponent == 0 && x.fraction == 0

/-- The sign turned round, of every number and of what is no number. -/
def neg (x : Binary64) : Binary64 :=
  ⟨x.bits ^^^ 0x8000000000000000⟩

/-- Equality of the numbers and not of the bits: the two zeros are equal, and what is no
number equals nothing. -/
def numEq (x y : Binary64) : Bool :=
  !x.isNaN && !y.isNaN && (x.bits == y.bits || (x.isZero && y.isZero))

/-- The bits where what is no number is written in one way only. -/
def canonicalBits (x : Binary64) : UInt64 :=
  if x.isNaN then 0x7FF8000000000000 else x.bits

def significand (x : Binary64) : Nat :=
  if x.biasedExponent = 0 then x.fraction else x.fraction + leadingBit

def exponent (x : Binary64) : Int :=
  (max x.biasedExponent 1 : Nat) - 1075

def infinity : Binary64 := ⟨0x7FF0000000000000⟩

/-- The quotient to the nearest whole number, a half to the even neighbour. -/
def divNearestEven (n d : Nat) : Nat :=
  let q := n / d
  let r := n % d
  if 2 * r < d then q else if d < 2 * r then q + 1 else q + q % 2

/-- The number whose significand times a power of two is nearest to `n / d`, for
positive `n` and `d`. -/
def ofRatio (n d : Nat) : Binary64 :=
  let guess : Int := (n.log2 : Int) - d.log2
  -- the exponent of the greatest power of two that is not above the ratio
  let log := if d * Nat.pow 2 guess.toNat ≤ n * Nat.pow 2 (-guess).toNat then guess else guess - 1
  let e := max (log - 52) (-1074)
  let m := divNearestEven (n * Nat.pow 2 (-e).toNat) (d * Nat.pow 2 e.toNat)
  -- a significand that was rounded up to twice the leading bit carries into the exponent by itself
  let raw := if m < leadingBit then m else (e + 1075).toNat * leadingBit + (m - leadingBit)
  if raw < infinity.bits.toNat then ⟨raw.toUInt64⟩ else infinity

/-- The number nearest to `digits · 10 ^ exponent`. Far outside of the range of exponents the answer
is zero or infinity without a power being computed. -/
def ofDecimal (digits : Nat) (exponent : Int) : Binary64 :=
  if digits = 0 then ⟨0⟩
  else
    let size := (Nat.toDigits 10 digits).length + exponent
    if 400 < size then infinity
    else if size < -400 then ⟨0⟩
    else ofRatio (digits * Nat.pow 10 exponent.toNat) (Nat.pow 10 (-exponent).toNat)

end Binary64

end ClassEdit
