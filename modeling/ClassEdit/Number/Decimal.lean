import ClassEdit.Number.Binary64

/-!
Decimal texts of binary64 numbers. A text has the fewest digits that read back as the number; among
the decimals with that many digits it is the nearest one, and the greater one of two equally near.
What a text looks like besides its digits is a `FloatStyle`.
-/

namespace ClassEdit

/-- The number `digits · 10 ^ exponent`. -/
structure Decimal where
  digits : Nat
  exponent : Int
deriving DecidableEq

namespace Decimal

/-- Takes zeros off the end of the digits; the fuel is the number of digits. -/
def dropZeros : Nat → Nat → Int → Decimal
  | 0, n, e => ⟨n, e⟩
  | fuel + 1, n, e => if n % 10 = 0 && n != 0 then dropZeros fuel (n / 10) (e + 1) else ⟨n, e⟩

/-- The decimals with `count` digits and more, up to seventeen digits, tried in turn. The number
is `n / d`, the decimals that read back lie between `lo / d` and `hi / d`, and its first digit
stands for `10 ^ top`. -/
def search (n d lo hi : Nat) (closed : Bool) (top : Int) (count : Nat) : Nat → Decimal
  | 0 => ⟨n / d, 0⟩
  | tries + 1 =>
    let grid : Int := top + 1 - count
    let up := Nat.pow 10 (-grid).toNat
    let unit := d * Nat.pow 10 grid.toNat
    let below := n * up / unit
    let rest := n * up % unit
    let belowFits := rest == 0 || lo * up < below * unit || (closed && lo * up == below * unit)
    let above := (below + 1) * unit
    let aboveFits := above < hi * up || (closed && above == hi * up)
    if belowFits && (!aboveFits || 2 * rest < unit) then dropZeros 17 below grid
    else if aboveFits then dropZeros 17 (below + 1) grid
    else search n d lo hi closed top (count + 1) tries

/-- The exponent of the greatest power of ten that is not above `n / d`. -/
def logTen (n d : Nat) : Int :=
  if d ≤ n then (Nat.toDigits 10 (n / d)).length - 1
  else
    let k := (Nat.toDigits 10 (d / n)).length
    if d ≤ n * Nat.pow 10 (k - 1) then 1 - (k : Int) else -(k : Int)

/-- The fewest digits that read back as the number without its sign. A number whose significand is
the least one has a nearer neighbour below it than above it. -/
def shortest (x : Binary64) : Decimal :=
  let m := x.significand
  if m = 0 then ⟨0, 0⟩
  else
    let e := x.exponent - 2
    let up := Nat.pow 2 e.toNat
    let d := Nat.pow 2 (-e).toNat
    let lo := if m = Binary64.leadingBit then 4 * m - 1 else 4 * m - 2
    search (4 * m * up) d (lo * up) ((4 * m + 2) * up) (m % 2 == 0) (logTen (4 * m * up) d) 1 17

end Decimal

/-- How a float is written. A number whose first digit stands for `10 ^ e` is written with its
digits in their places if `e` is at least `positionalFrom` and less than `positionalBelow`,
else with an exponent. -/
structure FloatStyle where
  positionalFrom : Option Int
  positionalBelow : Option Int
  /-- A whole number in its places still shows `.0`. -/
  keepsPoint : Bool

namespace FloatStyle

/-- A value as it is shown: every digit in its place. -/
def plain : FloatStyle := ⟨none, none, false⟩

/-- A literal of a program: it always has a point or an exponent, so that it reads back as a
float. -/
def literal : FloatStyle := ⟨none, some 15, true⟩

/-- A value as it is inspected: an exponent below a ten-thousandth and from ten to the sixteenth
on. -/
def inspected : FloatStyle := ⟨some (-4), some 16, true⟩

def zeros (n : Nat) : String :=
  String.ofList (List.replicate n '0')

/-- The digits in their places. -/
def positional (keepsPoint : Bool) (x : Decimal) : String :=
  let ds := Nat.toDigits 10 x.digits
  let point : Int := ds.length + x.exponent
  if 0 ≤ x.exponent then
    String.ofList ds ++ zeros x.exponent.toNat ++ (if keepsPoint then ".0" else "")
  else if 0 < point then
    String.ofList (ds.take point.toNat) ++ "." ++ String.ofList (ds.drop point.toNat)
  else "0." ++ zeros (-point).toNat ++ String.ofList ds

/-- One digit before the point, the others after it, and the power of ten. -/
def scientific (x : Decimal) : String :=
  let ds := Nat.toDigits 10 x.digits
  let top : Int := ds.length + x.exponent - 1
  let more := ds.drop 1
  String.ofList (ds.take 1) ++ (if more.isEmpty then "" else "." ++ String.ofList more) ++ "e" ++
    toString top

def isPositional (style : FloatStyle) (x : Decimal) : Bool :=
  let top : Int := (Nat.toDigits 10 x.digits).length + x.exponent - 1
  x.digits == 0 || (style.positionalFrom.all (· ≤ top) && style.positionalBelow.all (top < ·))

/-- The text of a number. The sign of zero shows, that of what is no number does not. -/
def write (style : FloatStyle) (x : Binary64) : String :=
  if x.isNaN then "NaN"
  else
    let sign := if x.isNegative then "-" else ""
    if !x.isFinite then sign ++ "inf"
    else
      let decimal := Decimal.shortest x
      sign ++
        if style.isPositional decimal then positional style.keepsPoint decimal
          else scientific decimal

end FloatStyle

end ClassEdit
