/-
  Double-precision numbers by bit pattern, with their rounding done in exact natural-number
  arithmetic.

  * `Double.mantissa` and `Double.scale`: a finite double is `mantissa * 2 ^ scale`.
  * `Double.nearest num den`: the non-negative double nearest to `num / den`, a tie to the even
    mantissa. Every rounding of the library goes through it.
  * `Double.ofDecimal?`: the double that a decimal significand and exponent denote, computed with
    one rounded product or quotient by a rounded power of ten.
-/

namespace BlockScript

/-- A double-precision number, held as its 64-bit pattern. -/
structure Double where
  bits : UInt64
deriving DecidableEq, Repr

namespace Double

/-! ## Reading the pattern -/

/-- The sign bit. -/
def negative (d : Double) : Bool := Nat.pow 2 63 ≤ d.bits.toNat

/-- The pattern without its sign bit. -/
def magnitude (d : Double) : Nat := d.bits.toNat % Nat.pow 2 63

/-- The 11-bit exponent field. -/
def exponentField (d : Double) : Nat := d.magnitude / Nat.pow 2 52

/-- The 52-bit fraction field. -/
def fractionField (d : Double) : Nat := d.magnitude % Nat.pow 2 52

def isNaN (d : Double) : Bool := d.exponentField == 2047 && d.fractionField != 0

def isInfinite (d : Double) : Bool := d.exponentField == 2047 && d.fractionField == 0

def isZero (d : Double) : Bool := d.magnitude == 0

/-- The integer `m` with `|d| = m * 2 ^ d.scale`. -/
def mantissa (d : Double) : Nat :=
  if d.exponentField = 0 then d.fractionField else Nat.pow 2 52 + d.fractionField

/-- The power of two that one unit of the mantissa stands for. -/
def scale (d : Double) : Int :=
  if d.exponentField = 0 then -1074 else (d.exponentField : Int) - 1075

/-! ## Rounding -/

/-- `num / den` as an integer, a half going to the even neighbour. -/
def roundQuotient (num den : Nat) : Nat :=
  let quotient := num / den
  let rest := num % den
  if 2 * rest < den then quotient
  else if den < 2 * rest then quotient + 1
  else quotient + quotient % 2

/-- `⌊log₂ (num / den)⌋` for positive `num` and `den`. -/
def floorLog2 (num den : Nat) : Int :=
  let guess : Int := (num.log2 : Int) - den.log2
  if den * Nat.pow 2 guess.toNat ≤ num * Nat.pow 2 (-guess).toNat then guess else guess - 1

/-- The pattern of positive infinity. -/
def infinityPattern : Nat := 2047 * Nat.pow 2 52

/-- The non-negative double nearest to `num / den`. A mantissa of `2 ^ 53` carries into the
    exponent field by itself, and what lies beyond the largest double is infinity. -/
def nearest (num den : Nat) : Double :=
  if num = 0 then ⟨0⟩
  else
    let unit : Int := max (floorLog2 num den - 52) (-1074)
    let mantissa := roundQuotient (num * Nat.pow 2 (-unit).toNat) (den * Nat.pow 2 unit.toNat)
    ⟨(min ((unit + 1074).toNat * Nat.pow 2 52 + mantissa) infinityPattern).toUInt64⟩

def ofNat (n : Nat) : Double := nearest n 1

/-- The other sign. -/
def neg (d : Double) : Double := ⟨d.bits ^^^ 0x8000000000000000⟩

/-- The rounded product of two finite non-negative doubles. -/
def times (a b : Double) : Double :=
  let unit := a.scale + b.scale
  nearest (a.mantissa * b.mantissa * Nat.pow 2 unit.toNat) (Nat.pow 2 (-unit).toNat)

/-- The rounded quotient of two finite non-negative doubles, the second not zero. -/
def dividedBy (a b : Double) : Double :=
  let unit := a.scale - b.scale
  nearest (a.mantissa * Nat.pow 2 unit.toNat) (b.mantissa * Nat.pow 2 (-unit).toNat)

/-! ## Decimal significand and exponent -/

/-- The double nearest to `10 ^ n`. -/
def tenPow (n : Nat) : Double := ofNat (Nat.pow 10 n)

/-- The largest power of ten that is a double. -/
def largestTenPow : Nat := 308

/-- `d / 10 ^ places`, divided by `10 ^ 308` as long as more places than that remain. Each round
    takes 308 places off, so `places` rounds are enough. -/
def shrink : (rounds : Nat) → Double → (places : Nat) → Double
  | 0, d, _ => d
  | rounds + 1, d, places =>
    if places ≤ largestTenPow then d.dividedBy (tenPow places)
    else if d.isZero then d
    else shrink rounds (d.dividedBy (tenPow largestTenPow)) (places - largestTenPow)

/-- The double that `significand * 10 ^ exponent` is read as: the significand is rounded first and
    then multiplied or divided by a rounded power of ten. `none` when the result is too large. -/
def ofDecimal? (significand : Nat) (exponent : Int) : Option Double :=
  let start := ofNat significand
  if exponent < 0 then
    some (shrink (exponent.natAbs + 1) start exponent.natAbs)
  else if exponent.natAbs ≤ largestTenPow then
    let product := start.times (tenPow exponent.natAbs)
    if product.isInfinite then none else some product
  else if start.isZero then some start
  else none

end Double

end BlockScript
