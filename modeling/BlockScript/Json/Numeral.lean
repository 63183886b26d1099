/-
  Numerals of JSON text and the numbers they are read as.

  A numeral without fraction and exponent that fits in 64 bits is an integer. Every other numeral is
  a double, computed from the digits that fit in a 64-bit significand: later whole digits only raise
  the exponent, later fraction digits are dropped.
-/
import BlockScript.Json.Value

namespace BlockScript.Json

/-- A numeral by its parts, digits most significant first. A numeral without a point has no
    fraction digits. -/
structure Numeral where
  negative : Bool
  whole : List Nat
  fraction : List Nat
  exponent : Option Int
deriving DecidableEq, Repr

namespace Numeral

/-- Significands stay below this bound. -/
def significandBound : Nat := UInt64.size

/-- Appends decimal digits to a significand until the next one would not fit, and counts those
    appended. -/
def accumulate (significand : Nat) : List Nat → Nat × Nat
  | [] => (significand, 0)
  | digit :: rest =>
    let next := 10 * significand + digit
    if next < significandBound then
      let (last, count) := accumulate next rest
      (last, count + 1)
    else (significand, 0)

/-- The double of a numeral's magnitude, `none` when it is too large for a double. -/
def magnitude? (n : Numeral) : Option Double :=
  let (wholePart, taken) := accumulate 0 n.whole
  let (significand, places) := accumulate wholePart n.fraction
  let exponent : Int := (n.whole.length - taken : Nat) - (places : Int) + n.exponent.getD 0
  Double.ofDecimal? significand exponent

/-- The double of a numeral, `none` when it is too large for a double. -/
def double? (n : Numeral) : Option Double :=
  n.magnitude?.map fun d => if n.negative then d.neg else d

/-- The value of a numeral without fraction and exponent, if it fits in a significand. -/
def natural? (n : Numeral) : Option Nat :=
  let (value, taken) := accumulate 0 n.whole
  if taken = n.whole.length ∧ n.fraction = [] ∧ n.exponent = none then some value else none

/-- The number a numeral is read as. A negative integer has to fit in a signed word, and `-0` is the
    negative zero among the doubles. -/
def number? (n : Numeral) : Option Number :=
  match n.natural? with
  | none => n.double?.map .double
  | some value =>
    if !n.negative then some (.integer value)
    else if value = 0 ∨ Nat.pow 2 63 < value then some (.double (Double.ofNat value).neg)
    else some (.integer (-value))

end Numeral

end BlockScript.Json
