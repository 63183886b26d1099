/-
  How a double is written: its shortest decimal, positional from `1e-6` up to below `1e21` and with
  an exponent outside that range.
-/
import BlockScript.Number.Shortest

namespace BlockScript

namespace Decimal

/-- Decimal digits of a natural number, most significant first. -/
def natText (n : Nat) : List Char := Nat.toDigits 10 n

/-- Decimal text of an integer. -/
def intText (n : Int) : List Char :=
  if n < 0 then '-' :: natText n.natAbs else natText n.natAbs

/-- The largest count of digits before the point that is still written out. -/
def widest : Int := 21

/-- The least position of the point that is still written with leading zeros. -/
def deepest : Int := -6

/-- Text of digits whose decimal point stands `point` places after their start. -/
def layout (digits : List Char) (point : Int) : List Char :=
  let count : Int := digits.length
  if count ≤ point ∧ point ≤ widest then
    digits ++ List.replicate (point - count).toNat '0'
  else if 0 < point ∧ point ≤ widest then
    digits.take point.toNat ++ '.' :: digits.drop point.toNat
  else if deepest < point ∧ point ≤ 0 then
    '0' :: '.' :: List.replicate (-point).toNat '0' ++ digits
  else
    let fraction := digits.drop 1
    digits.take 1 ++ (if fraction.isEmpty then [] else '.' :: fraction) ++
      'e' :: (if 0 ≤ point - 1 then '+' else '-') :: natText (point - 1).natAbs

/-- Text of a positive decimal. -/
def text (d : Decimal) : List Char :=
  let digits := natText d.digits
  layout digits (d.exponent + digits.length)

end Decimal

namespace Double

/-- Text of a double. Both zeros are written `0`. -/
def text (d : Double) : List Char :=
  if d.isZero then ['0']
  else if d.isNaN then "NaN".toList
  else
    let sign := if d.negative then ['-'] else []
    if d.isInfinite then sign ++ "Infinity".toList
    else sign ++ d.shortest.text

end Double

end BlockScript
