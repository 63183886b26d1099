/-
  The shortest decimal that reads back as a given double.

  The reals that round to a double form an interval around it, whose ends belong to it exactly when
  the mantissa is even. Among the grids of multiples of `10 ^ e` the coarsest one with a point in
  that interval gives the fewest digits, and of its points the one nearest to the double is taken,
  the upper one on a tie. A point of the coarsest grid is no multiple of ten times the grid, so the
  digits end in no zero.
-/
import BlockScript.Number.Double

namespace BlockScript

/-- The decimal `digits * 10 ^ exponent`. -/
structure Decimal where
  digits : Nat
  exponent : Int
deriving DecidableEq, Repr

namespace Double

/-! ## The interval, in quarters of the mantissa's unit -/

/-- Four times the mantissa: the double itself, in quarter units. -/
def center (d : Double) : Nat := 4 * d.mantissa

/-- Above a power of two the doubles lie twice as far apart as below it. -/
def narrowBelow (d : Double) : Bool := d.mantissa == Nat.pow 2 52 && d.exponentField > 1

/-- The lower end of the interval that rounds to `d`, in quarter units. -/
def lower (d : Double) : Nat := d.center - (if d.narrowBelow then 1 else 2)

/-- The upper end of the interval that rounds to `d`, in quarter units. -/
def upper (d : Double) : Nat := d.center + 2

/-- Whether the ends themselves round to `d`. -/
def closed (d : Double) : Bool := d.mantissa % 2 == 0

/-! ## The grid of multiples of `10 ^ e` -/

/-- `x` quarter units are `x * gridTimes / gridOver` steps of the grid. -/
def gridTimes (d : Double) (e : Int) : Nat := Nat.pow 10 (-e).toNat * Nat.pow 2 (d.scale - 2).toNat

@[inherit_doc gridTimes]
def gridOver (d : Double) (e : Int) : Nat := Nat.pow 10 e.toNat * Nat.pow 2 (2 - d.scale).toNat

/-- Whether the grid point `step * 10 ^ e` rounds to `d`. -/
def holds (d : Double) (e : Int) (step : Nat) : Bool :=
  let point := step * d.gridOver e
  let low := d.lower * d.gridTimes e
  let high := d.upper * d.gridTimes e
  if d.closed then low ≤ point && point ≤ high else low < point && point < high

/-- The grid point that rounds to `d` and is nearest to it, if there is one. Only the two
    neighbours of `d` on the grid can be that point. -/
def onGrid? (d : Double) (e : Int) : Option Nat :=
  let value := d.center * d.gridTimes e
  let below := value / d.gridOver e
  let rest := value % d.gridOver e
  match d.holds e below, d.holds e (below + 1) with
  | true, true => some (if 2 * rest < d.gridOver e then below else below + 1)
  | true, false => some below
  | false, true => some (below + 1)
  | false, false => none

/-- The first hit on the `grids` grids `10 ^ e`, `10 ^ (e - 1)`, …; where none has one, the grid
    point below on the grid after them. -/
def coarsest (d : Double) : (grids : Nat) → (e : Int) → Decimal
  | 0, e => ⟨d.center * d.gridTimes e / d.gridOver e, e⟩
  | grids + 1, e =>
    match d.onGrid? e with
    | some digits => ⟨digits, e⟩
    | none => d.coarsest grids (e - 1)

/-- The shortest decimal that rounds to the finite non-zero double `|d|`. No double reaches
    `10 ^ 309`, and the grid of multiples of `10 ^ -324` is finer than any gap between doubles. -/
def shortest (d : Double) : Decimal := d.coarsest (309 + 324 + 1) 309

end Double

end BlockScript
