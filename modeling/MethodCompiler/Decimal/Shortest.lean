import MethodCompiler.Double

/-!
# The shortest decimal that reads back

Many decimals round to the same double: exactly those within half a step of it
on either side, the ends included when the mantissa is even. Of these the one
with the fewest digits is chosen. On the grid of multiples of `10 ^ k` only the
two neighbours of the double need a look, because if any point of a grid lies
within the half steps then one of the neighbours does. The coarsest grid with
such a neighbour has the fewest digits; of two neighbours the nearer one wins,
and the upper one if they are equally near.
-/

namespace MethodCompiler

/-- The positive decimal `digits · 10 ^ exponent`. -/
structure Decimal where
  digits : Nat
  exponent : Int
deriving DecidableEq, Repr

namespace Decimal

open Double (Magnitude)

/-- The neighbour of a size on the grid of multiples of `10 ^ k` that reads back
as that size, as a multiple of `10 ^ k`.

All numbers are brought to one unit, a quarter of the last place of the
mantissa, so that half steps are whole: `4 · mantissa` is the size itself, two
units above it is the upper half step, and two below it the lower one. Only
below a power of two, where the step down is half as long, is it one unit. -/
def onGrid (size : Magnitude) (k : Int) : Option Nat :=
  let grid := Nat.pow 10 k.toNat * Nat.pow 2 (2 - size.exponent).toNat
  let unit := Nat.pow 10 (-k).toNat * Nat.pow 2 (size.exponent - 2).toNat
  let stepDown :=
    if size.mantissa = Double.exponentUnit ∧ Double.leastExponent < size.exponent then 1 else 2
  let value := 4 * size.mantissa * unit
  let low := (4 * size.mantissa - stepDown) * unit
  let high := (4 * size.mantissa + 2) * unit
  let readsBack := fun (n : Nat) =>
    if size.mantissa % 2 = 0 then decide (low ≤ n * grid ∧ n * grid ≤ high)
    else decide (low < n * grid ∧ n * grid < high)
  let below := value / grid
  let above := below + 1
  match readsBack below, readsBack above with
  | true, true => some (if value - below * grid < above * grid - value then below else above)
  | true, false => some below
  | false, true => some above
  | false, false => none

/-- A power of ten above a positive size, by a bound on its logarithm. -/
def coarsest (size : Magnitude) : Int :=
  ((size.mantissa.log2 : Int) + size.exponent + 1) * 30103 / 100000 + 1

/-- The shortest decimal that reads back as a positive size. Seventeen digits
always suffice, so it is found within the grids tried. -/
def shortest (size : Magnitude) : Decimal :=
  let grids := (List.range 20).map fun (n : Nat) => coarsest size - n
  (grids.findSome? fun k => (onGrid size k).map fun n => ⟨n, k⟩).getD
    ⟨size.mantissa, size.exponent⟩

end Decimal

end MethodCompiler
