/-!
# Doubles as exact numbers

A finite double is a natural number times a power of two, and everything that
has to be exact about doubles is exact about that pair: which decimals read
back as the double, and what is left after taking out multiples of another
double. Sums, products and quotients are left to the arithmetic of `Float`
itself, which rounds them once.
-/

namespace MethodCompiler.Double

/-- The size of a finite double: `mantissa · 2 ^ exponent`. -/
structure Magnitude where
  mantissa : Nat
  exponent : Int
deriving DecidableEq, Repr

/-- The exponent of the smallest positive double. -/
def leastExponent : Int := -1074

/-- Where the sign bit stands, above the exponent's eleven bits. -/
def signUnit : Nat := Nat.pow 2 63

/-- Where the exponent's lowest bit stands, above the mantissa's. -/
def exponentUnit : Nat := Nat.pow 2 52

/-- The sign bit, which zeros have too. -/
def isNegative (x : Float) : Bool :=
  signUnit ≤ x.toBits.toNat

/-- The size of `x` as its bits spell it. An infinity and NaN have none. -/
def magnitude? (x : Float) : Option Magnitude :=
  let bits := x.toBits.toNat
  let fraction := bits % exponentUnit
  let biased : Nat := bits / exponentUnit % 2048
  if biased = 2047 then none
  else if biased = 0 then some ⟨fraction, leastExponent⟩
  else some ⟨exponentUnit + fraction, (biased : Int) - 1075⟩

/-- The double of a given sign and size. The size must be one a double can
have: a mantissa below `2 ^ 53` and an exponent no smaller than
`leastExponent`. The mantissa is shifted up until its leading bit stands at
place 52 or the exponent is the least one. -/
def ofMagnitude (negative : Bool) (size : Magnitude) : Float :=
  let sign := if negative then signUnit else 0
  if size.mantissa = 0 then Float.ofBits (UInt64.ofNat sign)
  else
    let shift := min (52 - size.mantissa.log2) (size.exponent - leastExponent).toNat
    let mantissa := size.mantissa * Nat.pow 2 shift
    let exponent := size.exponent - shift
    let biased := if mantissa < exponentUnit then 0 else (exponent + 1075).toNat
    Float.ofBits (UInt64.ofNat (sign + biased * exponentUnit + mantissa % exponentUnit))

/-- What is left of `x` after taking out as many whole multiples of `y` as fit,
with the sign of `x`. It is exact: both sizes are multiples of the finer of
the two powers of two, and so is the remainder, which is smaller than either
mantissa in that unit. -/
def remainder (x y : Float) : Float :=
  match magnitude? x, magnitude? y with
  | some a, some b =>
    if b.mantissa = 0 then 0.0 / 0.0
    else
      let unit := min a.exponent b.exponent
      let whole := a.mantissa * Nat.pow 2 (a.exponent - unit).toNat
      let part := b.mantissa * Nat.pow 2 (b.exponent - unit).toNat
      ofMagnitude (isNegative x) ⟨whole % part, unit⟩
  | some _, none => if y.isNaN then y else x
  | none, _ => 0.0 / 0.0

end MethodCompiler.Double
