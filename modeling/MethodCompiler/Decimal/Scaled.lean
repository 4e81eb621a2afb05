import MethodCompiler.Decimal.Reader

/-!
# Decimals read by scaling

A quick way to read a decimal numeral: its first digits make a whole number of 64
bits, that number is rounded to a double, and the double is multiplied or divided
by a power of ten. Each of the two steps rounds, so the result may be a neighbour
of the double nearest to the numeral. Numbers below `2 ^ 53` and powers up to
`10 ^ 22` are doubles themselves: with such digits and such a power the result is
the nearest double.
-/

namespace MethodCompiler.Numeral

/-- The largest number of 64 bits. -/
def largestWord : Nat := 18446744073709551615

/-- Appends digits to a number as long as it stays in 64 bits. Also gives back the
digits from the first that found no room. -/
def pack (n : Nat) : List Char → Nat × List Char
  | [] => (n, [])
  | c :: rest =>
    let next := n * 10 + (digit? c).getD 0
    if next ≤ largestWord then pack next rest else (n, c :: rest)

/-- The double nearest to a power of ten, for exponents up to 308. -/
def powerOfTen (exponent : Nat) : Float :=
  Float.ofScientific 1 false exponent

/-- A double below `2 ^ 64` times a power of ten, or an infinity if that is beyond the
largest double. A division by more than `10 ^ 308` takes two steps, and one by more
than `10 ^ 616` leaves nothing. -/
def scale (x : Float) (exponent : Int) : Float :=
  if x == 0.0 then x
  else if 308 < exponent then 1.0 / 0.0
  else if 0 ≤ exponent then x * powerOfTen exponent.toNat
  else if -308 ≤ exponent then x / powerOfTen exponent.natAbs
  else if -616 ≤ exponent then x / powerOfTen 308 / powerOfTen (exponent.natAbs - 308)
  else 0.0

/-- The double that a numeral gives by scaling. Digits before the point that find no
room count as powers of ten. Digits behind it are appended while there is room,
and then dropped. -/
def Parts.scaled (p : Parts) (negative : Bool) : Float :=
  let fraction := p.fraction.getD []
  let (whole, beyond) := pack 0 p.whole
  let (significand, dropped) := pack whole fraction
  let shift : Int := (beyond.length : Int) - ((fraction.length : Int) - dropped.length)
  let size := scale (Float.ofScientific significand false 0) (p.power.getD 0 + shift)
  if negative then -size else size

end MethodCompiler.Numeral
