import MethodCompiler.Decimal.Shortest

/-!
# The text of a double

A layout says from which power of ten on, and up to which, a number is written
out without an exponent. The digits are always the shortest that read back, and
there is always a point or an exponent, so the text never looks like that of an
integer.
-/

namespace MethodCompiler

/-- The powers of ten between which numbers are written out: a number of at
least `10 ^ least` and less than `10 ^ most` has no exponent. -/
structure Layout where
  least : Int
  most : Int
deriving DecidableEq, Repr

namespace Layout

/-- Values, operands and messages write out what lies between a ten thousandth
and `10 ^ 16`. -/
def value : Layout := ⟨-4, 16⟩

/-- Printed JSON goes one place further down. -/
def json : Layout := ⟨-5, 16⟩

/-- The digits written out around the point, whose place is after the digit of
weight `10 ^ 0`; `lead` is the weight of the first digit. -/
def positional (digits : List Char) (lead : Int) : List Char :=
  if lead < 0 then
    '0' :: '.' :: List.replicate (-lead - 1).toNat '0' ++ digits
  else
    let whole := lead.toNat + 1
    let fraction := digits.drop whole
    digits.take whole ++ List.replicate (whole - digits.length) '0' ++
      '.' :: if fraction.isEmpty then ['0'] else fraction

/-- The first digit, a point before the others if there are any, and the
exponent. -/
def scientific (digits : List Char) (lead : Int) : List Char :=
  let fraction := digits.drop 1
  digits.take 1 ++ (if fraction.isEmpty then [] else '.' :: fraction) ++
    'e' :: (toString lead).toList

/-- A positive decimal in this layout. -/
def write (layout : Layout) (d : Decimal) : List Char :=
  let digits := (toString d.digits).toList
  let lead := d.exponent + digits.length - 1
  if layout.least ≤ lead ∧ lead < layout.most then positional digits lead
  else scientific digits lead

/-- The text of a double. The sign of a zero is kept and that of NaN is not. -/
def text (layout : Layout) (x : Float) : String :=
  let sign := if Double.isNegative x then ['-'] else []
  match Double.magnitude? x with
  | none => if x.isNaN then "NaN" else String.ofList (sign ++ ['i', 'n', 'f'])
  | some size =>
    if size.mantissa = 0 then String.ofList (sign ++ ['0', '.', '0'])
    else String.ofList (sign ++ layout.write (Decimal.shortest size))

end Layout

end MethodCompiler
