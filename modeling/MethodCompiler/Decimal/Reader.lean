/-!
# Reading decimals

A run of decimal digits is a natural number, and a decimal numeral with a point
and an exponent is such a number times a power of ten, rounded once to the
nearest double. The readers here take characters off the front of a list and
hand back what they did not use.
-/

namespace MethodCompiler.Numeral

/-- The value of a decimal digit. -/
def digit? (c : Char) : Option Nat :=
  if '0' ≤ c ∧ c ≤ '9' then some (c.toNat - '0'.toNat) else none

/-- The value of a digit of base sixteen, in either case. -/
def hexDigit? (c : Char) : Option Nat :=
  if '0' ≤ c ∧ c ≤ '9' then some (c.toNat - '0'.toNat)
  else if 'a' ≤ c ∧ c ≤ 'f' then some (c.toNat - 'a'.toNat + 10)
  else if 'A' ≤ c ∧ c ≤ 'F' then some (c.toNat - 'A'.toNat + 10)
  else none

/-- The number that digits write in a base, read from the left; characters that
are no digits count as zero. -/
def ofDigits (base : Nat) (cs : List Char) : Nat :=
  cs.foldl (fun n c => n * base + (hexDigit? c).getD 0) 0

/-- Whether a character is a decimal digit. -/
def isDigit (c : Char) : Bool :=
  (digit? c).isSome

/-- Reads a natural number of an unsigned type with the given largest value: an
optional plus sign and at least one digit, and nothing else. -/
def natural? (largest : Nat) (cs : List Char) : Option Nat :=
  let digits := match cs with
    | '+' :: rest => rest
    | _ => cs
  if digits.isEmpty || !digits.all isDigit then none
  else
    let n := ofDigits 10 digits
    if n ≤ largest then some n else none

/-- The double nearest to `mantissa · 10 ^ exponent`, an infinity if that is
beyond the largest double. Exponents far outside the range of doubles are
settled by the size of the mantissa alone. -/
def toDouble (negative : Bool) (mantissa : Nat) (exponent : Int) : Float :=
  let size : Float :=
    if mantissa = 0 then 0.0
    else if 310 ≤ exponent then 1.0 / 0.0
    else if exponent + mantissa.log2 ≤ -350 then 0.0
    else Float.ofScientific mantissa (exponent < 0) exponent.natAbs
  if negative then -size else size

/-- An unsigned decimal numeral: the digits before the point, those after it if
there is one, and the exponent if there is one. -/
structure Parts where
  whole : List Char
  fraction : Option (List Char)
  power : Option Int
deriving DecidableEq, Repr

/-- The digits at the front and what follows them. -/
def digits (cs : List Char) : List Char × List Char :=
  cs.span isDigit

/-- A sign at the front: whether it is a minus, and what follows it. -/
def sign (cs : List Char) : Bool × List Char :=
  match cs with
  | '-' :: rest => (true, rest)
  | '+' :: rest => (false, rest)
  | _ => (false, cs)

/-- Splits a numeral off the front. A point is taken along even if no digits
follow it, and what that means is for the caller to say; an exponent mark
without digits is left where it stands. -/
def parts (cs : List Char) : Parts × List Char :=
  let (whole, rest) := digits cs
  let (fraction, rest) := match rest with
    | '.' :: rest => let (ds, rest) := digits rest; (some ds, rest)
    | _ => (none, rest)
  let exponent := fun (rest : List Char) =>
    let (negative, rest) := sign rest
    let (ds, rest) := digits rest
    if ds.isEmpty then none
    else
      let n : Int := ofDigits 10 ds
      some (if negative then -n else n, rest)
  match rest with
  | 'e' :: after | 'E' :: after =>
    match exponent after with
    | some (n, rest) => (⟨whole, fraction, some n⟩, rest)
    | none => (⟨whole, fraction, none⟩, rest)
  | _ => (⟨whole, fraction, none⟩, rest)

/-- The double a numeral denotes. -/
def Parts.toDouble (p : Parts) (negative : Bool) : Float :=
  let fraction := p.fraction.getD []
  Numeral.toDouble negative (ofDigits 10 (p.whole ++ fraction))
    (p.power.getD 0 - fraction.length)

/-- Reads a whole text as a double: an optional sign, then `inf`, `infinity` or
`nan` in any case, or a numeral with at least one digit before or after the
point. -/
def double? (text : String) : Option Float :=
  let (negative, rest) := sign text.toList
  let word := String.ofList (rest.map Char.toLower)
  if word = "inf" ∨ word = "infinity" then
    some (if negative then -1.0 / 0.0 else 1.0 / 0.0)
  else if word = "nan" then some (0.0 / 0.0)
  else
    let (p, rest) := parts rest
    if rest.isEmpty && !(p.whole.isEmpty && (p.fraction.getD []).isEmpty) then
      some (p.toDouble negative)
    else none

end MethodCompiler.Numeral
