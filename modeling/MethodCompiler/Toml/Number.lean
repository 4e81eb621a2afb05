import MethodCompiler.Toml.Basic
import MethodCompiler.Decimal.Reader

/-!
# Numbers in TOML

Digits may be grouped by single underscores. An integer has no superfluous zero in
front and fits in 64 bits; one of base two, eight or sixteen has no sign.
-/

namespace MethodCompiler.Toml

/-- The digits behind a first one, without the underscores between them. -/
def moreDigits (isDigit : Char → Bool) : List Char → List Char × List Char
  | '_' :: c :: rest =>
    if isDigit c then
      let (ds, rest) := moreDigits isDigit rest
      (c :: ds, rest)
    else ([], '_' :: c :: rest)
  | c :: rest =>
    if isDigit c then
      let (ds, rest) := moreDigits isDigit rest
      (c :: ds, rest)
    else ([], c :: rest)
  | [] => ([], [])

/-- At least one digit, without the underscores between them. -/
def grouped? (isDigit : Char → Bool) : List Char → Option (List Char × List Char)
  | [] => none
  | c :: rest =>
    if isDigit c then
      let (ds, rest) := moreDigits isDigit rest
      some (c :: ds, rest)
    else none

/-- An integer that fits in 64 bits. -/
def ofInteger? (n : Int) : Option Toml :=
  if -9223372036854775808 ≤ n ∧ n < 9223372036854775808 then some (.integer n) else none

/-- A double that digits have written. One that is too large is refused, and one that
is too small to be finite is an infinity. -/
def ofDigits? (x : Float) : Option Toml :=
  if x == 1.0 / 0.0 then none else some (.float x)

/-- A digit of a base up to sixteen. -/
def isDigitOf (base : Nat) (c : Char) : Bool :=
  match Numeral.hexDigit? c with
  | some d => d < base
  | none => false

/-- An integer of a base that its first characters have named. -/
def based? (base : Nat) (cs : List Char) : Option (Toml × List Char) := do
  let (digits, rest) ← grouped? (isDigitOf base) cs
  return (← ofInteger? (Numeral.ofDigits base digits), rest)

/-- The digits behind a point, if there is one. -/
def fraction? (cs : List Char) : Option (Option (List Char) × List Char) :=
  match cs with
  | '.' :: rest => (grouped? Numeral.isDigit rest).map fun (digits, rest) => (some digits, rest)
  | _ => some (none, cs)

/-- The exponent behind its mark, if there is one. -/
def power? (cs : List Char) : Option (Option Int × List Char) :=
  let exponent := fun (cs : List Char) => do
    let (negative, cs) := Numeral.sign cs
    let (digits, rest) ← grouped? Numeral.isDigit cs
    let n : Int := Numeral.ofDigits 10 digits
    some (some (if negative then -n else n), rest)
  match cs with
  | 'e' :: rest => exponent rest
  | 'E' :: rest => exponent rest
  | _ => some (none, cs)

/-- A decimal number behind its sign. -/
def decimal? (negative : Bool) (cs : List Char) : Option (Toml × List Char) := do
  let (whole, rest) ← grouped? Numeral.isDigit cs
  if whole.head? = some '0' ∧ 1 < whole.length then none
  let (fraction, rest) ← fraction? rest
  let (power, rest) ← power? rest
  if fraction.isNone ∧ power.isNone then
    let n : Int := Numeral.ofDigits 10 whole
    return (← ofInteger? (if negative then -n else n), rest)
  else
    let p : Numeral.Parts := ⟨whole, fraction, power⟩
    return (← ofDigits? (p.toDouble negative), rest)

/-- A number. -/
def number? (cs : List Char) : Option (Toml × List Char) :=
  match cs with
  | '0' :: 'x' :: rest => based? 16 rest
  | '0' :: 'o' :: rest => based? 8 rest
  | '0' :: 'b' :: rest => based? 2 rest
  | _ =>
    match Numeral.sign cs with
    | (negative, 'i' :: 'n' :: 'f' :: rest) =>
      some (.float (if negative then -1.0 / 0.0 else 1.0 / 0.0), rest)
    | (_, 'n' :: 'a' :: 'n' :: rest) => some (.float (0.0 / 0.0), rest)
    | (negative, rest) => decimal? negative rest

end MethodCompiler.Toml
