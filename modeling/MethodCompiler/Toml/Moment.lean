import MethodCompiler.Toml.Basic
import MethodCompiler.Decimal.Reader

/-!
# Dates and times in TOML

A moment is a date, a time of day, or a date and a time with a `T` or a space
between them and perhaps an offset behind. Its numbers have a fixed count of digits
and keep within the calendar and the clock, a leap second included.

Every reader takes characters off the front of the input and returns the rest.
-/

namespace MethodCompiler.Toml

/-- A number of exactly `count` digits. -/
def digits? (count : Nat) (cs : List Char) : Option (Nat × List Char) :=
  let digits := cs.take count
  if digits.length = count ∧ digits.all Numeral.isDigit then
    some (Numeral.ofDigits 10 digits, cs.drop count)
  else none

/-- A number of two digits within bounds. -/
def pair? (least most : Nat) (cs : List Char) : Option (Nat × List Char) := do
  let (n, rest) ← digits? 2 cs
  if least ≤ n ∧ n ≤ most then some (n, rest) else none

/-- A given character. -/
def mark? (mark : Char) (cs : List Char) : Option (List Char) :=
  match cs with
  | c :: rest => if c = mark then some rest else none
  | [] => none

/-- Whether a year has a day more than others. -/
def isLeapYear (year : Nat) : Bool :=
  year % 4 = 0 && (year % 100 ≠ 0 || year % 400 = 0)

/-- The number of days in a month. -/
def daysIn (year month : Nat) : Nat :=
  match month with
  | 2 => if isLeapYear year then 29 else 28
  | 4 | 6 | 9 | 11 => 30
  | _ => 31

/-- A day of the calendar. -/
def date? (cs : List Char) : Option (List Char) := do
  let (year, rest) ← digits? 4 cs
  let (month, rest) ← pair? 1 12 (← mark? '-' rest)
  let (_, rest) ← pair? 1 (daysIn year month) (← mark? '-' rest)
  return rest

/-- A time of day, perhaps with parts of a second. -/
def time? (cs : List Char) : Option (List Char) := do
  let (_, rest) ← pair? 0 23 cs
  let (_, rest) ← pair? 0 59 (← mark? ':' rest)
  let (_, rest) ← pair? 0 60 (← mark? ':' rest)
  match rest with
  | '.' :: c :: after =>
    if Numeral.isDigit c then return after.dropWhile Numeral.isDigit else return rest
  | _ => return rest

/-- How far a clock is ahead of the common one or behind it. -/
def offset? (cs : List Char) : Option (List Char) :=
  match cs with
  | 'Z' :: rest | 'z' :: rest => some rest
  | '+' :: rest | '-' :: rest => do
    let (_, rest) ← pair? 0 23 rest
    let (_, rest) ← pair? 0 59 (← mark? ':' rest)
    return rest
  | _ => none

/-- A time with its offset, behind a date. -/
def timeOfDate? (cs : List Char) : Option (List Char) :=
  match cs with
  | 'T' :: rest | 't' :: rest | ' ' :: rest => do
    let rest ← time? rest
    return (offset? rest).getD rest
  | _ => none

/-- The input behind a moment. -/
def skipMoment? (cs : List Char) : Option (List Char) :=
  match date? cs with
  | some rest => some ((timeOfDate? rest).getD rest)
  | none => time? cs

/-- A moment, kept as it is written. -/
def moment? (cs : List Char) : Option (Toml × List Char) :=
  (skipMoment? cs).map fun rest =>
    (.moment (String.ofList (cs.take (cs.length - rest.length))), rest)

end MethodCompiler.Toml
