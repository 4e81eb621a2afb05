import MethodCompiler.Decimal.Scaled
import MethodCompiler.Json.Basic

/-!
# Reading JSON text

The reader takes strict JSON: no comments, no trailing commas, no leading zeros,
no raw control characters in strings. Space around the value is allowed and
nothing else may follow it.

Every reader takes characters off the front of the input and returns the rest.
Recursion is on a bound for the number of steps, two for each character of the
input and two more, which no input can exhaust: a bracket costs two steps, one for
the list behind it and one for the value in that, and so does a comma, while a
character of a string costs one.
-/

namespace MethodCompiler.Json

/-- The blanks that JSON allows between tokens. -/
def isBlank (c : Char) : Bool :=
  c = ' ' || c = '\n' || c = '\t' || c = '\r'

/-- The input from its first character that is no blank. -/
def skipBlanks (cs : List Char) : List Char :=
  cs.dropWhile isBlank

/-- Four digits of base sixteen. -/
def hexUnit? : List Char → Option (Nat × List Char)
  | a :: b :: c :: d :: rest => do
    let a ← Numeral.hexDigit? a
    let b ← Numeral.hexDigit? b
    let c ← Numeral.hexDigit? c
    let d ← Numeral.hexDigit? d
    some (((a * 16 + b) * 16 + c) * 16 + d, rest)
  | _ => none

/-- Whether a unit is the first half of a surrogate pair. -/
def isLeading (unit : Nat) : Bool :=
  0xD800 ≤ unit && unit < 0xDC00

/-- Whether a unit is the second half of a surrogate pair. -/
def isTrailing (unit : Nat) : Bool :=
  0xDC00 ≤ unit && unit < 0xE000

/-- A character of a string, or `none` in place of half a surrogate pair. -/
abbrev Letter := Option Char

/-- The character that one or two escaped units write: `unit` has been read, and
a first half looks for its second half in what follows. A first half followed by
another escaped unit takes that unit along. -/
def escapedUnit (unit : Nat) (rest : List Char) : Option (Letter × List Char) :=
  if isLeading unit then
    match rest with
    | '\\' :: 'u' :: after => do
      let (next, after) ← hexUnit? after
      if isTrailing next then
        some (some (Char.ofNat (0x10000 + (unit - 0xD800) * 0x400 + (next - 0xDC00))), after)
      else some (none, after)
    | _ => some (none, rest)
  else if isTrailing unit then some (none, rest)
  else some (some (Char.ofNat unit), rest)

/-- What a backslash and the characters after it write. -/
def escaped? : List Char → Option (Letter × List Char)
  | '"' :: rest => some (some '"', rest)
  | '\\' :: rest => some (some '\\', rest)
  | '/' :: rest => some (some '/', rest)
  | 'b' :: rest => some (some '\x08', rest)
  | 'f' :: rest => some (some '\x0c', rest)
  | 'n' :: rest => some (some '\n', rest)
  | 'r' :: rest => some (some '\r', rest)
  | 't' :: rest => some (some '\t', rest)
  | 'u' :: rest => do
    let (unit, rest) ← hexUnit? rest
    escapedUnit unit rest
  | _ => none

/-- The characters of a string up to its closing quote, newest first in `seen`. -/
def stringBody : Nat → List Letter → List Char → Option (List Letter × List Char)
  | 0, _, _ => none
  | steps + 1, seen, cs =>
    match cs with
    | [] => none
    | '"' :: rest => some (seen.reverse, rest)
    | '\\' :: rest =>
      match escaped? rest with
      | some (c, rest) => stringBody steps (c :: seen) rest
      | none => none
    | c :: rest => if c < ' ' then none else stringBody steps (some c :: seen) rest

/-- The text of a string all of whose characters are whole. -/
def wholeText? (letters : List Letter) : Option String :=
  (letters.mapM id).map String.ofList

/-- A number. Its whole part has no superfluous zero in front, and a point or an
exponent mark has digits after it. A number that is no integer of 64 bits is read
by scaling. -/
def number? (cs : List Char) : Option (Json × List Char) :=
  let (negative, rest) := match cs with
    | '-' :: rest => (true, rest)
    | _ => (false, cs)
  let (p, rest) := Numeral.parts rest
  let wellFormed := match p.whole with
    | [] => false
    | ['0'] => true
    | c :: _ => c ≠ '0'
  if !wellFormed || p.fraction = some [] then none
  else
    let x := p.scaled negative
    let rounded := if x.isFinite then Json.double x else .unreadable
    let n := Numeral.ofDigits 10 p.whole
    let value :=
      if p.fraction.isSome || p.power.isSome then rounded
      else if negative then
        if n = 0 ∨ 9223372036854775808 < n then rounded else .integer (-(n : Int))
      else if n < 18446744073709551616 then .integer n else rounded
    some (value, rest)

/-- A word that stands for a value, if the input starts with it. -/
def word? (word : List Char) (value : Json) (cs : List Char) : Option (Json × List Char) :=
  if word.isPrefixOf cs then some (value, cs.drop word.length) else none

/-- The object with these members, newest first. -/
def ofMembers (members : List (Option String × Json)) : Json :=
  match members.mapM fun (key, value) => key.map fun k => (k, value) with
  | some whole => .object whole.reverse
  | none => .unreadable

mutual

/-- A value at the front of the input. -/
def value? : Nat → List Char → Option (Json × List Char)
  | 0, _ => none
  | steps + 1, cs =>
    match skipBlanks cs with
    | '[' :: rest =>
      match skipBlanks rest with
      | ']' :: rest => some (.array [], rest)
      | rest => items? steps [] rest
    | '\x7b' :: rest =>
      match skipBlanks rest with
      | '\x7d' :: rest => some (.object [], rest)
      | rest => members? steps [] rest
    | '"' :: rest =>
      match stringBody steps [] rest with
      | some (letters, rest) =>
        match wholeText? letters with
        | some text => some (.string text, rest)
        | none => some (.unreadable, rest)
      | none => none
    | 'n' :: rest => word? ['u', 'l', 'l'] .null rest
    | 't' :: rest => word? ['r', 'u', 'e'] (.bool true) rest
    | 'f' :: rest => word? ['a', 'l', 's', 'e'] (.bool false) rest
    | rest => number? rest

/-- The items of an array from one of them to the closing bracket, newest first
in `seen`. -/
def items? : Nat → List Json → List Char → Option (Json × List Char)
  | 0, _, _ => none
  | steps + 1, seen, cs =>
    match value? steps cs with
    | none => none
    | some (item, rest) =>
      match skipBlanks rest with
      | ',' :: rest => items? steps (item :: seen) rest
      | ']' :: rest => some (.array (item :: seen).reverse, rest)
      | _ => none

/-- The members of an object from one of them to the closing brace, newest first
in `seen`. -/
def members? : Nat → List (Option String × Json) → List Char → Option (Json × List Char)
  | 0, _, _ => none
  | steps + 1, seen, cs =>
    match skipBlanks cs with
    | '"' :: rest =>
      match stringBody steps [] rest with
      | none => none
      | some (letters, rest) =>
        match skipBlanks rest with
        | ':' :: rest =>
          match value? steps rest with
          | none => none
          | some (item, rest) =>
            let seen := (wholeText? letters, item) :: seen
            match skipBlanks rest with
            | ',' :: rest => members? steps seen rest
            | '\x7d' :: rest => some (ofMembers seen, rest)
            | _ => none
        | _ => none
    | _ => none

end

/-- Reads a whole text. -/
def parse (text : String) : Option Json :=
  let cs := text.toList
  match value? (2 * cs.length + 2) cs with
  | some (value, rest) => if (skipBlanks rest).isEmpty then some value else none
  | none => none

end MethodCompiler.Json
