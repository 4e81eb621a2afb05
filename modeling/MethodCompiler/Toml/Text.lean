import MethodCompiler.Decimal.Reader

/-!
# Text in TOML

Four kinds of strings: basic ones with escapes and literal ones without, each on
one line or on several. Every reader takes characters off the front of the input
and returns the rest.
-/

namespace MethodCompiler.Toml

/-- A blank inside a line. -/
def isBlank (c : Char) : Bool :=
  c = ' ' || c = '\t'

/-- The input from its first character that is no blank. -/
def skipBlanks (cs : List Char) : List Char :=
  cs.dropWhile isBlank

/-- Whether a character may stand for itself in text: no control characters but
the tab. -/
def isPlain (c : Char) : Bool :=
  c = '\t' || (' ' ≤ c && c ≠ '\x7f')

/-- The end of a line. -/
def newLine? : List Char → Option (List Char)
  | '\n' :: rest => some rest
  | '\r' :: '\n' :: rest => some rest
  | _ => none

/-- A comment up to the end of its line, if there is one. -/
def skipComment (cs : List Char) : List Char :=
  match cs with
  | '#' :: rest => rest.dropWhile isPlain
  | _ => cs

/-- What may follow on a line that is done: blanks and a comment. -/
def endLine? (cs : List Char) : Option (List Char) :=
  match skipComment (skipBlanks cs) with
  | [] => some []
  | rest => newLine? rest

/-- The character of a code point, if it is one. -/
def charOf? (n : Nat) : Option Char :=
  if n < 0xD800 ∨ (0xDFFF < n ∧ n < 0x110000) then some (Char.ofNat n) else none

/-- The character of a number of digits of base sixteen. -/
def codePoint? (count : Nat) (cs : List Char) : Option (Char × List Char) := do
  let digits := cs.take count
  if digits.length = count ∧ digits.all fun c => (Numeral.hexDigit? c).isSome then
    return (← charOf? (Numeral.ofDigits 16 digits), cs.drop count)
  else none

/-- What a backslash and the characters after it write. -/
def escaped? : List Char → Option (Char × List Char)
  | 'b' :: rest => some ('\x08', rest)
  | 't' :: rest => some ('\t', rest)
  | 'n' :: rest => some ('\n', rest)
  | 'f' :: rest => some ('\x0c', rest)
  | 'r' :: rest => some ('\r', rest)
  | '"' :: rest => some ('"', rest)
  | '\\' :: rest => some ('\\', rest)
  | 'u' :: rest => codePoint? 4 rest
  | 'U' :: rest => codePoint? 8 rest
  | _ => none

/-- A basic string from behind its opening quote, newest character first in
`seen`. Each step uses up a character. -/
def basicBody : Nat → List Char → List Char → Option (String × List Char)
  | 0, _, _ => none
  | steps + 1, seen, cs =>
    match cs with
    | '"' :: rest => some (String.ofList seen.reverse, rest)
    | '\\' :: rest =>
      match escaped? rest with
      | some (c, rest) => basicBody steps (c :: seen) rest
      | none => none
    | c :: rest => if isPlain c then basicBody steps (c :: seen) rest else none
    | [] => none

/-- A literal string from behind its opening quote. -/
def literalBody (cs : List Char) : Option (String × List Char) :=
  match cs.span fun c => isPlain c && c ≠ '\'' with
  | (text, '\'' :: rest) => some (String.ofList text, rest)
  | _ => none

/-- The input behind a line that is to be joined with the next: from the first
character that is neither a blank nor the end of a line. A carriage return counts
only before a line feed. -/
def skipLines : List Char → List Char
  | '\r' :: '\n' :: rest => skipLines rest
  | c :: rest => if isBlank c || c = '\n' then skipLines rest else c :: rest
  | [] => []

/-- The quotes at the front that end a string of several lines: three of them, and
up to two before those belong to the text. -/
def closing? (quote : Char) (cs : List Char) : Option (List Char × List Char) :=
  let run := (cs.takeWhile (· = quote)).length
  if run < 3 then none
  else
    let kept := min (run - 3) 2
    some (List.replicate kept quote, cs.drop (kept + 3))

/-- A string of several lines from behind its opening quotes, newest character
first in `seen`. With escapes, a backslash at the end of a line joins it with the
next. Each step uses up a character. -/
def linesBody (quote : Char) (escapes : Bool) :
    Nat → List Char → List Char → Option (String × List Char)
  | 0, _, _ => none
  | steps + 1, seen, cs =>
    match closing? quote cs with
    | some (kept, rest) => some (String.ofList (seen.reverse ++ kept), rest)
    | none =>
      match newLine? cs with
      | some rest => linesBody quote escapes steps ('\n' :: seen) rest
      | none =>
        match cs with
        | [] => none
        | c :: rest =>
          if escapes && c = '\\' then
            if (newLine? (skipBlanks rest)).isSome then
              linesBody quote escapes steps seen (skipLines rest)
            else
              match escaped? rest with
              | some (c, rest) => linesBody quote escapes steps (c :: seen) rest
              | none => none
          else if isPlain c then linesBody quote escapes steps (c :: seen) rest
          else none

/-- A string of several lines. The end of the line at its very start is not part
of it. -/
def linesString? (quote : Char) (escapes : Bool) (cs : List Char) : Option (String × List Char) :=
  let cs := (newLine? cs).getD cs
  linesBody quote escapes (cs.length + 1) [] cs

/-- A string on one line. -/
def lineString? : List Char → Option (String × List Char)
  | '"' :: rest => basicBody (rest.length + 1) [] rest
  | '\'' :: rest => literalBody rest
  | _ => none

/-- A string of any kind. -/
def string? : List Char → Option (String × List Char)
  | '"' :: '"' :: '"' :: rest => linesString? '"' true rest
  | '\'' :: '\'' :: '\'' :: rest => linesString? '\'' false rest
  | cs => lineString? cs

end MethodCompiler.Toml
