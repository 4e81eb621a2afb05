import MethodCompiler.Toml.Moment
import MethodCompiler.Toml.Number
import MethodCompiler.Toml.Text

/-!
# Reading TOML

A document is read line by line: a header chooses the table that the keys after it
are added to. Values nest fewer than eighty deep, and a key has fewer than eighty
parts. Recursion is on a bound for the number of steps, as in the reader for JSON:
no input can exhaust it.
-/

namespace MethodCompiler.Toml

/-- Whether a character may stand in a key without quotes. -/
def isKeyChar (c : Char) : Bool :=
  c.isAlphanum || c = '_' || c = '-'

/-- One part of a key. -/
def simpleKey? (cs : List Char) : Option (String × List Char) :=
  match lineString? cs with
  | some result => some result
  | none =>
    match cs.span isKeyChar with
    | ([], _) => none
    | (name, rest) => some (String.ofList name, rest)

/-- Neither the arrays and inline tables around a value nor the parts of a key may be
this many. -/
def nestingLimit : Nat := 80

/-- The parts of a key, of which there may be a number at most, with points between
them. -/
def keyParts? : Nat → List Char → Option (List String × List Char)
  | 0, _ => none
  | room + 1, cs => do
    let (part, rest) ← simpleKey? (skipBlanks cs)
    match skipBlanks rest with
    | '.' :: rest =>
      let (path, rest) ← keyParts? room rest
      return (part :: path, rest)
    | rest => return ([part], rest)

/-- A key. -/
def key? (cs : List Char) : Option (List String × List Char) :=
  keyParts? (nestingLimit - 1) cs

/-- The input behind blanks, comments and ends of lines. -/
def skipSpace : Nat → List Char → List Char
  | 0, cs => cs
  | steps + 1, cs =>
    match skipComment (skipBlanks cs) with
    | [] => []
    | rest =>
      match newLine? rest with
      | some rest => skipSpace steps rest
      | none => rest

/-- The input behind a word, if it starts with it. -/
def word? (word : List Char) (value : Toml) (cs : List Char) : Option (Toml × List Char) :=
  if word.isPrefixOf cs then some (value, cs.drop word.length) else none

mutual

/-- A value at the front of the input, with `room` for brackets and braces in it. -/
def value? : Nat → Nat → List Char → Option (Toml × List Char)
  | 0, _, _ => none
  | steps + 1, room, cs =>
    match cs with
    | '"' :: _ | '\'' :: _ => (string? cs).map fun (s, rest) => (.string s, rest)
    | '[' :: rest => if room = 0 then none else items? steps (room - 1) [] rest
    | '\x7b' :: rest =>
      if room = 0 then none
      else
        match skipBlanks rest with
        | '\x7d' :: rest => some (.table .inline [], rest)
        | rest => members? steps (room - 1) [] rest
    | 't' :: rest => word? ['r', 'u', 'e'] (.boolean true) rest
    | 'f' :: rest => word? ['a', 'l', 's', 'e'] (.boolean false) rest
    | _ => (moment? cs).or (number? cs)

/-- The items of an array up to its closing bracket, newest first in `seen`. -/
def items? : Nat → Nat → List Toml → List Char → Option (Toml × List Char)
  | 0, _, _, _ => none
  | steps + 1, room, seen, cs =>
    match skipSpace (cs.length + 1) cs with
    | ']' :: rest => some (.array seen.reverse, rest)
    | cs =>
      match value? steps room cs with
      | none => none
      | some (item, rest) =>
        match skipSpace (rest.length + 1) rest with
        | ',' :: rest => items? steps room (item :: seen) rest
        | ']' :: rest => some (.array (item :: seen).reverse, rest)
        | _ => none

/-- The members of an inline table from one of them to the closing brace. -/
def members? : Nat → Nat → Members → List Char → Option (Toml × List Char)
  | 0, _, _, _ => none
  | steps + 1, room, seen, cs =>
    match key? cs with
    | some (path, '=' :: rest) =>
      match value? steps room (skipBlanks rest) with
      | none => none
      | some (item, rest) =>
        match insertDotted? item path seen with
        | none => none
        | some seen =>
          match skipBlanks rest with
          | ',' :: rest => members? steps room seen rest
          | '\x7d' :: rest => some (.table .inline seen, rest)
          | _ => none
    | _ => none

end

/-- A document that is being read: what it holds so far, and the header of the
table that keys are added to. -/
structure Document where
  members : Members := []
  header : List String := []

namespace Document

/-- Adds the value of a key to the open table. -/
def add? (d : Document) (path : List String) (value : Toml) : Option Document :=
  (modifyAt? (insertDotted? value path) d.header d.members).map fun members =>
    { d with members }

/-- Opens a table by its header. -/
def openAt? (d : Document) (header : List String) (create : String → Members → Option Members) :
    Option Document := do
  let name ← header.getLast?
  let members ← modifyAt? (create name) header.dropLast d.members
  return ⟨members, header⟩

end Document

/-- One line that is not empty: a header, or a key and its value. -/
def line? (d : Document) (cs : List Char) : Option (Document × List Char) :=
  match cs with
  | '[' :: '[' :: rest => do
    let (path, rest) ← key? rest
    let ']' :: ']' :: rest := rest | none
    return (← d.openAt? path openNext?, rest)
  | '[' :: rest => do
    let (path, rest) ← key? rest
    let ']' :: rest := rest | none
    return (← d.openAt? path openTable?, rest)
  | _ => do
    let (path, rest) ← key? cs
    let '=' :: rest := rest | none
    let (value, rest) ← value? (2 * rest.length + 2) (nestingLimit - 1) (skipBlanks rest)
    return (← d.add? path value, rest)

/-- All lines of a document. -/
def lines? : Nat → Document → List Char → Option Document
  | 0, _, _ => none
  | steps + 1, d, cs =>
    match endLine? cs with
    | some [] => some d
    | some rest => lines? steps d rest
    | none => do
      let (d, rest) ← line? d (skipBlanks cs)
      lines? steps d (← endLine? rest)

/-- Reads a whole text, which may start with a byte order mark. -/
def parse (text : String) : Option Members :=
  let cs := match text.toList with
    | '\uFEFF' :: rest => rest
    | cs => cs
  (lines? (cs.length + 1) {} cs).map (·.members)

end MethodCompiler.Toml
