import MethodCompiler.Decimal.Layout
import MethodCompiler.Json.Basic

/-!
# Writing JSON text

Values are written on one line, or indented with two blanks for each level, in
which case an empty array or object still takes no line of its own. In strings
only quotes, backslashes and control characters are escaped. Unreadable values
come from reading alone; they are written as nothing.
-/

namespace MethodCompiler.Json

/-- A digit of base sixteen, in lower case. -/
def hexChar (n : Nat) : Char :=
  if n < 10 then Char.ofNat ('0'.toNat + n) else Char.ofNat ('a'.toNat + (n - 10))

/-- A character inside a string. -/
def writeChar (c : Char) : List Char :=
  match c with
  | '"' => ['\\', '"']
  | '\\' => ['\\', '\\']
  | '\n' => ['\\', 'n']
  | '\r' => ['\\', 'r']
  | '\t' => ['\\', 't']
  | '\x08' => ['\\', 'b']
  | '\x0c' => ['\\', 'f']
  | c =>
    if c < ' ' then ['\\', 'u', '0', '0', hexChar (c.toNat / 16), hexChar (c.toNat % 16)]
    else [c]

/-- A string with its quotes. -/
def writeString (s : String) : String :=
  String.ofList ('"' :: s.toList.flatMap writeChar ++ ['"'])

/-- A value without parts. -/
def writeScalar : Json → String
  | .bool true => "true"
  | .bool false => "false"
  | .integer n => toString n
  | .double x => Layout.json.text x
  | .string s => writeString s
  | _ => "null"

mutual

/-- A value on one line. -/
def compact : Json → String
  | .array items => "[" ++ ",".intercalate (compactItems items) ++ "]"
  | .object members => "\x7b" ++ ",".intercalate (compactMembers members) ++ "\x7d"
  | value => writeScalar value

def compactItems : List Json → List String
  | [] => []
  | item :: rest => compact item :: compactItems rest

def compactMembers : List (String × Json) → List String
  | [] => []
  | (key, value) :: rest => (writeString key ++ ":" ++ compact value) :: compactMembers rest

end

/-- The start of a line at a level. -/
def newLine (level : Nat) : String :=
  "\n" ++ String.ofList (List.replicate (2 * level) ' ')

/-- Parts between brackets, each on a line of its own one level further in. -/
def bracketed (level : Nat) (opening closing : String) (parts : List String) : String :=
  if parts.isEmpty then opening ++ closing
  else
    opening ++ newLine (level + 1) ++ ("," ++ newLine (level + 1)).intercalate parts ++
      newLine level ++ closing

mutual

/-- A value with a line for each of its parts. -/
def indented (level : Nat) : Json → String
  | .array items => bracketed level "[" "]" (indentedItems (level + 1) items)
  | .object members => bracketed level "\x7b" "\x7d" (indentedMembers (level + 1) members)
  | value => writeScalar value

def indentedItems (level : Nat) : List Json → List String
  | [] => []
  | item :: rest => indented level item :: indentedItems level rest

def indentedMembers (level : Nat) : List (String × Json) → List String
  | [] => []
  | (key, value) :: rest =>
    (writeString key ++ ": " ++ indented level value) :: indentedMembers level rest

end

/-- A value with a line for each of its parts. -/
def pretty (value : Json) : String :=
  indented 0 value

end MethodCompiler.Json
