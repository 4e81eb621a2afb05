/-!
# JSON values

A value as a reader finds it in text. Members of an object keep their order and
may repeat a key, because what a repeated key means is for the reader of the
object to decide. A number is an integer when it is written with digits only and
fits in 64 bits, signed or unsigned; any other number is a double.

Some text is well formed and still denotes nothing: a string with half a
surrogate pair, a number beyond the largest double, an object with such a
string for a key. It becomes `unreadable`, which can be skipped over and never
read.
-/

namespace MethodCompiler

/-- A JSON value. -/
inductive Json where
  | null
  | bool (b : Bool)
  | integer (n : Int)
  | double (x : Float)
  | string (s : String)
  | array (items : List Json)
  | object (members : List (String × Json))
  | unreadable
deriving Inhabited

namespace Json

/-- A natural number. -/
def natural (n : Nat) : Json :=
  .integer n

/-- A double, or nothing if it is no number that JSON can write. -/
def ofDouble (x : Float) : Json :=
  if x.isFinite then .double x else .null

/-- A value that may be absent. -/
def ofOption (write : α → Json) : Option α → Json
  | none => .null
  | some a => write a

/-- A list of values. -/
def ofList (write : α → Json) (items : List α) : Json :=
  .array (items.map write)

/-- The value of a key's first occurrence. -/
def member? (members : List (String × Json)) (key : String) : Option Json :=
  members.lookup key

end Json

end MethodCompiler
