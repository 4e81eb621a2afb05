import MethodCompiler.Json.Basic

/-!
# Records and choices in JSON

A record is an object with the names of its fields for keys, in which other keys
are skipped and no field may come twice, or an array of all its fields in order.
A choice between forms is a string when the form has nothing to hold, or an
object with the form's name for its only key.
-/

namespace MethodCompiler.Json

/-- The values of a record's fields, in order; `none` where an object lacks one. -/
def fields? (names : List String) : Json → Option (List (Option Json))
  | .object members =>
    let values := names.map fun name => (members.filter fun m => m.1 == name).map (·.2)
    if values.all fun vs => vs.length ≤ 1 then some (values.map List.head?) else none
  | .array items => if items.length = names.length then some (items.map some) else none
  | _ => none

/-- Reads a field that may be absent or null. -/
def optional? (read : Json → Option α) : Option Json → Option (Option α)
  | none => some none
  | some .null => some none
  | some value => (read value).map some

/-- An integer between bounds, both included. -/
def integerIn? (least most : Int) : Json → Option Int
  | .integer n => if least ≤ n ∧ n ≤ most then some n else none
  | _ => none

def uint32? (j : Json) : Option UInt32 :=
  (integerIn? 0 4294967295 j).map fun n => UInt32.ofNat n.toNat

def int32? (j : Json) : Option Int32 :=
  (integerIn? (-2147483648) 2147483647 j).map Int32.ofInt

def int64? (j : Json) : Option Int64 :=
  (integerIn? (-9223372036854775808) 9223372036854775807 j).map Int64.ofInt

/-- A double; an integer is rounded to the nearest one. -/
def double? : Json → Option Float
  | .integer n => some (Float.ofInt n)
  | .double x => some x
  | _ => none

def bool? : Json → Option Bool
  | .bool b => some b
  | _ => none

def string? : Json → Option String
  | .string s => some s
  | _ => none

/-- A name of a form that holds nothing, when `nesting` more brackets may be
opened. -/
def formName? (nesting : Nat) : Json → Option String
  | .string s => some s
  | .object [(name, .null)] => if nesting = 0 then none else some name
  | _ => none

end MethodCompiler.Json
