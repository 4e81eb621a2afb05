/-!
# Static types

The types a method body can mention, and when a value of one of them may stand
where another is wanted. `any` is what an expression gets after a complaint
about it: it fits everywhere, so that one mistake is reported once.
-/

namespace MethodCompiler

/-- A static type. -/
inductive Ty where
  /-- 32-bit integers -/
  | int
  /-- 64-bit integers -/
  | long
  /-- 64-bit floating point -/
  | double
  | boolean
  /-- no value -/
  | void
  /-- the type of the null literal -/
  | null
  /-- objects of a class -/
  | reference (name : String)
  /-- stands for any type after a complaint -/
  | any
deriving DecidableEq, Repr, Inhabited

namespace Ty

/-- How a type is written in messages. -/
def text : Ty → String
  | int => "int"
  | long => "long"
  | double => "double"
  | boolean => "boolean"
  | void => "void"
  | null => "null"
  | reference name => name
  | any => "<error>"

/-- Whether a value of type `found` may stand where `expected` is wanted. The
classes of two references are not compared: how classes are related is not known
here. -/
def fits (found expected : Ty) : Bool :=
  match found, expected with
  | any, _ => true
  | _, any => true
  | null, reference _ => true
  | reference _, null => true
  | reference _, reference _ => true
  | a, b => a == b

/-- Whether arithmetic is defined on the type. -/
def isNumeric : Ty → Bool
  | int | long | double => true
  | _ => false

/-- Whether values of the type are objects or null. -/
def isReference : Ty → Bool
  | reference _ | null => true
  | _ => false

/-- Whether a location of the type can be stepped up and down. -/
def isIncrementable : Ty → Bool
  | int | long | double | any => true
  | _ => false

/-- The numeric types, as messages list them. -/
def numeric : List Ty :=
  [int, long, double]

/-- The place of a numeric type in the order of widening. -/
def rank : Ty → Nat
  | int => 0
  | long => 1
  | _ => 2

/-- The common type of two numeric operands. -/
def wider (a b : Ty) : Ty :=
  if rank b ≤ rank a then a else b

/-- Whether a value of type `source` is converted to `target` without being
asked. -/
def widensTo (source target : Ty) : Bool :=
  match source, target with
  | int, long | int, double | long, double => true
  | _, _ => false

end Ty

end MethodCompiler
