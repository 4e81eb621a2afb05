import MethodCompiler.Code.Opcode
import MethodCompiler.Decimal.Layout
import MethodCompiler.Double

/-!
# Values

What the machine computes with: three kinds of numbers and references. A boolean
is the int 0 or 1. Whole numbers wrap around at the ends of their range; doubles
follow IEEE 754.
-/

namespace MethodCompiler

/-- A value of the machine. -/
inductive Value where
  | int (v : Int32)
  | long (v : Int64)
  | double (v : Float)
  | null
  /-- the object at a place in the heap -/
  | ref (address : Nat)
deriving DecidableEq, Repr, Inhabited

/-- An operation on two numbers of one kind. -/
inductive Arithmetic where
  | add | sub | mul | div | rem | xor
deriving DecidableEq, Repr

/-- The opcode of an operation. -/
def Arithmetic.opcode : Arithmetic → Opcode
  | add => .add
  | sub => .sub
  | mul => .mul
  | div => .div
  | rem => .rem
  | xor => .xor

/-- A comparison of two values. -/
inductive Comparison where
  | eq | ne | lt | ge | gt | le
deriving DecidableEq, Repr

/-- Whether a comparison holds of two values in the given order. Values without
an order are only unequal. -/
def Comparison.holds : Comparison → Option Ordering → Bool
  | ne, none => true
  | _, none => false
  | eq, some o => o == .eq
  | ne, some o => o != .eq
  | lt, some o => o == .lt
  | ge, some o => o != .lt
  | gt, some o => o == .gt
  | le, some o => o != .gt

/-- What is wrong with the operands of an instruction. -/
inductive ValueError where
  | mismatched (op : Arithmetic) (left right : Value)
  | xorOfDoubles
  | incomparable (left right : Value)
  | orderOfReferences
  | cannotNegate (v : Value)
  | cannotIncrement (v : Value)
  | cannotConvert (v : Value) (conversion : Opcode)
  | notAnInt (v : Value)
deriving DecidableEq, Repr

namespace Value

/-- The text of a value. -/
def text : Value → String
  | int v => toString v.toInt
  | long v => s!"{v.toInt}L"
  | double v => Layout.value.text v
  | null => "null"
  | ref address => s!"@{address}"

/-- The number of an int. -/
def int? : Value → Option Int32
  | int v => some v
  | _ => none

/-- Whether a value is a number equal to zero. -/
def isZero : Value → Bool
  | int v => v == 0
  | long v => v == 0
  | double v => v == 0.0
  | null | ref _ => false

/-- An operation on ints. Nothing can be divided by zero. -/
def intArithmetic (op : Arithmetic) (x y : Int32) : Option Int32 :=
  match op with
  | .add => some (x + y)
  | .sub => some (x - y)
  | .mul => some (x * y)
  | .div => if y = 0 then none else some (x / y)
  | .rem => if y = 0 then none else some (x % y)
  | .xor => some (x ^^^ y)

/-- An operation on longs. Nothing can be divided by zero. -/
def longArithmetic (op : Arithmetic) (x y : Int64) : Option Int64 :=
  match op with
  | .add => some (x + y)
  | .sub => some (x - y)
  | .mul => some (x * y)
  | .div => if y = 0 then none else some (x / y)
  | .rem => if y = 0 then none else some (x % y)
  | .xor => some (x ^^^ y)

/-- An operation on doubles. Only their bits cannot be taken. -/
def doubleArithmetic (op : Arithmetic) (x y : Float) : Option Float :=
  match op with
  | .add => some (x + y)
  | .sub => some (x - y)
  | .mul => some (x * y)
  | .div => some (x / y)
  | .rem => some (Double.remainder x y)
  | .xor => none

/-- An operation on two numbers of one kind. There is no result of a division of
whole numbers by zero. -/
def arithmetic (op : Arithmetic) : Value → Value → Except ValueError (Option Value)
  | int x, int y => .ok ((intArithmetic op x y).map int)
  | long x, long y => .ok ((longArithmetic op x y).map long)
  | double x, double y =>
    match doubleArithmetic op x y with
    | some z => .ok (some (double z))
    | none => .error .xorOfDoubles
  | a, b => .error (.mismatched op a b)

/-- The order of two doubles; a NaN has none. -/
def compareDoubles (x y : Float) : Option Ordering :=
  if x < y then some .lt
  else if x == y then some .eq
  else if y < x then some .gt
  else none

/-- Whether two references are the same; they have no order. -/
def compareReferences (c : Comparison) (same : Bool) : Except ValueError Bool :=
  match c with
  | .eq => .ok same
  | .ne => .ok !same
  | _ => .error .orderOfReferences

/-- Whether two values compare so. -/
def compare (c : Comparison) : Value → Value → Except ValueError Bool
  | int x, int y => .ok (c.holds (some (Ord.compare x y)))
  | long x, long y => .ok (c.holds (some (Ord.compare x y)))
  | double x, double y => .ok (c.holds (compareDoubles x y))
  | null, null => compareReferences c true
  | null, ref _ | ref _, null => compareReferences c false
  | ref x, ref y => compareReferences c (x == y)
  | a, b => .error (.incomparable a b)

/-- The negative of a number. -/
def negate : Value → Except ValueError Value
  | int v => .ok (int (-v))
  | long v => .ok (long (-v))
  | double v => .ok (double (-v))
  | v => .error (.cannotNegate v)

/-- A number plus a constant. -/
def increment (delta : Int32) : Value → Except ValueError Value
  | int v => .ok (int (v + delta))
  | long v => .ok (long (v + delta.toInt64))
  | double v => .ok (double (v + Float.ofInt delta.toInt))
  | v => .error (.cannotIncrement v)

/-- An int as a long. -/
def intToLong : Value → Except ValueError Value
  | int v => .ok (long v.toInt64)
  | v => .error (.cannotConvert v .i2l)

/-- An int as a double. -/
def intToDouble : Value → Except ValueError Value
  | int v => .ok (double (Float.ofInt v.toInt))
  | v => .error (.cannotConvert v .i2d)

/-- The double nearest to a long. -/
def longToDouble : Value → Except ValueError Value
  | long v => .ok (double (Float.ofInt v.toInt))
  | v => .error (.cannotConvert v .l2d)

end Value

/-- The message of an error. -/
def ValueError.message : ValueError → String
  | mismatched op a b => s!"{op.opcode.name} on mismatched operands {a.text} and {b.text}"
  | xorOfDoubles => "xor on double"
  | incomparable a b => s!"cannot compare {a.text} and {b.text}"
  | orderOfReferences => "ordering comparison on references"
  | cannotNegate v => s!"cannot negate {v.text}"
  | cannotIncrement v => s!"cannot increment {v.text}"
  | cannotConvert v conversion => s!"cannot convert {v.text} with {conversion.name}"
  | notAnInt v => s!"expected int, found {v.text}"

end MethodCompiler
