/-!
# Opcodes

The operations of the stack machine. An opcode says nothing about its operand:
whether the two fit together is checked when the instruction runs.
-/

namespace MethodCompiler

/-- An operation of the stack machine. -/
inductive Opcode where
  /-- push the operand, an int, long or double -/
  | push
  | pushNull
  /-- push long 0 or 1 -/
  | lconst0 | lconst1
  /-- push double 0.0 or 1.0 -/
  | dconst0 | dconst1
  /-- push a local -/
  | load
  /-- pop into a local -/
  | store
  /-- add a constant to a local in place -/
  | inc
  | pop
  | dup
  /-- duplicate the top below the second: `a b` becomes `b a b` -/
  | dupX1
  | add | sub | mul | div | rem | neg | xor
  /-- conversions int to long, int to double, long to double -/
  | i2l | i2d | l2d
  | goto
  /-- jump if the popped value is zero, or is not -/
  | ifEq | ifNe
  /-- pop two values and jump if they compare so -/
  | ifCmpEq | ifCmpNe | ifCmpLt | ifCmpGe | ifCmpGt | ifCmpLe
  | tableSwitch | lookupSwitch
  | getField | putField | new
  | invoke
  | throw
  | nop
  | halt
deriving DecidableEq, Repr, Inhabited

namespace Opcode

/-- Every opcode. -/
def all : List Opcode :=
  [push, pushNull, lconst0, lconst1, dconst0, dconst1, load, store, inc, pop, dup, dupX1,
    add, sub, mul, div, rem, neg, xor, i2l, i2d, l2d, goto, ifEq, ifNe, ifCmpEq, ifCmpNe,
    ifCmpLt, ifCmpGe, ifCmpGt, ifCmpLe, tableSwitch, lookupSwitch, getField, putField, new,
    invoke, throw, nop, halt]

/-- The name of an opcode in listings. -/
def name : Opcode → String
  | push => "Push"
  | pushNull => "PushNull"
  | lconst0 => "LConst0"
  | lconst1 => "LConst1"
  | dconst0 => "DConst0"
  | dconst1 => "DConst1"
  | load => "Load"
  | store => "Store"
  | inc => "Inc"
  | pop => "Pop"
  | dup => "Dup"
  | dupX1 => "DupX1"
  | add => "Add"
  | sub => "Sub"
  | mul => "Mul"
  | div => "Div"
  | rem => "Rem"
  | neg => "Neg"
  | xor => "Xor"
  | i2l => "I2L"
  | i2d => "I2D"
  | l2d => "L2D"
  | goto => "Goto"
  | ifEq => "IfEq"
  | ifNe => "IfNe"
  | ifCmpEq => "IfCmpEq"
  | ifCmpNe => "IfCmpNe"
  | ifCmpLt => "IfCmpLt"
  | ifCmpGe => "IfCmpGe"
  | ifCmpGt => "IfCmpGt"
  | ifCmpLe => "IfCmpLe"
  | tableSwitch => "TableSwitch"
  | lookupSwitch => "LookupSwitch"
  | getField => "GetField"
  | putField => "PutField"
  | new => "New"
  | invoke => "Invoke"
  | throw => "Throw"
  | nop => "Nop"
  | halt => "Halt"

/-- The opcode of a name. -/
def ofName? (s : String) : Option Opcode :=
  all.find? fun op => op.name == s

/-- The conditional branch that jumps exactly when this one does not. -/
def negate? : Opcode → Option Opcode
  | ifEq => some ifNe
  | ifNe => some ifEq
  | ifCmpEq => some ifCmpNe
  | ifCmpNe => some ifCmpEq
  | ifCmpLt => some ifCmpGe
  | ifCmpGe => some ifCmpLt
  | ifCmpGt => some ifCmpLe
  | ifCmpLe => some ifCmpGt
  | _ => none

end Opcode

end MethodCompiler
