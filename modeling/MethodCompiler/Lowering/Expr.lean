import MethodCompiler.Annotated
import MethodCompiler.Lowering.Gen

/-!
# Code for expressions

An expression has two codes: one leaves its value on the stack, the other jumps
on its truth and leaves nothing. Each form gives one of them and the other
follows: a value is tested for zero, and a jump is turned into 0 or 1. Logical
operators jump, and so do comparisons; everything else has a value.

A jump on a comparison that fails takes the opposite comparison, except on
doubles, where both a comparison and its opposite fail on NaN.
-/

namespace MethodCompiler.Lowering

open Annotated (Expr Place)

/-- The two codes of an expression. -/
structure ExprCode where
  /-- leaves the value on the stack; void calls and unwanted values leave
  nothing -/
  value : Gen Unit
  /-- jumps to a label if the value is as given, and goes on otherwise -/
  branch : Label → Bool → Gen Unit

namespace ExprCode

/-- The codes of an expression that has a value. -/
def ofValue (value : Gen Unit) : ExprCode where
  value := value
  branch target onTrue := do
    value
    Gen.jump (if onTrue then .ifNe else .ifEq) target

/-- The codes of an expression that jumps. -/
def ofBranch (branch : Label → Bool → Gen Unit) : ExprCode where
  value := do
    let onFalse ← Gen.fresh
    let done ← Gen.fresh
    branch onFalse false
    Gen.emitWith .push (.int 1)
    Gen.jump .goto done
    Gen.place onFalse
    Gen.emitWith .push (.int 0)
    Gen.place done
  branch := branch

end ExprCode

/-- A constant of type long; zero and one have opcodes of their own. -/
def pushLong (v : Int64) : Gen Unit :=
  if v = 0 then Gen.emit .lconst0
  else if v = 1 then Gen.emit .lconst1
  else Gen.emitWith .push (.long v)

/-- A constant of type double; positive zero and one have opcodes of their own. -/
def pushDouble (v : Float) : Gen Unit :=
  if v.toBits = (0.0 : Float).toBits then Gen.emit .dconst0
  else if v == 1.0 then Gen.emit .dconst1
  else Gen.emitWith .push (.double v)

/-- The number one in a type. -/
def pushOne : Ty → Gen Unit
  | .long => Gen.emit .lconst1
  | .double => Gen.emit .dconst1
  | _ => Gen.emitWith .push (.int 1)

/-- The conversion between two types. -/
def widening? : Ty → Ty → Option Opcode
  | .int, .long => some .i2l
  | .int, .double => some .i2d
  | .long, .double => some .l2d
  | _, _ => none

/-- The opcode of an arithmetic operator. -/
def arithmetic? : BinaryOp → Option Opcode
  | .add => some .add
  | .subtract => some .sub
  | .multiply => some .mul
  | .divide => some .div
  | .modulo => some .rem
  | _ => none

/-- The branch taken when a comparison holds. -/
def comparison? : BinaryOp → Option Opcode
  | .equal => some .ifCmpEq
  | .notEqual => some .ifCmpNe
  | .lessThan => some .ifCmpLt
  | .lessThanEqual => some .ifCmpLe
  | .greaterThan => some .ifCmpGt
  | .greaterThanEqual => some .ifCmpGe
  | _ => none

/-- Jumps on the truth of two operands, of which the second counts only if the first is not
`decisive`. With `false` that is whether both are true, and with `true` whether one of them is. -/
def shortCircuit (decisive : Bool) (left right : ExprCode) (target : Label) (onTrue : Bool) :
    Gen Unit :=
  if onTrue = decisive then do
    left.branch target decisive
    right.branch target onTrue
  else do
    let skip ← Gen.fresh
    left.branch skip decisive
    right.branch target onTrue
    Gen.place skip

/-- Jumps on a comparison of operands of the given type. -/
def compareBranch (op : BinaryOp) (ty : Ty) (left right : Gen Unit) (target : Label)
    (onTrue : Bool) : Gen Unit := do
  left
  right
  match comparison? op with
  | none => Gen.fail (.notAComparison op)
  | some opcode =>
    if onTrue then Gen.jump opcode target
    else if ty = .double then
      let skip ← Gen.fresh
      Gen.jump opcode skip
      Gen.jump .goto target
      Gen.place skip
    else
      match opcode.negate? with
      | none => Gen.fail (.notABranch opcode)
      | some opposite => Gen.jump opposite target

/-- What is done to an operand that is already on the stack. -/
def applyUnary (op : UnaryOp) (operandTy : Ty) : Gen Unit :=
  match op with
  | .minus => Gen.emit .neg
  | .bitwiseNot => do
    Gen.emitWith .push (if operandTy = .long then .long (-1) else .int (-1))
    Gen.emit .xor
  | .plus | .logicalNot => pure ()

/-- Steps a local in place. -/
def incrementSlot (op : UpdateOp) (slot : Nat) (used : Bool) : Gen Unit := do
  Gen.emitIf (used && op.givesOldValue) ⟨.load, some (.slot slot)⟩
  Gen.emitWith .inc (.increment slot op.delta)
  Gen.emitIf (used && !op.givesOldValue) ⟨.load, some (.slot slot)⟩

/-- Steps a field of the object that `target` leaves on the stack. -/
def incrementField (op : UpdateOp) (ty : Ty) (target : Gen Unit) (name : String) (used : Bool) :
    Gen Unit := do
  target
  Gen.emit .dup
  Gen.emitWith .getField (.name name)
  Gen.emitIf (used && op.givesOldValue) ⟨.dupX1, none⟩
  pushOne ty
  Gen.emit (if 0 < op.delta then .add else .sub)
  Gen.emitIf (used && !op.givesOldValue) ⟨.dupX1, none⟩
  Gen.emitWith .putField (.name name)

mutual

/-- The codes of an expression. -/
def exprCode : Expr → ExprCode
  | .int _ v => .ofValue (Gen.emitWith .push (.int v))
  | .long _ v => .ofValue (pushLong v)
  | .double _ v => .ofValue (pushDouble v)
  | .bool _ v =>
    { value := Gen.emitWith .push (.int (if v then 1 else 0))
      branch := fun target onTrue => if v == onTrue then Gen.jump .goto target else pure () }
  | .null _ => .ofValue (Gen.emit .pushNull)
  | .slot _ slot => .ofValue (Gen.emitWith .load (.slot slot))
  | .field _ target name => .ofValue do
    (exprCode target).value
    Gen.emitWith .getField (.name name)
  | .widen ty inner => .ofValue do
    (exprCode inner).value
    match widening? inner.ty ty with
    | some opcode => Gen.emit opcode
    | none => Gen.fail (.noWidening inner.ty ty)
  | .assign _ (.slot slot) value used => .ofValue do
    (exprCode value).value
    Gen.emitIf used ⟨.dup, none⟩
    Gen.emitWith .store (.slot slot)
  | .assign _ (.field target name) value used => .ofValue do
    (exprCode target).value
    (exprCode value).value
    Gen.emitIf used ⟨.dupX1, none⟩
    Gen.emitWith .putField (.name name)
  | .binary _ op left right =>
    match op with
    | .logicalAnd => .ofBranch (shortCircuit false (exprCode left) (exprCode right))
    | .logicalOr => .ofBranch (shortCircuit true (exprCode left) (exprCode right))
    | _ =>
      match arithmetic? op with
      | some opcode => .ofValue do
        (exprCode left).value
        (exprCode right).value
        Gen.emit opcode
      | none => .ofBranch (compareBranch op left.ty (exprCode left).value (exprCode right).value)
  | .unary _ op operand =>
    if op = .logicalNot then
      .ofBranch fun target onTrue => (exprCode operand).branch target (!onTrue)
    else .ofValue do
      (exprCode operand).value
      applyUnary op operand.ty
  | .increment _ op (.slot slot) used => .ofValue (incrementSlot op slot used)
  | .increment ty op (.field target name) used =>
    .ofValue (incrementField op ty (exprCode target).value name used)
  | .call ty name args => .ofValue do
    argsCode args
    Gen.emitWith .invoke (.call name args.length (ty != .void))
  | .new _ className => .ofValue (Gen.emitWith .new (.name className))
  | .error _ => .ofValue (Gen.fail .errorInTree)
termination_by structural e => e

/-- Leaves the values of arguments on the stack, the last one on top. -/
def argsCode : List Expr → Gen Unit
  | [] => pure ()
  | e :: rest => do
    (exprCode e).value
    argsCode rest
termination_by structural es => es

end

/-- Leaves the value of an expression on the stack. -/
def value (e : Expr) : Gen Unit :=
  (exprCode e).value

/-- Jumps to a label if an expression has the given truth value. -/
def branch (e : Expr) (target : Label) (onTrue : Bool) : Gen Unit :=
  (exprCode e).branch target onTrue

end MethodCompiler.Lowering
