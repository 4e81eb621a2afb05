import MethodCompiler.Annotated
import MethodCompiler.Diagnostic
import MethodCompiler.Scope
import MethodCompiler.Source.Basic

/-!
# Types of expressions

Expressions are typed from the inside out, left to right, and complaints are
reported as they are met. Typing only looks at the scope; nothing an expression
does can declare a local.

Numbers are converted to a wider type in two places: where a value is stored, to
the type of the place, and in a binary operation, to the wider of the two operand
types. After a complaint an expression has the type that fits everywhere.
-/

namespace MethodCompiler.Typing

open Annotated (Expr Place)

/-- The typed form of a constant. -/
def literal : Source.Literal → Expr
  | .int v => .int .int v
  | .long v => .long .long v
  | .double v => .double .double v
  | .boolean v => .bool .boolean v
  | .null => .null .null

/-- Converts a number to a wider type, and leaves anything else alone. -/
def widen (e : Expr) (target : Ty) : Expr :=
  if e.ty.widensTo target then .widen target e else e

/-- Makes an expression fit a place of the given type. -/
def coerce (e : Expr) (target : Ty) (line : UInt32) : Reported Expr :=
  if e.ty.fits target then pure e
  else if e.ty.widensTo target then pure (widen e target)
  else do
    let _ ← e.ty.expect target line
    return e

/-- Wants an expression to be an object. -/
def asObject (line : UInt32) (e : Expr) : Reported Expr := do
  if !e.ty.isReference && e.ty != .any then
    Reported.report line (.notAnObject e.ty)
  return e

/-- A binary operation on typed operands. -/
def binary (line : UInt32) (op : BinaryOp) (left right : Expr) : Reported Expr :=
  match op with
  | .logicalAnd | .logicalOr => do
    let leftOk ← left.ty.expect .boolean line
    let rightOk ← right.ty.expect .boolean line
    return .binary (if leftOk && rightOk then .boolean else .any) op left right
  | .equal | .notEqual =>
    if left.ty.isNumeric && right.ty.isNumeric then numeric
    else if left.ty.fits right.ty && left.ty != .void && right.ty != .void then
      pure (.binary .boolean op left right)
    else do
      Reported.report line (.incomparable left.ty right.ty)
      return .binary .any op left right
  | _ => numeric
where
  /-- An operation on numbers, which are brought to the wider of their types. -/
  numeric : Reported Expr := do
    let leftOk ← left.ty.expectOneOf Ty.numeric line
    let rightOk ← right.ty.expectOneOf Ty.numeric line
    if !leftOk || !rightOk || left.ty = .any || right.ty = .any then
      return .binary .any op left right
    let operand := left.ty.wider right.ty
    return .binary (if op.isArithmetic then operand else .boolean) op
      (widen left operand) (widen right operand)

/-- The operand types of a unary operator. -/
def unaryOperands : UnaryOp → List Ty
  | .minus | .plus => Ty.numeric
  | .bitwiseNot => [.int, .long]
  | .logicalNot => [.boolean]

/-- A unary operation on a typed operand. -/
def unary (line : UInt32) (op : UnaryOp) (operand : Expr) : Reported Expr := do
  let ok ← operand.ty.expectOneOf (unaryOperands op) line
  return .unary (if ok then operand.ty else .any) op operand

/-- A step of a place of the given type, if one was found. -/
def increment (line : UInt32) (op : UpdateOp) (used : Bool) :
    Option (Place Expr × Ty) → Reported Expr
  | none => pure .failed
  | some (place, ty) =>
    if ty.isIncrementable then pure (.increment ty op place used)
    else do
      let _ ← ty.expectOneOf Ty.numeric line
      return .failed

mutual

/-- The typed form of an expression; `used` tells whether its value is wanted. -/
def expr (scope : Scope) (used : Bool) : Source.Expr → Reported Expr
  | .literal _ value => pure (literal value)
  | .var line name =>
    match scope.resolve? name with
    | some l => pure (.slot l.ty l.slot)
    | none => do
      Reported.report line (.unknownName name)
      return .failed
  | .field _ target name ty => do
    let target ← asObject target.line (← expr scope true target)
    return .field ty target name
  | .assignment line target value => do
    match ← place scope "assignment" target with
    | none =>
      let _ ← expr scope true value
      return .failed
    | some (place, ty) =>
      let value ← coerce (← expr scope true value) ty line
      return .assign ty place value used
  | .binary line op left right => do
    let left ← expr scope true left
    let right ← expr scope true right
    binary line op left right
  | .unary line op argument => do
    unary line op (← expr scope true argument)
  | .update line op argument =>
    if argument.isPlace then do
      increment line op used (← place scope op.symbol argument)
    else do
      Reported.report line (.notAPlace op.symbol)
      return .failed
  | .call _ callee arguments returns => do
    return .call returns callee (← exprs scope arguments)
  | .new _ className => pure (.new (.reference className) className)
termination_by structural e => e

/-- The typed forms of arguments. -/
def exprs (scope : Scope) : List Source.Expr → Reported (List Expr)
  | [] => pure []
  | e :: rest => do
    let e ← expr scope true e
    return e :: (← exprs scope rest)
termination_by structural es => es

/-- The place an expression denotes and its type, or a complaint that it denotes
none; `what` names the operation that wants it. -/
def place (scope : Scope) (what : String) : Source.Expr → Reported (Option (Place Expr × Ty))
  | .var line name =>
    match scope.resolve? name with
    | some l => pure (some (.slot l.slot, l.ty))
    | none => do
      Reported.report line (.unknownName name)
      return none
  | .field _ target name ty => do
    let target ← asObject target.line (← expr scope true target)
    return some (.field target name, ty)
  | e => do
    Reported.report e.line (.notAPlace what)
    return none
termination_by structural e => e

end

/-- The typed form of a condition, which has to be boolean. -/
def condition (scope : Scope) (line : UInt32) (e : Source.Expr) : Reported Expr := do
  let e ← expr scope true e
  let _ ← e.ty.expect .boolean line
  return e

/-- Whether an expression that stands alone leaves a value behind. Stores and
steps know that theirs is not wanted. -/
def leavesValue : Expr → Bool
  | .assign .. | .increment .. | .error _ => false
  | e => e.ty != .void

/-- The value of an int constant, which may have signs in front. -/
def constantInt? : Expr → Option Int32
  | .int _ v => some v
  | .unary _ .minus operand => (constantInt? operand).map fun v => -v
  | .unary _ .plus operand => constantInt? operand
  | _ => none

/-- The value of a case label, or complaints about it. -/
def caseValue (scope : Scope) (e : Source.Expr) : Reported (Option Int32) := do
  let typed ← expr scope true e
  if ← typed.ty.expect .int e.line then
    match constantInt? typed with
    | some v => return some v
    | none =>
      if typed.ty != .any then
        Reported.report e.line .caseNotConstant
      return none
  else return none

end MethodCompiler.Typing
