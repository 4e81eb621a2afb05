import MethodCompiler.Annotated
import MethodCompiler.Machine.Basic

/-!
# What a tree means

A checked method body can be run without any code. The state is that of the machine
except for the stack, which is neither read nor written: locals, objects, the log of
calls, the classes and the host. Statements end in one of the ways that a structured
language has. They run to their end, they break out of a construct or go on with its
next round, an object is in flight, or everything stops.

Loops may go round for ever, so the interpretation is given a number of rounds that no
loop may exceed. Whatever does not exceed it does not depend on it either.

An expression has a value and a truth, and a truth is tested for: the condition of an if
is tested for being false, that of a do loop for being true. This makes no difference to
anything but comparisons. How values compare is a parameter, `Comparing`. The plain way
forgets what is tested for, and the way of the code, `tested`, does so unless a double
without an order is found where the types say that there is none.
-/

namespace MethodCompiler.Interpretation

open Annotated (Expr Place Stmt Catch Finally Program Jumps)

/-- How a part of a method body ends. -/
inductive Result (σ α : Type) where
  | done (a : α) (m : Machine σ)
  /-- an object of a class is in flight -/
  | raised (thrown : Value) (className : String) (m : Machine σ)
  | stopped (why : Stop) (m : Machine σ)
  /-- a loop went round too often -/
  | exhausted

/-- A part of a method body, as a function of the state it is started in. -/
def Eval (σ α : Type) := Machine σ → Result σ α

namespace Eval

variable {σ α : Type}

instance : Monad (Eval σ) where
  pure a := fun m => .done a m
  bind x f := fun m =>
    match x m with
    | .done a m => f a m
    | .raised v className m => .raised v className m
    | .stopped why m => .stopped why m
    | .exhausted => .exhausted

instance : LawfulMonad (Eval σ) := .mk' _
  (fun x => by
    funext m
    simp only [Functor.map]
    cases x m <;> rfl)
  (fun _ _ => rfl)
  (fun x f g => by
    funext m
    simp only [bind]
    cases x m <;> rfl)

/-! ## Operations -/

/-- Everything stops. -/
def stop (why : Stop) : Eval σ α :=
  fun m => .stopped why m

/-- The result of an operation on values. -/
def ofExcept : Except ValueError α → Eval σ α
  | .ok a => pure a
  | .error e => stop (.value e)

/-- A fresh object without fields. -/
def allocate (className : String) : Eval σ Value :=
  fun m => .done (.ref m.heap.size) { m with heap := m.heap.push ⟨className, []⟩ }

/-- Throws a fresh object. -/
def raiseNew (className : String) : Eval σ α :=
  fun m =>
    .raised (.ref m.heap.size) className { m with heap := m.heap.push ⟨className, []⟩ }

/-- Throws a value, which had better be an object. -/
def throwValue (v : Value) : Eval σ α :=
  match v with
  | .null => raiseNew "NullPointerException"
  | v => fun m =>
    match m.classOf? v with
    | some className => .raised v className m
    | none => .stopped (.cannotThrow v) m

/-- Reads a local. -/
def load (slot : Nat) : Eval σ Value :=
  fun m =>
    match m.locals[slot]? with
    | some v => .done v m
    | none => .stopped (.defect (.outOfBounds m.locals.size slot)) m

/-- Stores into a local. -/
def store (slot : Nat) (v : Value) : Eval σ Unit :=
  fun m =>
    if slot < m.locals.size then .done () { m with locals := m.locals.setIfInBounds slot v }
    else .stopped (.defect (.outOfBounds m.locals.size slot)) m

/-- Reads a field of an object. -/
def getField (target : Value) (name : String) : Eval σ Value :=
  match target with
  | .ref address => fun m =>
    match m.heap[address]? with
    | none => .stopped (.defect (.outOfBounds m.heap.size address)) m
    | some object =>
      match object.fields.lookup name with
      | some v => .done v m
      | none => .stopped (.fieldUnset name) m
  | _ => raiseNew "NullPointerException"

theorem getField_ref (address : Nat) (name : String) (m : Machine σ) :
    getField (.ref address) name m = match m.heap[address]? with
      | none => .stopped (.defect (.outOfBounds m.heap.size address)) m
      | some object =>
        match object.fields.lookup name with
        | some v => .done v m
        | none => .stopped (.fieldUnset name) m :=
  rfl

/-- Stores into a field of an object. -/
def putField (target : Value) (name : String) (v : Value) : Eval σ Unit :=
  match target with
  | .ref address => fun m =>
    if address < m.heap.size then
      .done () { m with
        heap := m.heap.modify address fun o => { o with fields := Assoc.insert name v o.fields } }
    else .stopped (.defect (.outOfBounds m.heap.size address)) m
  | _ => raiseNew "NullPointerException"

/-- An operation on two numbers. -/
def arithmetic (op : Arithmetic) (left right : Value) : Eval σ Value :=
  match Value.arithmetic op left right with
  | .ok (some v) => pure v
  | .ok none => raiseNew "ArithmeticException"
  | .error e => stop (.value e)

/-- Makes a call. If no value is wanted, nobody need answer. -/
def call (host : Host σ) (name : String) (args : List Value) (returns : Bool) : Eval σ Value :=
  fun m =>
    let m := { m with calls := m.calls.push ⟨name, args⟩ }
    match host.call m.host name args with
    | some (.returns v, state) => .done v { m with host := state }
    | some (.throws className, state) => raiseNew className { m with host := state }
    | none => if returns then .stopped (.unknownCall name) m else .done .null m

/-- Converts a number to a wider type. -/
def widen (source target : Ty) (v : Value) : Eval σ Value :=
  match source, target with
  | .int, .long => ofExcept v.intToLong
  | .int, .double => ofExcept v.intToDouble
  | .long, .double => ofExcept v.longToDouble
  | _, _ => stop (.defect (.noWidening source target))

end Eval

open Eval

/-! ## Expressions -/

/-- How two values of a static type compare, given the truth value that is tested for. -/
abbrev Comparing := Ty → Bool → Comparison → Value → Value → Except ValueError Bool

/-- Values compare in themselves. -/
def plain : Comparing :=
  fun _ _ c left right => Value.compare c left right

/-- Whether a comparison by order comes upon doubles without one. -/
def unordered (c : Comparison) : Value → Value → Bool
  | .double x, .double y => c ≠ .eq ∧ c ≠ .ne ∧ Value.compareDoubles x y = none
  | _, _ => false

/-- A comparison that is tested for being false is tested by its opposite, unless its
operands are doubles by their type. Both fail on doubles without an order, so at another
type the comparison then counts as true. -/
def tested : Comparing :=
  fun ty wanted c left right =>
    if ty ≠ .double ∧ wanted = false ∧ unordered c left right then .ok true
    else Value.compare c left right

/-- The number that stands for a truth value. -/
def ofBool (b : Bool) : Value :=
  .int (if b then 1 else 0)

/-- The number one in a type. -/
def one : Ty → Value
  | .long => .long 1
  | .double => .double 1.0
  | _ => .int 1

/-- The arithmetic of an operator. -/
def operation? : BinaryOp → Option Arithmetic
  | .add => some .add
  | .subtract => some .sub
  | .multiply => some .mul
  | .divide => some .div
  | .modulo => some .rem
  | _ => none

/-- The comparison of an operator. -/
def relation? : BinaryOp → Option Comparison
  | .equal => some .eq
  | .notEqual => some .ne
  | .lessThan => some .lt
  | .lessThanEqual => some .le
  | .greaterThan => some .gt
  | .greaterThanEqual => some .ge
  | _ => none

/-- What an expression means. -/
structure Reading (σ : Type) where
  value : Eval σ Value
  /-- its truth, tested for being the given one -/
  test : Bool → Eval σ Bool

namespace Reading

variable {σ : Type}

/-- An expression that has a value is true unless that is zero. -/
def ofValue (value : Eval σ Value) : Reading σ where
  value := value
  test _ := do return !(← value).isZero

/-- An expression that has a truth has a number for its value. -/
def ofTest (test : Bool → Eval σ Bool) : Reading σ where
  value := do return ofBool (← test false)
  test := test

/-- Whether both are true; the second is read only if it matters. -/
def both (left right : Reading σ) (tested : Bool) : Eval σ Bool := do
  if ← left.test false then right.test tested else return false

/-- Whether one of the two is true; the second is read only if it matters. -/
def either (left right : Reading σ) (tested : Bool) : Eval σ Bool := do
  if ← left.test true then return true else right.test tested

end Reading

section Expressions

variable {σ : Type} (cmp : Comparing) (host : Host σ)

/-- Whether two values of a static type compare as an operator says. -/
def compare (op : BinaryOp) (ty : Ty) (left right : Eval σ Value) (tested : Bool) :
    Eval σ Bool := do
  let a ← left
  let b ← right
  match relation? op with
  | some c => ofExcept (cmp ty tested c a b)
  | none => stop (.defect (.notAComparison op))

mutual

/-- The meaning of an expression. -/
def expr : Expr → Reading σ
  | .int _ v => .ofValue (pure (.int v))
  | .long _ v => .ofValue (pure (.long v))
  | .double _ v => .ofValue (pure (.double v))
  | .bool _ v => { value := pure (ofBool v), test := fun _ => pure v }
  | .null _ => .ofValue (pure .null)
  | .slot _ slot => .ofValue (load slot)
  | .field _ target name => .ofValue do getField (← (expr target).value) name
  | .widen ty inner => .ofValue do Eval.widen inner.ty ty (← (expr inner).value)
  | .assign _ (.slot slot) value _ => .ofValue do
    let v ← (expr value).value
    store slot v
    return v
  | .assign _ (.field target name) value _ => .ofValue do
    let object ← (expr target).value
    let v ← (expr value).value
    putField object name v
    return v
  | .binary _ op left right =>
    match op with
    | .logicalAnd => .ofTest ((expr left).both (expr right))
    | .logicalOr => .ofTest ((expr left).either (expr right))
    | _ =>
      match operation? op with
      | some operation => .ofValue do
        let a ← (expr left).value
        let b ← (expr right).value
        arithmetic operation a b
      | none => .ofTest (compare cmp op left.ty (expr left).value (expr right).value)
  | .unary _ op operand =>
    match op with
    | .logicalNot => .ofTest fun tested => do return !(← (expr operand).test (!tested))
    | .minus => .ofValue do ofExcept (← (expr operand).value).negate
    | .plus => .ofValue (expr operand).value
    | .bitwiseNot => .ofValue do
      let v ← (expr operand).value
      arithmetic .xor v (if operand.ty = .long then .long (-1) else .int (-1))
  | .increment _ op (.slot slot) _ => .ofValue do
    let old ← load slot
    let new ← ofExcept (old.increment op.delta)
    store slot new
    return if op.givesOldValue then old else new
  | .increment ty op (.field target name) _ => .ofValue do
    let object ← (expr target).value
    let old ← getField object name
    let new ← arithmetic (if 0 < op.delta then .add else .sub) old (one ty)
    putField object name new
    return if op.givesOldValue then old else new
  | .call ty name args => .ofValue do call host name (← exprs args) (ty != .void)
  | .new _ className => .ofValue (allocate className)
  | .error _ => .ofValue (stop (.defect .errorInTree))
termination_by structural e => e

/-- The values of arguments, the first one first. -/
def exprs : List Expr → Eval σ (List Value)
  | [] => pure []
  | e :: rest => do
    let v ← (expr e).value
    let vs ← exprs rest
    return v :: vs
termination_by structural es => es

end

/-- Whether a condition holds; without one it does. -/
def holds : Option Expr → Eval σ Bool
  | none => pure true
  | some c => (expr cmp host c).test false

end Expressions

/-! ## Statements -/

/-- How a statement ends that comes to an end. -/
inductive Flow where
  | normal
  /-- out of the construct with a number -/
  | brk (id : Nat)
  /-- on with the next round of the construct with a number -/
  | cont (id : Nat)
deriving DecidableEq, Repr

/-- How a loop is left by the way its body ended; it goes on if there is none. -/
def leaves (id : Nat) : Flow → Option Flow
  | .normal => none
  | .brk target => some (if target = id then .normal else .brk target)
  | .cont target => if target = id then none else some (.cont target)

/-- How a switch is left by the way its groups ended. -/
def leavesSwitch (id : Nat) : Flow → Flow
  | .brk target => if target = id then .normal else .brk target
  | flow => flow

namespace Eval

variable {σ : Type}

/-- Goes on with the second part only if the first runs to its end. -/
def andThen (first second : Eval σ Flow) : Eval σ Flow := do
  match ← first with
  | .normal => second
  | flow => return flow

/-- Rounds of a loop until one of them leaves it. -/
def loop (round : Eval σ (Option Flow)) : Nat → Eval σ Flow
  | 0 => fun _ => .exhausted
  | rounds + 1 => do
    match ← round with
    | some flow => return flow
    | none => loop round rounds

/-- What is to be done with an object in flight. -/
def catching (block : Eval σ Flow) (handle : Value → String → Eval σ Flow) : Eval σ Flow :=
  fun m =>
    match block m with
    | .raised v className m => handle v className m
    | result => result

/-- A finally body runs on every way out and then lets it go on, unless it goes another
way itself. An object in flight waits in a slot. -/
def withFinally (block : Eval σ Flow) (slot : Nat) (body : Eval σ Flow) : Eval σ Flow :=
  fun m =>
    match block m with
    | .done flow m => andThen body (pure flow) m
    | .raised v _ m => (do
        store slot v
        andThen body do throwValue (← load slot)) m
    | result => result

end Eval

section Statements

variable {σ : Type} (cmp : Comparing) (host : Host σ) (rounds : Nat)

mutual

/-- The meaning of a statement. -/
def stmt : Stmt → Eval σ Flow
  | .block body => stmts body
  | .localInit slot e => do
    store slot (← (expr cmp host e).value)
    return .normal
  | .expression e _ => do
    let _ ← (expr cmp host e).value
    return .normal
  | .ifElse c s none => do
    if ← (expr cmp host c).test false then stmt s else return .normal
  | .ifElse c s (some t) => do
    if ← (expr cmp host c).test false then stmt s else stmt t
  | .whileLoop j c body => loop (do
      if ← (expr cmp host c).test false then return leaves j.id (← stmt body)
      else return some .normal) rounds
  | .doLoop j body c => loop (do
      match leaves j.id (← stmt body) with
      | some flow => return some flow
      | none =>
        if ← (expr cmp host c).test true then return none else return some .normal) rounds
  | .forLoop j init c update body => andThen (stmts init) (loop (do
      if ← holds cmp host c then
        match leaves j.id (← stmt body) with
        | some flow => return some flow
        | none =>
          match ← stmts update with
          | .normal => return none
          | flow => return some flow
      else return some .normal) rounds)
  | .switch id _ e bodies d => do
    let v ← (expr cmp host e).value
    match v.int? with
    | none => stop (.value (.notAnInt v))
    | some key =>
      match d.groupFor key <|> d.defaultGroup with
      | none => return .normal
      | some group => return leavesSwitch id (← groups bodies group)
  | .tryCatch block clauses none => catching (stmts block) (catches clauses)
  | .tryCatch block clauses (some ⟨slot, body⟩) =>
    withFinally (catching (stmts block) (catches clauses)) slot (stmts body)
  | .breakJump id => return .brk id
  | .continueJump id => return .cont id
  | .throw e => do throwValue (← (expr cmp host e).value)
  | .empty => return .normal
termination_by structural s => s

/-- Statements one after another. -/
def stmts : List Stmt → Eval σ Flow
  | [] => return .normal
  | s :: rest => andThen (stmt s) (stmts rest)
termination_by structural body => body

/-- The groups of a switch from one of them on; each runs into the next. -/
def groups : List (List Stmt) → Nat → Eval σ Flow
  | [], _ => return .normal
  | body :: rest, 0 => andThen (stmts body) (groups rest 0)
  | _ :: rest, group + 1 => groups rest group
termination_by structural bodies => bodies

/-- The first clause whose class the object belongs to. -/
def catches : List (Catch Stmt) → Value → String → Eval σ Flow
  | [], v, className => fun m => .raised v className m
  | ⟨exceptionType, slot, body⟩ :: rest, v, className => fun m =>
    if m.classes.isSubclass className exceptionType then
      (do
        store slot v
        stmts body) m
    else catches rest v className m
termination_by structural clauses => clauses

end

end Statements

/-- Runs a method body: all locals are null at first. No loop goes round more than
`rounds` times; if one would, there is no answer. -/
def run (cmp : Comparing) {σ : Type} (host : Host σ) (rounds : Nat) (p : Program)
    (m : Machine σ) : Option (Outcome × Machine σ) :=
  match stmts cmp host rounds p.body { m with
      stack := [], locals := Array.replicate p.maxSlots .null } with
  | .done _ m => some (.halted, m)
  | .raised _ className m => some (.stopped (.uncaught className), m)
  | .stopped why m => some (.stopped why, m)
  | .exhausted => none

end MethodCompiler.Interpretation
