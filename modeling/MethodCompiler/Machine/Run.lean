import MethodCompiler.Machine.Step

/-!
# Runs

A run is the steps up to a limit, which counts the instructions fetched. What is
thrown goes to the first row of the exception table that takes it.
-/

namespace MethodCompiler

/-- Where a run goes on after an instruction, or how it ends there. -/
inductive Turn (σ : Type) where
  | onward (pc : Nat) (m : Machine σ)
  | ended (outcome : Outcome) (m : Machine σ)

namespace Machine

/-- Whether a row takes an object of a class thrown at a position. -/
def takes (m : Machine σ) (pc : Nat) (className : String) (h : Handler) : Bool :=
  h.covers pc &&
    match h.catchType with
    | none => true
    | some caught => m.classes.isSubclass className caught

/-- Where a value thrown at a position is caught: by the first row that takes it.
The stack is then empty but for the value. -/
def unwind (m : Machine σ) (code : Code) (pc : Nat) (thrown : Value) :
    Except Stop (Nat × Machine σ) :=
  match m.classOf? thrown with
  | none => .error (.cannotThrow thrown)
  | some className =>
    match code.handlers.find? (m.takes pc className) with
    | some h => .ok (h.handler, { m with stack := [thrown] })
    | none => .error (.uncaught className)

/-- One instruction of a run, with what it throws on its way to a handler. -/
def advance (m : Machine σ) (host : Host σ) (code : Code) (pc : Nat) : Turn σ :=
  match code.instructions[pc]? with
  | none => .ended (.stopped (.ranOff pc)) m
  | some i =>
    match m.step host code i with
    | .next m => .onward (pc + 1) m
    | .jump target m => .onward target m
    | .halt m => .ended .halted m
    | .stop why m => .ended (.stopped why) m
    | .raise thrown m =>
      match m.unwind code pc thrown with
      | .ok (target, m) => .onward target m
      | .error why => .ended (.stopped why) m

/-- Runs from a position. At most `steps` instructions are fetched; `limit` is
the limit to complain about if they do not suffice. -/
def runFrom (host : Host σ) (code : Code) (limit : Nat) :
    (steps : Nat) → (pc : Nat) → Machine σ → Outcome × Machine σ
  | 0, _, m => (.stopped (.stepLimit limit), m)
  | steps + 1, pc, m =>
    match m.advance host code pc with
    | .onward pc m => runFrom host code limit steps pc m
    | .ended outcome m => (outcome, m)

/-- The machine before a run: the stack is empty and every local is null. -/
def ready (m : Machine σ) (code : Code) : Machine σ :=
  { m with stack := [], locals := Array.replicate code.maxLocals .null }

/-- Runs code from its start. -/
def execute (m : Machine σ) (host : Host σ) (limit : Nat) (code : Code) : Outcome × Machine σ :=
  runFrom host code limit limit 0 (m.ready code)

end Machine

end MethodCompiler
