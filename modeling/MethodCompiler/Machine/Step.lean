import MethodCompiler.Machine.Basic

/-!
# Steps

One instruction is one step, a function of the machine. What a step has done
before it stops stays done: the machine is part of each answer.
-/

namespace MethodCompiler

/-- What an instruction leads to. -/
inductive Step (σ : Type) where
  /-- on to the next instruction -/
  | next (m : Machine σ)
  | jump (pc : Nat) (m : Machine σ)
  | raise (thrown : Value) (m : Machine σ)
  | halt (m : Machine σ)
  | stop (why : Stop) (m : Machine σ)

namespace Machine

/-! ## Parts of a step -/

/-- Goes on with the value on top of the stack, which is taken off. -/
def withTop (m : Machine σ) (k : Value → Machine σ → Step σ) : Step σ :=
  match m.stack with
  | [] => .stop .stackUnderflow m
  | v :: rest => k v { m with stack := rest }

/-- Puts a value on the stack and goes on to the next instruction. -/
def push (m : Machine σ) (v : Value) : Step σ :=
  .next { m with stack := v :: m.stack }

/-- Puts a value on the stack, if there is one. -/
def pushResult (m : Machine σ) : Except ValueError Value → Step σ
  | .ok v => m.push v
  | .error e => .stop (.value e) m

/-- A fresh object without fields. -/
def allocate (m : Machine σ) (className : String) : Value × Machine σ :=
  (.ref m.heap.size, { m with heap := m.heap.push ⟨className, []⟩ })

/-- Throws a fresh object. -/
def raiseNew (m : Machine σ) (className : String) : Step σ :=
  let (v, m) := m.allocate className
  .raise v m

/-- Jumps to a label. -/
def goTo (m : Machine σ) (code : Code) (l : Label) : Step σ :=
  match code.position l with
  | some pc => .jump pc m
  | none => .stop (.unplacedLabel l) m

/-- Jumps to the label an instruction comes with. -/
def branch (m : Machine σ) (code : Code) (i : Instruction) : Step σ :=
  match i.operand with
  | some (.label l) => m.goTo code l
  | other => .stop (.badOperand i.opcode other) m

/-- Stops at an index past the end. -/
def outOfBounds (m : Machine σ) (size index : Nat) : Step σ :=
  .stop (.defect (.outOfBounds size index)) m

/-! ## Instructions -/

/-- Puts a constant on the stack. -/
def pushConstant (m : Machine σ) (i : Instruction) : Step σ :=
  match i.operand with
  | some (.int v) => m.push (.int v)
  | some (.long v) => m.push (.long v)
  | some (.double v) => m.push (.double v)
  | other => .stop (.badOperand i.opcode other) m

/-- Puts a local on the stack. -/
def load (m : Machine σ) (i : Instruction) : Step σ :=
  match i.operand with
  | some (.slot slot) =>
    match m.locals[slot]? with
    | some v => m.push v
    | none => m.outOfBounds m.locals.size slot
  | other => .stop (.badOperand i.opcode other) m

/-- Takes a value off the stack into a local. -/
def store (m : Machine σ) (i : Instruction) : Step σ :=
  match i.operand with
  | some (.slot slot) => m.withTop fun v m =>
    if slot < m.locals.size then .next { m with locals := m.locals.setIfInBounds slot v }
    else m.outOfBounds m.locals.size slot
  | other => .stop (.badOperand i.opcode other) m

/-- Adds a constant to a local. -/
def increment (m : Machine σ) (i : Instruction) : Step σ :=
  match i.operand with
  | some (.increment slot delta) =>
    match m.locals[slot]? with
    | none => m.outOfBounds m.locals.size slot
    | some old =>
      match old.increment delta with
      | .ok v => .next { m with locals := m.locals.setIfInBounds slot v }
      | .error e => .stop (.value e) m
  | other => .stop (.badOperand i.opcode other) m

/-- An operation on the two values on top of the stack. -/
def arithmetic (m : Machine σ) (op : Arithmetic) : Step σ :=
  m.withTop fun right m => m.withTop fun left m =>
    match Value.arithmetic op left right with
    | .ok (some v) => m.push v
    | .ok none => m.raiseNew "ArithmeticException"
    | .error e => .stop (.value e) m

/-- Jumps if the value on top of the stack is zero, or if it is not. -/
def branchIfZero (m : Machine σ) (code : Code) (i : Instruction) (zero : Bool) : Step σ :=
  m.withTop fun v m => if v.isZero == zero then m.branch code i else .next m

/-- Jumps if the two values on top of the stack compare so. -/
def branchIf (m : Machine σ) (code : Code) (i : Instruction) (c : Comparison) : Step σ :=
  m.withTop fun right m => m.withTop fun left m =>
    match Value.compare c left right with
    | .ok true => m.branch code i
    | .ok false => .next m
    | .error e => .stop (.value e) m

/-- Goes on with the int on top of the stack, which is taken off. -/
def withInt (m : Machine σ) (k : Int32 → Machine σ → Step σ) : Step σ :=
  m.withTop fun v m =>
    match v.int? with
    | some key => k key m
    | none => .stop (.value (.notAnInt v)) m

/-- Jumps by a dense table. -/
def switchByTable (m : Machine σ) (code : Code) (i : Instruction) : Step σ :=
  match i.operand with
  | some (.table t) => m.withInt fun key m =>
    if t.low ≤ key ∧ key ≤ t.high then
      let index := (key.toInt - t.low.toInt).toNat
      match t.targets[index]? with
      | some l => m.goTo code l
      | none => m.outOfBounds t.targets.size index
    else m.goTo code t.default
  | other => .stop (.badOperand i.opcode other) m

/-- Jumps by a search among pairs, which are sorted by value. It is not specified which pair, if
any, a search finds among unsorted ones; here the last one with the value counts. -/
def switchByLookup (m : Machine σ) (code : Code) (i : Instruction) : Step σ :=
  match i.operand with
  | some (.lookup t) => m.withInt fun key m =>
    match t.pairs.findRev? (·.1 == key) with
    | some (_, l) => m.goTo code l
    | none => m.goTo code t.default
  | other => .stop (.badOperand i.opcode other) m

/-- Puts a fresh object on the stack. -/
def create (m : Machine σ) (i : Instruction) : Step σ :=
  match i.operand with
  | some (.name className) =>
    let (v, m) := m.allocate className
    m.push v
  | other => .stop (.badOperand i.opcode other) m

/-- Reads a field of the object on top of the stack. -/
def getField (m : Machine σ) (i : Instruction) : Step σ :=
  match i.operand with
  | some (.name name) => m.withTop fun v m =>
    match v with
    | .ref address =>
      match m.heap[address]? with
      | none => m.outOfBounds m.heap.size address
      | some object =>
        match object.fields.lookup name with
        | some v => m.push v
        | none => .stop (.fieldUnset name) m
    | _ => m.raiseNew "NullPointerException"
  | other => .stop (.badOperand i.opcode other) m

/-- Stores the value on top of the stack into a field of the object below it. -/
def putField (m : Machine σ) (i : Instruction) : Step σ :=
  match i.operand with
  | some (.name name) => m.withTop fun v m => m.withTop fun target m =>
    match target with
    | .ref address =>
      if address < m.heap.size then
        .next { m with
          heap := m.heap.modify address fun o => { o with fields := Assoc.insert name v o.fields } }
      else m.outOfBounds m.heap.size address
    | _ => m.raiseNew "NullPointerException"
  | other => .stop (.badOperand i.opcode other) m

/-- Hands a call to the host. A call without a value needs nobody to answer it. -/
def call (m : Machine σ) (host : Host σ) (name : String) (args : List Value) (returns : Bool) :
    Step σ :=
  let m := { m with calls := m.calls.push ⟨name, args⟩ }
  match host.call m.host name args with
  | some (.returns v, state) =>
    let m := { m with host := state }
    if returns then m.push v else .next m
  | some (.throws className, state) => { m with host := state }.raiseNew className
  | none => if returns then .stop (.unknownCall name) m else .next m

/-- Takes the arguments of a call off the stack and makes it. -/
def invoke (m : Machine σ) (host : Host σ) (i : Instruction) : Step σ :=
  match i.operand with
  | some (.call name argc returns) =>
    if m.stack.length < argc then .stop .stackUnderflow m
    else
      let args := (m.stack.take argc).reverse
      { m with stack := m.stack.drop argc }.call host name args returns
  | other => .stop (.badOperand i.opcode other) m

/-- Throws the value on top of the stack. -/
def throwTop (m : Machine σ) : Step σ :=
  m.withTop fun v m =>
    match v with
    | .null => m.raiseNew "NullPointerException"
    | v => .raise v m

/-- One instruction. -/
def step (m : Machine σ) (host : Host σ) (code : Code) (i : Instruction) : Step σ :=
  match i.opcode with
  | .halt => .halt m
  | .nop => .next m
  | .push => m.pushConstant i
  | .pushNull => m.push .null
  | .lconst0 => m.push (.long 0)
  | .lconst1 => m.push (.long 1)
  | .dconst0 => m.push (.double 0.0)
  | .dconst1 => m.push (.double 1.0)
  | .load => m.load i
  | .store => m.store i
  | .inc => m.increment i
  | .pop => m.withTop fun _ m => .next m
  | .dup => m.withTop fun v m => .next { m with stack := v :: v :: m.stack }
  | .dupX1 => m.withTop fun b m => m.withTop fun a m =>
    .next { m with stack := b :: a :: b :: m.stack }
  | .add => m.arithmetic .add
  | .sub => m.arithmetic .sub
  | .mul => m.arithmetic .mul
  | .div => m.arithmetic .div
  | .rem => m.arithmetic .rem
  | .xor => m.arithmetic .xor
  | .neg => m.withTop fun v m => m.pushResult v.negate
  | .i2l => m.withTop fun v m => m.pushResult v.intToLong
  | .i2d => m.withTop fun v m => m.pushResult v.intToDouble
  | .l2d => m.withTop fun v m => m.pushResult v.longToDouble
  | .goto => m.branch code i
  | .ifEq => m.branchIfZero code i true
  | .ifNe => m.branchIfZero code i false
  | .ifCmpEq => m.branchIf code i .eq
  | .ifCmpNe => m.branchIf code i .ne
  | .ifCmpLt => m.branchIf code i .lt
  | .ifCmpGe => m.branchIf code i .ge
  | .ifCmpGt => m.branchIf code i .gt
  | .ifCmpLe => m.branchIf code i .le
  | .tableSwitch => m.switchByTable code i
  | .lookupSwitch => m.switchByLookup code i
  | .new => m.create i
  | .getField => m.getField i
  | .putField => m.putField i
  | .invoke => m.invoke host i
  | .throw => m.throwTop

end Machine

end MethodCompiler
