import MethodCompiler.Code.Listing
import MethodCompiler.Defect

/-!
# Assembly

Code is put together by directives: create a label, place it, emit an
instruction, add a row to the exception table. Labels are created before they are
referred to, may be referred to before they are placed, and are placed once. When
everything is there, the code is sealed: references become positions, and rows
that cover nothing are left out.
-/

namespace MethodCompiler

/-- A step of putting code together. -/
inductive Directive where
  | create (l : Label)
  | place (l : Label)
  | emit (i : Instruction)
  /-- a dense switch -/
  | table (default : Label) (low high : Int32) (targets : List Label)
  /-- a sparse switch of an announced number of pairs, sorted by value -/
  | lookup (default : Label) (count : Nat) (pairs : List (Int32 × Label))
  | handler (start stop handler : Label) (catchType : Option String)
deriving DecidableEq

/-- A directive on a line. -/
def Directive.text : Directive → String
  | create l => s!"create {labelText l}"
  | place l => s!"place {labelText l}"
  | emit i => i.text
  | table default low high targets =>
    s!"TableSwitch {(Operand.table ⟨default, low, high, targets.toArray⟩).text}"
  | lookup default count pairs =>
    s!"LookupSwitch({count}) {(Operand.lookup ⟨default, pairs.toArray⟩).text}"
  | handler start stop target catchType =>
    s!"handler {labelText start}..{labelText stop} -> {labelText target} {catchText catchType}"

/-- Why code could not be put together. -/
inductive AssemblyError where
  /-- there would be more labels than there may be -/
  | labelsExhausted (limit : Nat)
  /-- a label is referred to that has no position -/
  | unplaced (l : Label)
  | defect (defect : Defect)
deriving DecidableEq

/-- A row of the exception table whose ends are still labels. -/
structure PendingHandler where
  start : Label
  stop : Label
  handler : Label
  catchType : Option String
deriving DecidableEq, Repr

/-- Code that is being put together. -/
structure Assembler where
  instructions : Array Instruction := #[]
  labels : Array (Option Nat) := #[]
  handlers : Array PendingHandler := #[]
  /-- how many labels there may be -/
  maxLabels : Nat

namespace Assembler

/-- Creates a label. -/
def createLabel (a : Assembler) : Except AssemblyError (Label × Assembler) :=
  if a.maxLabels ≤ a.labels.size then .error (.labelsExhausted a.maxLabels)
  else .ok (a.labels.size, { a with labels := a.labels.push none })

/-- Places a label before the next instruction. -/
def place (a : Assembler) (l : Label) : Except AssemblyError Assembler :=
  match a.labels[l]? with
  | none => .error (.defect (.labelUnknown l))
  | some (some _) => .error (.defect (.labelPlacedTwice l))
  | some none => .ok { a with labels := a.labels.setIfInBounds l (some a.instructions.size) }

/-- Emits an instruction. -/
def emit (a : Assembler) (i : Instruction) : Assembler :=
  { a with instructions := a.instructions.push i }

/-- Emits a dense switch, which has one target for each value. -/
def emitTable (a : Assembler) (default : Label) (low high : Int32) (targets : List Label) :
    Except AssemblyError Assembler :=
  let values := high.toInt - low.toInt + 1
  if targets.length = values then
    .ok (a.emit ⟨.tableSwitch, some (.table ⟨default, low, high, targets.toArray⟩)⟩)
  else .error (.defect (.tableSize targets.length values))

/-- Emits a sparse switch, which has as many pairs as announced. -/
def emitLookup (a : Assembler) (default : Label) (count : Nat) (pairs : List (Int32 × Label)) :
    Except AssemblyError Assembler :=
  if count = pairs.length then
    .ok (a.emit ⟨.lookupSwitch, some (.lookup ⟨default, pairs.toArray⟩)⟩)
  else .error (.defect (.lookupSize count pairs.length))

/-- Adds a row to the exception table. -/
def addHandler (a : Assembler) (start stop handler : Label) (catchType : Option String) :
    Assembler :=
  { a with handlers := a.handlers.push ⟨start, stop, handler, catchType⟩ }

/-- Carries out a directive. -/
def apply (a : Assembler) : Directive → Except AssemblyError Assembler
  | .create _ => a.createLabel.map (·.2)
  | .place l => a.place l
  | .emit i => .ok (a.emit i)
  | .table default low high targets => a.emitTable default low high targets
  | .lookup default count pairs => a.emitLookup default count pairs
  | .handler start stop handler catchType => .ok (a.addHandler start stop handler catchType)

/-- The position of a label. -/
def position (a : Assembler) (l : Label) : Except AssemblyError Nat :=
  match (a.labels[l]?).join with
  | some pc => .ok pc
  | none => .error (.unplaced l)

/-- A row with positions for labels. -/
def resolve (a : Assembler) (h : PendingHandler) : Except AssemblyError Handler := do
  return ⟨← a.position h.start, ← a.position h.stop, ← a.position h.handler, h.catchType⟩

/-- The first label in the order of the instructions that has no position. -/
def unplacedTarget? (a : Assembler) : Option Label :=
  (a.instructions.toList.flatMap Instruction.targets).find? fun l => ((a.labels[l]?).join).isNone

/-- Seals the code. Labels without position are complained about in the order of
the code, those of the exception table last. -/
def finish (a : Assembler) (maxLocals : Nat) : Except AssemblyError Code :=
  match a.unplacedTarget? with
  | some l => .error (.unplaced l)
  | none => do
    let handlers ← a.handlers.toList.mapM a.resolve
    return ⟨a.instructions, a.labels, handlers.filter fun h => h.start < h.stop, maxLocals⟩

end Assembler

end MethodCompiler
