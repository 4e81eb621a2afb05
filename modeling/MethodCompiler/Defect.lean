import MethodCompiler.Code.Opcode
import MethodCompiler.Construct
import MethodCompiler.Operator
import MethodCompiler.Ty

/-!
# Defects

A defect is a broken promise between the parts of the compiler, never a mistake
in the method body. Each part names the promises it relies on, so that "this
cannot happen" is a statement about the values below.
-/

namespace MethodCompiler

/-- The 64-bit operations whose overflow is a defect. -/
inductive CheckedOp where
  | add | subtract | multiply
deriving DecidableEq, Repr

/-- The word for a checked operation. -/
def CheckedOp.word : CheckedOp → String
  | add => "add"
  | subtract => "subtract"
  | multiply => "multiply"

/-- A broken promise between parts of the compiler. -/
inductive Defect where
  /-- arithmetic left its range -/
  | overflow (op : CheckedOp)
  /-- a list was indexed past its end -/
  | outOfBounds (size index : Nat)
  /-- a switch was opened as a loop -/
  | switchAsLoop
  /-- a loop was closed that is not the innermost open construct -/
  | notInnermostLoop (id : Nat) (found : Option Frame)
  /-- a switch was closed that is not the innermost open construct -/
  | notInnermostSwitch (id : Nat) (found : Option Frame)
  /-- a break was resolved where nothing is open -/
  | breakNowhere
  /-- a continue was resolved where nothing is open -/
  | continueNowhere
  /-- a construct was still open at the end of the body -/
  | constructLeftOpen
  /-- code for a construct was requested inside itself -/
  | constructInsideItself (id : Nat)
  /-- a jump to a construct stands outside it -/
  | jumpFromOutside (id : Nat)
  /-- a continue names a construct that cannot be continued -/
  | notContinuable (id : Nat)
  /-- code for a construct is there, and the constructs around are not those from before -/
  | constructsLeft
  /-- a region was closed when none was open -/
  | regionsEmptied
  /-- a copy of a finally body left more or fewer regions open than it found -/
  | regionsLeaked (found wanted : Nat)
  /-- a region was still open at the end of the code -/
  | regionsLeft
  /-- code was requested for an expression with a complaint -/
  | errorInTree
  /-- code was requested for a conversion that does not exist -/
  | noWidening (source target : Ty)
  /-- an operator that compares nothing was used to branch -/
  | notAComparison (op : BinaryOp)
  /-- an opcode that is no conditional branch was negated -/
  | notABranch (opcode : Opcode)
  /-- a label was placed that was never created -/
  | labelUnknown (label : Nat)
  /-- a label was placed a second time -/
  | labelPlacedTwice (label : Nat)
  /-- a dense switch does not have one target for each value -/
  | tableSize (targets : Nat) (values : Int)
  /-- a sparse switch does not have as many pairs as announced -/
  | lookupSize (announced pairs : Nat)
deriving DecidableEq, Repr

namespace Defect

/-- Two numbers that should have been equal. -/
def unequal (what left right : String) : String :=
  s!"assertion `left == right` failed: {what}\n  left: {left}\n right: {right}"

/-- The frame found where another was expected. -/
def inspectFound : Option Frame → String
  | none => "None"
  | some frame => s!"Some({frame.inspect})"

/-- The text of a defect. -/
def message : Defect → String
  | overflow op => s!"attempt to {op.word} with overflow"
  | outOfBounds size index =>
    s!"index out of bounds: the len is {size} but the index is {index}"
  | switchAsLoop => "push_loop called for a switch"
  | notInnermostLoop id found =>
    s!"unbalanced enclosing stack: expected loop {constructText id}, found {inspectFound found}"
  | notInnermostSwitch id found =>
    s!"unbalanced enclosing stack: expected switch {constructText id}, found {inspectFound found}"
  | breakNowhere => "break resolved with an empty enclosing stack"
  | continueNowhere => "continue resolved with an empty enclosing stack"
  | constructLeftOpen => "enclosing stack not empty after analysis"
  | constructInsideItself id => s!"construct {constructText id} generated twice"
  | jumpFromOutside id => s!"jump to construct {constructText id} outside its generation"
  | notContinuable id => s!"continue to construct {constructText id} without a continue label"
  | constructsLeft => "construct labels leaked"
  | regionsEmptied => "try region stack emptied inside its own body"
  | regionsLeaked found wanted =>
    unequal "try regions leaked from a finally copy" (toString found) (toString wanted)
  | regionsLeft => "try regions leaked"
  | errorInTree => "error node reached code generation"
  | noWidening source target => s!"no widening from {source.text} to {target.text}"
  | notAComparison op => s!"{op.symbol} is not a comparison"
  | notABranch opcode => s!"{opcode.name} is not a conditional branch"
  | labelUnknown label => s!"label L{label} was not created by this buffer"
  | labelPlacedTwice label => s!"label L{label} placed twice"
  | tableSize targets values =>
    unequal "table switch needs one target per value" (toString targets) (toString values)
  | lookupSize announced pairs =>
    unequal "lookup switch pair count mismatch" (toString announced) (toString pairs)

end Defect

end MethodCompiler
