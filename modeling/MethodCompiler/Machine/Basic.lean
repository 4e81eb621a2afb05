import MethodCompiler.Code.Listing
import MethodCompiler.Defect
import MethodCompiler.Machine.ClassTree
import MethodCompiler.Machine.Host

/-!
# The machine

The machine runs code on a stack and local slots. Objects, the log of calls, the
classes and the host outlive a run. A run ends at a halt, or it stops: because of
the code, because nothing catches what was thrown, or because the limit is
reached.
-/

namespace MethodCompiler

/-- An object: its class and the fields that have been stored into. -/
structure Object where
  className : String
  fields : List (String × Value) := []
deriving DecidableEq, Repr

/-- A call that was made. -/
structure Call where
  name : String
  args : List Value
deriving DecidableEq, Repr

/-- A machine whose host has states of type `σ`. -/
structure Machine (σ : Type) where
  /-- the top first -/
  stack : List Value := []
  locals : Array Value := #[]
  heap : Array Object := #[]
  /-- the calls made so far, the first one first -/
  calls : Array Call := #[]
  classes : ClassTree := .builtIn
  host : σ

/-- Why a run stops without a halt. -/
inductive Stop where
  | badOperand (opcode : Opcode) (operand : Option Operand)
  | stackUnderflow
  | value (error : ValueError)
  | fieldUnset (name : String)
  | unknownCall (name : String)
  | cannotThrow (v : Value)
  | stepLimit (limit : Nat)
  | ranOff (pc : Nat)
  | unplacedLabel (l : Label)
  /-- nothing catches an object of a class -/
  | uncaught (className : String)
  | defect (defect : Defect)
deriving DecidableEq

/-- The message of a stop. -/
def Stop.message : Stop → String
  | badOperand opcode operand =>
    s!"runtime error: bad operand for {opcode.name}: {inspectOperand operand}"
  | stackUnderflow => "runtime error: stack underflow"
  | value error => s!"runtime error: {error.message}"
  | fieldUnset name => s!"runtime error: field {name} read before assignment"
  | unknownCall name => s!"runtime error: no native registered for {name}"
  | cannotThrow v => s!"runtime error: cannot throw {v.text}"
  | stepLimit limit => s!"runtime error: step limit of {limit} exceeded"
  | ranOff pc => s!"runtime error: ran off the end at {pc}"
  | unplacedLabel l => unplacedText l
  | uncaught className => s!"uncaught exception: {className}"
  | defect d => d.message

/-- How a run ends. -/
inductive Outcome where
  | halted
  | stopped (why : Stop)
deriving DecidableEq

namespace Machine

/-- The object a value refers to. -/
def object? (m : Machine σ) : Value → Option Object
  | .ref address => m.heap[address]?
  | _ => none

/-- The class of the object a value refers to. -/
def classOf? (m : Machine σ) (v : Value) : Option String :=
  (m.object? v).map (·.className)

/-- A field of the object a value refers to. -/
def field? (m : Machine σ) (v : Value) (name : String) : Option Value :=
  (m.object? v).bind (·.fields.lookup name)

end Machine

end MethodCompiler
