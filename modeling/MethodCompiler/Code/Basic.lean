import MethodCompiler.Code.Opcode

/-!
# Code

The code of a method body: instructions, the places of labels among them, and
the exception table. Code may be put together by hand, so nothing here promises
that operands fit their opcodes or that labels have places; that is a property of
compiled code.
-/

namespace MethodCompiler

/-- A position in the code, referred to before it is known. -/
abbrev Label := Nat

/-- The name of a label. -/
def labelText (l : Label) : String :=
  s!"L{l}"

/-- The message about a label that is referred to and has no position. -/
def unplacedText (l : Label) : String :=
  s!"label {labelText l} referenced but never placed"

/-- Dense dispatch: one target for each value from `low` to `high`. -/
structure TableSwitch where
  default : Label
  low : Int32
  high : Int32
  targets : Array Label
deriving DecidableEq, Repr

/-- Sparse dispatch over pairs sorted by value. -/
structure LookupSwitch where
  default : Label
  pairs : Array (Int32 × Label)
deriving DecidableEq, Repr

/-- What an instruction comes with. -/
inductive Operand where
  | int (v : Int32)
  | long (v : Int64)
  | double (v : Float)
  /-- a local slot -/
  | slot (slot : Nat)
  /-- a step of a local slot -/
  | increment (slot : Nat) (delta : Int32)
  | label (l : Label)
  /-- a field or class -/
  | name (name : String)
  /-- a method, the number of its arguments, and whether it gives a value -/
  | call (name : String) (argc : Nat) (returns : Bool)
  | table (t : TableSwitch)
  | lookup (l : LookupSwitch)
deriving DecidableEq

/-- An opcode with what it comes with. -/
structure Instruction where
  opcode : Opcode
  operand : Option Operand := none
deriving DecidableEq

/-- The labels an instruction can jump to, the default of a switch first. -/
def Instruction.targets (i : Instruction) : List Label :=
  match i.operand with
  | some (.label l) => [l]
  | some (.table t) => t.default :: t.targets.toList
  | some (.lookup l) => l.default :: l.pairs.toList.map (·.2)
  | _ => []

/-- A row of the exception table: what is thrown between `start` and `stop` goes
to `handler` if it is of the caught class, or in any case if none is given. -/
structure Handler where
  start : Nat
  stop : Nat
  handler : Nat
  catchType : Option String
deriving DecidableEq, Repr

/-- Whether a position lies in the range of a row. -/
def Handler.covers (h : Handler) (pc : Nat) : Bool :=
  h.start ≤ pc && pc < h.stop

/-- The code of a method body. -/
structure Code where
  instructions : Array Instruction := #[]
  /-- the position of each label that has one -/
  labels : Array (Option Nat) := #[]
  /-- the exception table, searched from the top -/
  handlers : List Handler := []
  /-- how many local slots there are -/
  maxLocals : Nat := 0
deriving DecidableEq

namespace Code

/-- The position of a label. -/
def position (code : Code) (l : Label) : Option Nat :=
  (code.labels[l]?).join

/-- How many instructions have an opcode. -/
def count (code : Code) (opcode : Opcode) : Nat :=
  code.instructions.countP fun i => i.opcode = opcode

/-- The opcodes in order. -/
def opcodes (code : Code) : List Opcode :=
  code.instructions.toList.map (·.opcode)

end Code

end MethodCompiler
