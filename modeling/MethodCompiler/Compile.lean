import MethodCompiler.Analysis
import MethodCompiler.Lowering.Build
import MethodCompiler.Lowering.Stmt

/-!
# Compilation

A method body is checked, and if there is nothing to complain about, the pieces of its
code are generated and built. Either there is code, or the complaints, or a limit of
the settings was too small. Labels that run short inside a copy of a finally body are
met by a defect instead.
-/

namespace MethodCompiler

/-- Why there is no code. -/
inductive CompileError where
  /-- the complaints about the method body, at least one -/
  | complaints (diagnostics : List Diagnostic)
  | slotsExhausted (limit : Nat)
  | labelsExhausted (limit : Nat)
  /-- a label is referred to that has no position -/
  | unplacedLabel (l : Label)
  | defect (defect : Defect)
deriving DecidableEq

/-- Why the code is not even generated. -/
def CompileError.ofAbort : Abort → CompileError
  | .slotsExhausted limit => .slotsExhausted limit
  | .defect d => .defect d

/-- Why the code could not be put together. -/
def CompileError.ofAssembly : AssemblyError → CompileError
  | .labelsExhausted limit => .labelsExhausted limit
  | .unplaced l => .unplacedLabel l
  | .defect d => .defect d

/-- The message of an error. -/
def CompileError.message : CompileError → String
  | complaints ds => s!"compilation failed with {ds.length} error(s)\n{Diagnostic.batchText ds}"
  | slotsExhausted limit => s!"resource exhausted: method needs more than {limit} local slots"
  | labelsExhausted limit => s!"resource exhausted: method needs more than {limit} labels"
  | unplacedLabel l => unplacedText l
  | defect d => d.message

/-- The annotated tree of a method body there is nothing to complain about. -/
def check (settings : Settings) (p : Source.Program) : Except CompileError Annotated.Program :=
  match Analysis.program settings p with
  | .error abort => .error (.ofAbort abort)
  | .ok reported =>
    if reported.diagnostics.isEmpty then .ok reported.value
    else .error (.complaints reported.diagnostics)

/-- The code of an annotated tree, with at most `maxLabels` labels. -/
def generate (maxLabels : Nat) (p : Annotated.Program) : Except CompileError Code :=
  match Lowering.program p 0 with
  | .error d => .error (.defect d)
  | .ok emission =>
    (Lowering.buildCode maxLabels p.maxSlots emission.pieces).mapError .ofAssembly

/-- The code of a method body. -/
def compile (settings : Settings) (p : Source.Program) : Except CompileError Code := do
  generate settings.maxLabels (← check settings p)

end MethodCompiler
