import MethodCompiler.Assoc
import MethodCompiler.Machine.Value

/-!
# Hosts

Calls leave the machine: a host answers them. A host may have a state of its own,
but it sees nothing of the machine except the name and the arguments of a call.
-/

namespace MethodCompiler

/-- What a host answers to a call. -/
inductive Reply where
  | returns (v : Value)
  /-- a fresh object of a class is thrown -/
  | throws (className : String)
deriving DecidableEq, Repr

/-- A host with states of type `σ`. It does not answer to names it does not
know. -/
structure Host (σ : Type) where
  call : σ → String → List Value → Option (Reply × σ)

/-! ## Scripted hosts -/

/-- A rehearsed answer. -/
inductive Line where
  | returns (v : Value)
  /-- return an argument, or null if there are not so many -/
  | returnsArg (index : Nat)
  | throws (className : String)
deriving DecidableEq, Repr

/-- The reply a line stands for. -/
def Line.reply (args : List Value) : Line → Reply
  | returns v => .returns v
  | returnsArg i => .returns ((args[i]?).getD .null)
  | throws className => .throws className

/-- The rehearsed answers under each name. -/
abbrev Script := List (String × List Line)

namespace Script

/-- Rehearses the answers to a name anew. -/
def rehearse (script : Script) (name : String) (lines : List Line) : Script :=
  Assoc.insert name lines script

/-- The next answer and those after it. The last one is repeated for ever. -/
def next : List Line → Option (Line × List Line)
  | [] => none
  | [line] => some (line, [line])
  | line :: rest => some (line, rest)

/-- Answers a call by the next line under its name. -/
def call (script : Script) (name : String) (args : List Value) : Option (Reply × Script) := do
  let (line, rest) ← next (← script.lookup name)
  return (line.reply args, Assoc.insert name rest script)

/-- The host that speaks from a script. -/
def host : Host Script :=
  ⟨call⟩

/-- The script that knows no name. -/
def empty : Script :=
  []

end Script

end MethodCompiler
