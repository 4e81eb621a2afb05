/-!
# Settings

The limits of a compilation and a run, and what a continue inside a switch means.
-/

namespace MethodCompiler

/-- What to make of a continue whose innermost construct is a switch. -/
inductive ContinuePolicy where
  /-- complain -/
  | reject
  /-- take it for an empty statement -/
  | ignore
deriving DecidableEq, Repr, Inhabited

/-- The word for a policy. -/
def ContinuePolicy.name : ContinuePolicy → String
  | reject => "reject"
  | ignore => "ignore"

/-- The policy of a word. -/
def ContinuePolicy.ofName? : String → Option ContinuePolicy
  | "reject" => some reject
  | "ignore" => some ignore
  | _ => none

/-- The settings of a compilation and a run. -/
structure Settings where
  /-- how many local slots a method body may need -/
  maxLocals : Nat := 65535
  /-- how many labels its code may need -/
  maxLabels : Nat := 4294967295
  continueInSwitch : ContinuePolicy := .reject
  /-- how many instructions a run may take -/
  stepLimit : Nat := 1000000
deriving DecidableEq, Repr, Inhabited

end MethodCompiler
