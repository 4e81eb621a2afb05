import MethodCompiler.Operator
import MethodCompiler.Ty

/-!
# Diagnostics

A diagnostic is a problem on a line of the method body. Checking goes on after a
problem, so a check answers with a result and the diagnostics met on the way, in
order: that is `Reported`. A result is to be trusted only if there are none.
-/

namespace MethodCompiler

/-- What is wrong with a method body. -/
inductive Problem where
  /-- a type does not fit the one wanted -/
  | mismatch (expected found : Ty)
  /-- a type fits none of those allowed -/
  | noneOf (options : List Ty) (found : Ty)
  /-- an equality between types that have none -/
  | incomparable (left right : Ty)
  /-- a field of something that is no object -/
  | notAnObject (ty : Ty)
  /-- a throw of something that is no object -/
  | cannotThrow (ty : Ty)
  | unknownName (name : String)
  /-- a value or field is wanted to store into -/
  | notAPlace (what : String)
  | voidVariable (name : String)
  | alreadyDefined (name : String)
  | duplicateCase (value : Int32)
  | duplicateDefault
  | caseNotConstant
  | breakOutside
  | continueOutside
  | continueInSwitch
  | bareTry
deriving DecidableEq, Repr

/-- The text of a problem. -/
def Problem.message : Problem → String
  | mismatch expected found => s!"expected type {expected.text}, found {found.text}"
  | noneOf options found =>
    let names := ", ".intercalate (options.map Ty.text)
    s!"expected one of {names}, found {found.text}"
  | incomparable left right => s!"incomparable types: {left.text} and {right.text}"
  | notAnObject ty => s!"{ty.text} cannot be dereferenced"
  | cannotThrow ty => s!"cannot throw a value of type {ty.text}"
  | unknownName name => s!"cannot find symbol {name}"
  | notAPlace what => s!"operand of {what} must be a variable"
  | voidVariable name => s!"variable {name} cannot be void"
  | alreadyDefined name => s!"variable {name} is already defined in this scope"
  | duplicateCase value => s!"duplicate case label {value.toInt}"
  | duplicateDefault => "duplicate default label"
  | caseNotConstant => "case label must be a constant expression"
  | breakOutside => "break outside switch or loop"
  | continueOutside => "continue outside of loop"
  | continueInSwitch => "continue cannot target a switch statement"
  | bareTry => "try without catch or finally"

/-- A problem on a line. -/
structure Diagnostic where
  line : UInt32
  problem : Problem
deriving DecidableEq, Repr

/-- A diagnostic with its line. -/
def Diagnostic.text (d : Diagnostic) : String :=
  s!"line {d.line.toNat}: {d.problem.message}"

/-- Diagnostics one below the other. -/
def Diagnostic.batchText (ds : List Diagnostic) : String :=
  "\n".intercalate (ds.map Diagnostic.text)

/-- A result and the diagnostics reported while it was found. -/
structure Reported (α : Type) where
  value : α
  diagnostics : List Diagnostic := []
deriving Repr

namespace Reported

instance : Monad Reported where
  pure a := ⟨a, []⟩
  bind x f :=
    let y := f x.value
    ⟨y.value, x.diagnostics ++ y.diagnostics⟩

/-- Reports a problem. -/
def report (line : UInt32) (problem : Problem) : Reported Unit :=
  ⟨(), [⟨line, problem⟩]⟩

@[simp]
theorem value_pure (a : α) : (pure a : Reported α).value = a := rfl

@[simp]
theorem diagnostics_pure (a : α) : (pure a : Reported α).diagnostics = [] := rfl

@[simp]
theorem value_bind (x : Reported α) (f : α → Reported β) :
    (x >>= f).value = (f x.value).value := rfl

@[simp]
theorem diagnostics_bind (x : Reported α) (f : α → Reported β) :
    (x >>= f).diagnostics = x.diagnostics ++ (f x.value).diagnostics := rfl

end Reported

namespace Ty

/-- Wants a type to fit another, and tells whether it does. -/
def expect (found expected : Ty) (line : UInt32) : Reported Bool :=
  if found.fits expected then pure true
  else do
    Reported.report line (.mismatch expected found)
    return false

/-- Wants a type to fit one of several, and tells whether it does. -/
def expectOneOf (found : Ty) (options : List Ty) (line : UInt32) : Reported Bool :=
  if options.any fun option => found.fits option then pure true
  else do
    Reported.report line (.noneOf options found)
    return false

end Ty

end MethodCompiler
