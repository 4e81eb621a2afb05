import MethodCompiler.Defect

/-!
# Switch dispatch

A switch picks its group by a dense table indexed from the smallest case value,
or by a search among sorted pairs of case values and targets. Which of the two is
decided by estimates of their size and time, in which time counts three times as
much. The estimates are 64-bit numbers, and leaving that range is a defect.
-/

namespace MethodCompiler

namespace Checked

/-- The result of an operation on 64-bit numbers, which is a defect outside
their range. -/
def within (op : CheckedOp) (n : Int) : Except Defect Int :=
  if -9223372036854775808 ≤ n ∧ n < 9223372036854775808 then .ok n else .error (.overflow op)

/-- A checked sum. -/
def add (a b : Int) : Except Defect Int := within .add (a + b)

/-- A checked difference. -/
def subtract (a b : Int) : Except Defect Int := within .subtract (a - b)

/-- A checked product. -/
def multiply (a b : Int) : Except Defect Int := within .multiply (a * b)

end Checked

/-- The two ways to pick a group. -/
inductive DispatchKind where
  | table
  | lookup
deriving DecidableEq, Repr, Inhabited

/-- The name of a way to pick a group. -/
def DispatchKind.name : DispatchKind → String
  | table => "Table"
  | lookup => "Lookup"

/-- Estimates of the size and time of both ways. -/
structure DispatchCost where
  tableSpace : Int
  tableTime : Int
  lookupSpace : Int
  lookupTime : Int
deriving DecidableEq, Repr

namespace DispatchCost

/-- The estimates for `count` case values from `lo` to `hi`. The count is taken as
a signed 64-bit number. -/
def estimate (lo hi : Int32) (count : Nat) : Except Defect DispatchCost := do
  let n := (Int64.ofNat count).toInt
  let tableSpace ← Checked.subtract (← Checked.add 5 hi.toInt) lo.toInt
  let lookupSpace ← Checked.add 3 (← Checked.multiply 2 n)
  return ⟨tableSpace, 3, lookupSpace, n⟩

/-- Whether the table is at most as expensive as the search. -/
def tableWins (c : DispatchCost) : Except Defect Bool := do
  let table ← Checked.add c.tableSpace (← Checked.multiply 3 c.tableTime)
  let lookup ← Checked.add c.lookupSpace (← Checked.multiply 3 c.lookupTime)
  return table ≤ lookup

end DispatchCost

/-- Picks the cheaper way. Without case values that is always the search. -/
def DispatchKind.choose (lo hi : Int32) (count : Nat) : Except Defect DispatchKind := do
  if count = 0 then return .lookup
  let cost ← DispatchCost.estimate lo hi count
  return if ← cost.tableWins then .table else .lookup

/-- How one switch picks its group. -/
structure Dispatch where
  /-- the smallest case value, 0 without cases -/
  lo : Int32
  /-- the largest case value, 0 without cases -/
  hi : Int32
  /-- the number of case values -/
  count : Nat
  /-- the case values with the groups they stand at, in the order of the text -/
  cases : List (Int32 × Nat)
  /-- the group of the default label -/
  defaultGroup : Option Nat
  kind : DispatchKind
deriving DecidableEq, Repr

namespace Dispatch

/-- The dispatch for distinct case values. -/
def ofCases (cases : List (Int32 × Nat)) (defaultGroup : Option Nat) : Except Defect Dispatch := do
  let values := cases.map (·.1)
  let lo := (values.min?).getD 0
  let hi := (values.max?).getD 0
  let kind ← DispatchKind.choose lo hi cases.length
  return ⟨lo, hi, cases.length, cases, defaultGroup, kind⟩

/-- The group of a case value. -/
def groupFor (d : Dispatch) (value : Int32) : Option Nat :=
  d.cases.lookup value

end Dispatch

end MethodCompiler
