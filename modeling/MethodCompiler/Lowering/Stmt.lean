import MethodCompiler.Assoc
import MethodCompiler.Lowering.Expr

/-!
# Code for statements

Statements are generated inside constructs, the loops and switches a jump may
leave, and inside open regions, the try blocks and catch bodies whose rows cover
the code being generated.

There is no instruction for a finally body. It is copied onto each way out: after
the try block, after each catch body, in a handler for whatever else is thrown,
and before each jump that leaves the region, innermost body first. A copy before
a jump is cut out of the rows of the region it leaves and of all regions inside
that one, so what it throws is seen by the regions outside only.

Copies make the code longer than the tree, so generation does not recurse on the
tree alone. It ends because a copy is generated in the regions outside its own:
the size of a statement and of the open regions around it, taken together, goes
down.
-/

namespace MethodCompiler.Lowering

open Annotated (Expr Stmt Catch Finally Program)

/-- Where the jumps out of a construct lead. -/
structure Target where
  breakLabel : Label
  /-- a switch has none -/
  continueLabel : Option Label
  /-- the number of open regions around the construct -/
  depth : Nat
deriving DecidableEq, Repr

/-- The constructs around a statement under their numbers, innermost first. -/
abbrev Targets := List (Nat × Target)

namespace Targets

/-- Inside one more construct. -/
def enter (targets : Targets) (id : Nat) (target : Target) : Gen Targets :=
  match targets.lookup id with
  | some _ => Gen.fail (.constructInsideItself id)
  | none => pure ((id, target) :: targets)

/-- Back outside a construct: without it, the constructs are again those from before. -/
def leave (inside : Targets) (id : Nat) (before : Targets) : Gen Unit :=
  if inside.filter (·.1 != id) = before then pure () else Gen.fail .constructsLeft

/-- Where the jumps out of a construct around lead. -/
def find (targets : Targets) (id : Nat) : Gen Target :=
  match targets.lookup id with
  | some target => pure target
  | none => Gen.fail (.jumpFromOutside id)

end Targets

/-- An open region: the finally body that a jump out of it runs first, if any. -/
abbrev Region := Option (List Stmt)

/-! ## Switches -/

/-- A case value, the group it stands at, and its label. -/
structure CaseTarget where
  value : Int32
  group : Nat
  label : Label
deriving DecidableEq, Repr

/-- One fresh label for each case value. -/
def caseTargets (groups : Nat) : List (Int32 × Nat) → Gen (List CaseTarget)
  | [] => pure []
  | (value, group) :: rest => do
    let label ← Gen.fresh
    if groups ≤ group then
      Gen.fail (.outOfBounds groups group)
    return ⟨value, group, label⟩ :: (← caseTargets groups rest)

/-- The labels of case values, sorted by value. -/
def sortedTargets (cases : List CaseTarget) : List (Int32 × Label) :=
  cases.foldl (fun sorted c => Assoc.insertSorted c.value c.label sorted) []

/-- The targets of a dense switch: where no case is, the default. -/
def tableTargets (lo hi : Int32) (default : Label) (sorted : List (Int32 × Label)) : List Label :=
  (List.range (hi.toInt - lo.toInt + 1).toNat).map fun (i : Nat) =>
    (sorted.lookup (Int32.ofInt (lo.toInt + i))).getD default

/-- The instruction that picks a group. -/
def dispatchCode (d : Dispatch) (default : Label) (cases : List CaseTarget) : Gen Unit :=
  let sorted := sortedTargets cases
  match d.kind with
  | .table => Gen.give (.table default d.lo d.hi (tableTargets d.lo d.hi default sorted))
  | .lookup => Gen.give (.lookup default d.count sorted)

/-- Places labels one after another. -/
def placeAll : List Label → Gen Unit
  | [] => pure ()
  | l :: rest => do
    Gen.place l
    placeAll rest

/-- Places the labels that lead to a group: the default label first. -/
def placeGroup (d : Dispatch) (default : Label) (cases : List CaseTarget) (group : Nat) :
    Gen Unit := do
  Gen.placeIf (d.defaultGroup = some group) default
  placeAll ((cases.filter (·.group == group)).map (·.label))

/-! ## Catch clauses -/

/-- Two labels for each catch clause, around its code. -/
def catchStretches : Nat → Gen (List Stretch)
  | 0 => pure []
  | n + 1 => do
    let start ← Gen.label
    let stop ← Gen.label
    return (start, stop) :: (← catchStretches n)

/-! ## Statements -/

/-- A region weighs no more than the finally block it is opened for. -/
theorem sizeOf_region_le (finalizer : Option (Finally Stmt)) :
    sizeOf (finalizer.map (·.body)) ≤ sizeOf finalizer := by
  cases finalizer with
  | none => simp
  | some f => cases f; simp

/-- Even no catch clauses weigh something, which pays for opening a region. -/
theorem sizeOf_clauses_pos (clauses : List (Catch Stmt)) : 0 < sizeOf clauses := by
  cases clauses <;> simp +arith

/-- Jumps unless a condition holds; without one there is nothing to jump on. -/
def branchUnless : Option Expr → Label → Gen Unit
  | some condition, target => branch condition target false
  | none, _ => pure ()

/-- The regions around the body of a catch clause: with a finally body, the clause
is a region too. -/
def clauseRegions (regions : List Region) : Region → List Region
  | none => regions
  | some body => some body :: regions

/-- The region of a clause weighs little more than its finally body. -/
theorem sizeOf_clauseRegions_le (regions : List Region) (region : Region) :
    sizeOf (clauseRegions regions region) ≤ 1 + sizeOf region + sizeOf regions := by
  cases region <;> simp [clauseRegions]

mutual

/-- Code for a statement, given the constructs and the open regions around it,
innermost first. -/
def stmt (targets : Targets) (regions : List Region) (s : Stmt) : Gen Unit :=
  Gen.statement <| match s with
  | .block body => stmts targets regions body
  | .localInit slot e => do
    value e
    Gen.emitWith .store (.slot slot)
  | .expression e discard => do
    value e
    Gen.emitIf discard ⟨.pop, none⟩
  | .ifElse condition consequent none => do
    let otherwise ← Gen.fresh
    branch condition otherwise false
    stmt targets regions consequent
    Gen.place otherwise
  | .ifElse condition consequent (some alternate) => do
    let otherwise ← Gen.fresh
    branch condition otherwise false
    stmt targets regions consequent
    let done ← Gen.fresh
    Gen.jump .goto done
    Gen.place otherwise
    stmt targets regions alternate
    Gen.place done
  | .whileLoop jumps condition body => do
    let test ← Gen.fresh
    let out ← Gen.fresh
    let breakLabel ← Gen.fresh
    let continueLabel ← Gen.fresh
    let inside ← targets.enter jumps.id ⟨breakLabel, some continueLabel, regions.length⟩
    Gen.place test
    branch condition out false
    stmt inside regions body
    Gen.placeIf jumps.hasContinue continueLabel
    Gen.jump .goto test
    Gen.placeIf jumps.hasBreak breakLabel
    Gen.place out
    inside.leave jumps.id targets
  | .doLoop jumps body condition => do
    let start ← Gen.fresh
    let breakLabel ← Gen.fresh
    let continueLabel ← Gen.fresh
    let inside ← targets.enter jumps.id ⟨breakLabel, some continueLabel, regions.length⟩
    Gen.place start
    stmt inside regions body
    Gen.placeIf jumps.hasContinue continueLabel
    branch condition start true
    Gen.placeIf jumps.hasBreak breakLabel
    inside.leave jumps.id targets
  | .forLoop jumps init condition update body => do
    stmts targets regions init
    let test ← Gen.fresh
    let out ← Gen.fresh
    let breakLabel ← Gen.fresh
    let continueLabel ← Gen.fresh
    let inside ← targets.enter jumps.id ⟨breakLabel, some continueLabel, regions.length⟩
    Gen.place test
    branchUnless condition out
    stmt inside regions body
    Gen.placeIf jumps.hasContinue continueLabel
    stmts inside regions update
    Gen.jump .goto test
    Gen.placeIf jumps.hasBreak breakLabel
    Gen.place out
    inside.leave jumps.id targets
  | .switch id hasBreak selector groupBodies dispatch => do
    value selector
    let breakLabel ← Gen.fresh
    let default ← Gen.fresh
    let inside ← targets.enter id ⟨breakLabel, none, regions.length⟩
    let cases ← caseTargets groupBodies.length dispatch.cases
    dispatchCode dispatch default cases
    groups inside regions (placeGroup dispatch default cases) 0 groupBodies
    Gen.placeIf dispatch.defaultGroup.isNone default
    Gen.placeIf hasBreak breakLabel
    inside.leave id targets
  | .tryCatch guarded clauses finalizer => do
    let start ← Gen.label
    let stop ← Gen.label
    let done ← Gen.label
    let stretches ← catchStretches clauses.length
    let region := finalizer.map (·.body)
    have := sizeOf_region_le finalizer
    have := sizeOf_clauses_pos clauses
    let block ← Gen.hold (stmts targets (region :: regions) guarded)
    let exit ← Gen.hold (finallyCopy targets regions region)
    let codes ← catches targets regions region clauses stretches
    match finalizer with
    | none =>
      Gen.piece (.tryCatch ⟨regions.length, (start, stop), done⟩ block exit codes none)
    | some ⟨slot, body⟩ => do
      let handler ← Gen.label
      let stored ← Gen.label
      let rescue ← Gen.hold (stmts targets regions body)
      Gen.piece (.tryCatch ⟨regions.length, (start, stop), done⟩ block exit codes
        (some ⟨handler, stored, slot, rescue⟩))
  | .breakJump id => do
    let target ← targets.find id
    crossed targets target.depth regions
    Gen.jump .goto target.breakLabel
  | .continueJump id => do
    let target ← targets.find id
    match target.continueLabel with
    | none => Gen.fail (.notContinuable id)
    | some continueLabel => do
      crossed targets target.depth regions
      Gen.jump .goto continueLabel
  | .throw e => do
    value e
    Gen.emit .throw
  | .empty => pure ()
termination_by sizeOf s + sizeOf regions

/-- Code for statements one after another. -/
def stmts (targets : Targets) (regions : List Region) : List Stmt → Gen Unit
  | [] => pure ()
  | s :: rest => do
    stmt targets regions s
    stmts targets regions rest
termination_by body => sizeOf body + sizeOf regions

/-- Code for the groups of a switch. Each runs into the next. -/
def groups (targets : Targets) (regions : List Region) (placeLabels : Nat → Gen Unit)
    (index : Nat) : List (List Stmt) → Gen Unit
  | [] => pure ()
  | body :: rest => do
    placeLabels index
    stmts targets regions body
    groups targets regions placeLabels (index + 1) rest
termination_by bodies => sizeOf bodies + sizeOf regions

/-- A copy of a finally body in the regions outside its own. -/
def finallyCopy (targets : Targets) (regions : List Region) : Region → Gen Unit
  | none => pure ()
  | some body => stmts targets regions body
termination_by region => sizeOf region + sizeOf regions

/-- Code for catch clauses. -/
def catches (targets : Targets) (regions : List Region) (region : Region) :
    List (Catch Stmt) → List Stretch → Gen (List (Clause Piece))
  | ⟨exceptionType, slot, body⟩ :: rest, stretch :: stretches => do
    have := sizeOf_clauseRegions_le regions region
    let body ← Gen.hold (stmts targets (clauseRegions regions region) body)
    let exit ← Gen.hold (finallyCopy targets regions region)
    return ⟨exceptionType, stretch, slot, body, exit⟩ ::
      (← catches targets regions region rest stretches)
  | _, _ => pure []
termination_by clauses => sizeOf clauses + sizeOf region + sizeOf regions

/-- Runs the finally bodies of the regions that a jump leaves, innermost first. The
jump leads to a construct in `depth` regions. -/
def crossed (targets : Targets) (depth : Nat) : List Region → Gen Unit
  | [] => pure ()
  | none :: outside =>
    if outside.length < depth then pure () else crossed targets depth outside
  | some body :: outside =>
    if outside.length < depth then pure ()
    else do
      let start ← Gen.label
      let stop ← Gen.label
      let copy ← Gen.hold (stmts targets outside body)
      Gen.piece (.copy (start, stop) outside.length copy)
      crossed targets depth outside
termination_by regions => sizeOf regions

end

/-- Code for a method body, which ends by halting. -/
def program (p : Program) : Gen Unit := do
  stmts [] [] p.body
  Gen.emit .halt

/-- The directives that make the code of a method body. -/
def directives (p : Program) : Except Defect (List Directive) :=
  (program p 0).map fun code => layOut code.pieces

end MethodCompiler.Lowering
