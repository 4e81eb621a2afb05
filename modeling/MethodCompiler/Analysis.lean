import MethodCompiler.Enclosing
import MethodCompiler.Settings.Basic
import MethodCompiler.Typing

/-!
# Checking a method body

Statements are checked in the order of the text. The scope and the open
constructs are carried along; complaints are collected and do not stop anything.
Two things do: running out of slots, and a defect. After either there is no tree
and the complaints so far are of no interest.

Jumps resolve to the innermost open construct. Only the body of a loop and the
groups of a switch stand inside it: conditions, and the first and last part of a
for loop, are outside.
-/

namespace MethodCompiler

/-- Why checking stopped before the end. -/
inductive Abort where
  /-- the body needs more slots than there may be -/
  | slotsExhausted (limit : Nat)
  | defect (defect : Defect)
deriving DecidableEq, Repr

/-- How far checking has come. -/
structure Progress where
  scope : Scope
  enclosing : Enclosing := {}
  diagnostics : List Diagnostic := []

/-- A step of checking. -/
def Check (α : Type) : Type :=
  Progress → Except Abort (α × Progress)

instance : Monad Check where
  pure a := fun s => .ok (a, s)
  bind x f := fun s => x s >>= fun (a, s) => f a s

instance : MonadStateOf Progress Check where
  get := fun s => .ok (s, s)
  set s := fun _ => .ok ((), s)
  modifyGet f := fun s => .ok (f s)

namespace Check

/-- Stops checking. -/
def abort (reason : Abort) : Check α :=
  fun _ => .error reason

/-- Stops at a defect. -/
def orDefect (x : Except Defect α) : Check α :=
  match x with
  | .ok a => pure a
  | .error d => abort (.defect d)

/-- Types something in the current scope and keeps the complaints. -/
def typed (f : Scope → Reported α) : Check α := do
  let s ← get
  let r := f s.scope
  set { s with diagnostics := s.diagnostics ++ r.diagnostics }
  return r.value

/-- Reports a problem. -/
def report (line : UInt32) (problem : Problem) : Check Unit :=
  typed fun _ => Reported.report line problem

/-- Opens a scope. -/
def enterScope : Check Unit :=
  modify fun s => { s with scope := s.scope.enter }

/-- Closes the innermost scope. -/
def leaveScope : Check Unit := do
  let s ← get
  let (result, scope) := s.scope.leave
  set { s with scope := scope }
  orDefect result

/-- Does something in a scope of its own. -/
def inScope (x : Check α) : Check α := do
  enterScope
  let a ← x
  leaveScope
  return a

/-- Hands out a slot without a name. -/
def reserve : Check Nat := do
  let s ← get
  match s.scope.reserve with
  | .ok (slot, scope) =>
    set { s with scope := scope }
    return slot
  | .error _ => abort (.slotsExhausted s.scope.limit)

/-- Declares a local. A second one of the same name is reported, and gets a slot
without a name. -/
def declare (line : UInt32) (name : String) (ty : Ty) : Check Nat := do
  let s ← get
  match s.scope.declare name ty with
  | .ok (slot, scope) =>
    set { s with scope := scope }
    return slot
  | .error (.duplicate name) =>
    report line (.alreadyDefined name)
    reserve
  | .error .exhausted => abort (.slotsExhausted s.scope.limit)

/-- Checks the body of a loop with the loop open. -/
def loopBody (kind : ConstructKind) (body : Check α) : Check (Annotated.Jumps × α) := do
  let s ← get
  let (id, enclosing) ← orDefect (s.enclosing.pushLoop kind)
  set { s with enclosing := enclosing }
  let a ← body
  let s ← get
  let (frame, enclosing) := s.enclosing.popLoop id
  set { s with enclosing := enclosing }
  let frame ← orDefect frame
  return (⟨id, frame.hasBreak, frame.hasContinue⟩, a)

/-- Checks the groups of a switch with the switch open: its number, whether a
break names it, and what the groups gave. -/
def switchBody (groups : Check α) : Check (Nat × Bool × α) := do
  let s ← get
  let (id, enclosing) := s.enclosing.pushSwitch
  set { s with enclosing := enclosing }
  let a ← groups
  let s ← get
  let (frame, enclosing) := s.enclosing.popSwitch id
  set { s with enclosing := enclosing }
  let frame ← orDefect frame
  return (id, frame.hasBreak, a)

end Check

namespace Analysis

open Annotated (Stmt)
open Check

/-- A break on a line. -/
def breakJump (line : UInt32) : Check Stmt := do
  let s ← get
  if s.enclosing.frames.isEmpty then
    report line .breakOutside
    return .empty
  let (target, enclosing) ← orDefect s.enclosing.resolveBreak
  set { s with enclosing := enclosing }
  return .breakJump target

/-- A continue on a line. -/
def continueJump (policy : ContinuePolicy) (line : UInt32) : Check Stmt := do
  let s ← get
  if s.enclosing.frames.isEmpty then
    report line .continueOutside
    return .empty
  let (target, enclosing) ← orDefect s.enclosing.resolveContinue
  match target with
  | .loop id =>
    set { s with enclosing := enclosing }
    return .continueJump id
  | .switch _ =>
    if policy = .reject then
      report line .continueInSwitch
    return .empty

/-- The declaration of a local. Its initializer does not see it. -/
def localDecl (line : UInt32) (name : String) (ty : Ty) (init : Option Source.Expr) :
    Check Stmt := do
  if ty = .void then
    report line (.voidVariable name)
  match init with
  | none =>
    let _ ← declare line name ty
    return .empty
  | some e =>
    let value ← typed fun scope => do
      Typing.coerce (← Typing.expr scope true e) ty e.line
    let slot ← declare line name ty
    return .localInit slot value

/-- The labels of a switch: case values with the group they stand at, in the
order of the text, and the group of the default label. -/
structure Labels where
  cases : List (Int32 × Nat) := []
  defaultGroup : Option Nat := none

/-- Adds a label of a group, or complains about it. -/
def addLabel (scope : Scope) (line : UInt32) (labels : Labels) (group : Nat) :
    Source.CaseLabel → Reported Labels
  | .case e => do
    match ← Typing.caseValue scope e with
    | none => return labels
    | some value =>
      if labels.cases.any fun c => c.1 == value then
        Reported.report e.line (.duplicateCase value)
        return labels
      else return { labels with cases := labels.cases ++ [(value, group)] }
  | .default => do
    if labels.defaultGroup.isSome then
      Reported.report line .duplicateDefault
      return labels
    else return { labels with defaultGroup := some group }

/-- The labels of all groups, the first of which has number `index`. -/
def switchLabels (scope : Scope) (line : UInt32) (labels : Labels) (index : Nat) :
    List (Source.Group Source.Stmt) → Reported Labels
  | [] => pure labels
  | group :: rest => do
    let labels ← group.labels.foldlM (fun labels l => addLabel scope line labels index l) labels
    switchLabels scope line labels (index + 1) rest

mutual

/-- Checks a statement. -/
def stmt (policy : ContinuePolicy) : Source.Stmt → Check Stmt
  | .block ⟨_, body⟩ => do
    return .block (← inScope (stmts policy body))
  | .localDecl line name ty init => localDecl line name ty init
  | .expression _ e => do
    let e ← typed fun scope => Typing.expr scope false e
    return .expression e (Typing.leavesValue e)
  | .ifElse line condition consequent alternate => do
    let condition ← typed fun scope => Typing.condition scope line condition
    let consequent ← stmt policy consequent
    match alternate with
    | none => return .ifElse condition consequent none
    | some alternate => return .ifElse condition consequent (some (← stmt policy alternate))
  | .whileLoop line condition body => do
    let condition ← typed fun scope => Typing.condition scope line condition
    let (jumps, body) ← loopBody .whileLoop (stmt policy body)
    return .whileLoop jumps condition body
  | .doLoop line body condition => do
    let (jumps, body) ← loopBody .doLoop (stmt policy body)
    let condition ← typed fun scope => Typing.condition scope line condition
    return .doLoop jumps body condition
  | .forLoop line init condition update body => inScope do
    let init ← stmts policy init
    let condition ← match condition with
      | none => pure none
      | some c => some <$> typed fun scope => Typing.condition scope line c
    let update ← stmts policy update
    let (jumps, body) ← loopBody .forLoop (stmt policy body)
    return .forLoop jumps init condition update body
  | .switch line selector groups => do
    let selector ← typed fun scope => do
      let e ← Typing.expr scope true selector
      let _ ← e.ty.expect .int line
      return e
    let labels ← typed fun scope => switchLabels scope line {} 0 groups
    let (id, hasBreak, groups) ← switchBody (groupBodies policy groups)
    let dispatch ← orDefect (Dispatch.ofCases labels.cases labels.defaultGroup)
    return .switch id hasBreak selector groups dispatch
  | .breakJump line => breakJump line
  | .continueJump line => continueJump policy line
  | .tryCatch line ⟨_, body⟩ catches finalizer => do
    if catches.isEmpty && !finalizer.isSome then
      report line .bareTry
    let body ← inScope (stmts policy body)
    let catches ← catchClauses policy catches
    match finalizer with
    | none => return .tryCatch body catches none
    | some ⟨_, body'⟩ =>
      let finalizer ← inScope do
        let slot ← reserve
        return ⟨slot, ← stmts policy body'⟩
      return .tryCatch body catches (some finalizer)
  | .throw line argument => do
    let e ← typed fun scope => do
      let e ← Typing.expr scope true argument
      if !e.ty.isReference && e.ty != .any then
        Reported.report line (.cannotThrow e.ty)
      return e
    return .throw e
  | .empty => return .empty
termination_by structural s => s

/-- Checks statements one after the other. -/
def stmts (policy : ContinuePolicy) : List Source.Stmt → Check (List Stmt)
  | [] => return []
  | s :: rest => do
    let s ← stmt policy s
    return s :: (← stmts policy rest)
termination_by structural s => s

/-- Checks the groups of a switch, each in a scope of its own. -/
def groupBodies (policy : ContinuePolicy) :
    List (Source.Group Source.Stmt) → Check (List (List Stmt))
  | [] => return []
  | ⟨_, body⟩ :: rest => do
    let body ← inScope (stmts policy body)
    return body :: (← groupBodies policy rest)
termination_by structural s => s

/-- Checks catch clauses, each in a scope of its own that starts with the caught
object. -/
def catchClauses (policy : ContinuePolicy) :
    List (Source.CatchClause Source.Stmt) → Check (List (Annotated.Catch Stmt))
  | [] => return []
  | ⟨line, exceptionType, param, ⟨_, body⟩⟩ :: rest => do
    let clause ← inScope do
      let slot ← declare line param (.reference exceptionType)
      return ⟨exceptionType, slot, ← stmts policy body⟩
    return clause :: (← catchClauses policy rest)
termination_by structural s => s

end

/-- Checks a whole body: the tree, with the complaints about it. -/
def program (settings : Settings) (p : Source.Program) :
    Except Abort (Reported Annotated.Program) := do
  let start : Progress := { scope := { limit := settings.maxLocals } }
  let (body, s) ← stmts settings.continueInSwitch p.body start
  if s.enclosing.frames.isEmpty then
    return ⟨⟨body, s.scope.maxSlots⟩, s.diagnostics⟩
  else throw (.defect .constructLeftOpen)

end Analysis

end MethodCompiler
