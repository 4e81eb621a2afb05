import MethodCompiler.Lowering.Stmt

/-!
# Generation makes finitely many calls

A jump has no parts, and yet code is generated for it: the finally bodies of the regions it
leaves, which stand further out in the tree and may hold jumps and tries of their own. So that
generation ends is not plain from the tree.

Here is the recursion without its reason to end. `Recursion.step` says which calls each function
makes, and leaves open what they come to. `Recursion.within` follows calls as deep as it is
allowed to, counts them, and has no answer if one goes deeper. If it may go as deep as the size of
a statement and of the open regions around it, it has an answer, and a deeper search finds the
same answer after the same number of calls.
-/

namespace MethodCompiler.Lowering

open Annotated (Stmt Catch Finally)

/-! ## Counting calls -/

/-- A step of generation whose calls are counted. It may come to nothing, if it calls too deep. -/
def Metered (α : Type) := Label → Option (Nat × Except Defect (Emission α))

namespace Metered

instance : Monad Metered where
  pure a := fun next => some (0, .ok ⟨a, [], next⟩)
  bind x f := fun next =>
    match x next with
    | none => none
    | some (calls, .error d) => some (calls, .error d)
    | some (calls, .ok a) =>
      match f a.value a.next with
      | none => none
      | some (more, .error d) => some (calls + more, .error d)
      | some (more, .ok b) => some (calls + more, .ok ⟨b.value, a.pieces ++ b.pieces, b.next⟩)

/-- A step that calls nothing. -/
instance : MonadLift Gen Metered where
  monadLift x := fun next => some (0, x next)

/-- Calls too deep. -/
def tooDeep : Metered α :=
  fun _ => none

/-- One call, and those it makes. -/
def call (x : Metered α) : Metered α :=
  fun next => (x next).map fun r => (r.1 + 1, r.2)

/-- The pieces that something generates, held back for use in a larger piece. -/
def hold (x : Metered Unit) : Metered (List Piece) :=
  fun next => (x next).map fun r => (r.1, Gen.hold (fun _ => r.2) next)

/-- Gives what something generates as the code of a statement. -/
def statement (x : Metered Unit) : Metered Unit := do
  Gen.piece (.statement (← hold x))

end Metered

/-! ## The recursion -/

/-- The functions that call each other, whatever they do. -/
structure Recursion where
  stmt (targets : Targets) (regions : List Region) (s : Stmt) : Metered Unit
  stmts (targets : Targets) (regions : List Region) (body : List Stmt) : Metered Unit
  groups (targets : Targets) (regions : List Region) (placeLabels : Nat → Gen Unit) (index : Nat)
    (bodies : List (List Stmt)) : Metered Unit
  finallyCopy (targets : Targets) (regions : List Region) (region : Region) : Metered Unit
  catches (targets : Targets) (regions : List Region) (region : Region)
    (clauses : List (Catch Stmt)) (stretches : List Stretch) : Metered (List (Clause Piece))
  crossed (targets : Targets) (depth : Nat) (regions : List Region) : Metered Unit

namespace Recursion

/-- What each function does, given what the calls it makes come to. -/
def step (inner : Recursion) : Recursion where
  stmt targets regions s := Metered.statement <| match s with
    | .block body => inner.stmts targets regions body
    | .localInit slot e => do
      value e
      Gen.emitWith .store (.slot slot)
    | .expression e discard => do
      value e
      Gen.emitIf discard ⟨.pop, none⟩
    | .ifElse condition consequent none => do
      let otherwise ← Gen.fresh
      branch condition otherwise false
      inner.stmt targets regions consequent
      Gen.place otherwise
    | .ifElse condition consequent (some alternate) => do
      let otherwise ← Gen.fresh
      branch condition otherwise false
      inner.stmt targets regions consequent
      let done ← Gen.fresh
      Gen.jump .goto done
      Gen.place otherwise
      inner.stmt targets regions alternate
      Gen.place done
    | .whileLoop jumps condition body => do
      let test ← Gen.fresh
      let out ← Gen.fresh
      let breakLabel ← Gen.fresh
      let continueLabel ← Gen.fresh
      let inside ← targets.enter jumps.id ⟨breakLabel, some continueLabel, regions.length⟩
      Gen.place test
      branch condition out false
      inner.stmt inside regions body
      Gen.placeIf jumps.hasContinue continueLabel
      Gen.jump .goto test
      Gen.placeIf jumps.hasBreak breakLabel
      Gen.place out
      inside.leave jumps.id targets
    | .doLoop jumps body condition => do
      let start ← Gen.fresh
      let breakLabel ← Gen.fresh
      let continueLabel ← Gen.fresh
      let inside ← targets.enter jumps.id ⟨breakLabel, some continueLabel, regions.length⟩
      Gen.place start
      inner.stmt inside regions body
      Gen.placeIf jumps.hasContinue continueLabel
      branch condition start true
      Gen.placeIf jumps.hasBreak breakLabel
      inside.leave jumps.id targets
    | .forLoop jumps init condition update body => do
      inner.stmts targets regions init
      let test ← Gen.fresh
      let out ← Gen.fresh
      let breakLabel ← Gen.fresh
      let continueLabel ← Gen.fresh
      let inside ← targets.enter jumps.id ⟨breakLabel, some continueLabel, regions.length⟩
      Gen.place test
      branchUnless condition out
      inner.stmt inside regions body
      Gen.placeIf jumps.hasContinue continueLabel
      inner.stmts inside regions update
      Gen.jump .goto test
      Gen.placeIf jumps.hasBreak breakLabel
      Gen.place out
      inside.leave jumps.id targets
    | .switch id hasBreak selector groupBodies dispatch => do
      value selector
      let breakLabel ← Gen.fresh
      let default ← Gen.fresh
      let inside ← targets.enter id ⟨breakLabel, none, regions.length⟩
      let cases ← caseTargets groupBodies.length dispatch.cases
      dispatchCode dispatch default cases
      inner.groups inside regions (placeGroup dispatch default cases) 0 groupBodies
      Gen.placeIf dispatch.defaultGroup.isNone default
      Gen.placeIf hasBreak breakLabel
      inside.leave id targets
    | .tryCatch guarded clauses finalizer => do
      let start ← Gen.label
      let stop ← Gen.label
      let done ← Gen.label
      let stretches ← catchStretches clauses.length
      let region := finalizer.map (·.body)
      let block ← Metered.hold (inner.stmts targets (region :: regions) guarded)
      let exit ← Metered.hold (inner.finallyCopy targets regions region)
      let codes ← inner.catches targets regions region clauses stretches
      match finalizer with
      | none =>
        Gen.piece (.tryCatch ⟨regions.length, (start, stop), done⟩ block exit codes none)
      | some ⟨slot, body⟩ => do
        let handler ← Gen.label
        let stored ← Gen.label
        let rescue ← Metered.hold (inner.stmts targets regions body)
        Gen.piece (.tryCatch ⟨regions.length, (start, stop), done⟩ block exit codes
          (some ⟨handler, stored, slot, rescue⟩))
    | .breakJump id => do
      let target ← targets.find id
      inner.crossed targets target.depth regions
      Gen.jump .goto target.breakLabel
    | .continueJump id => do
      let target ← targets.find id
      match target.continueLabel with
      | none => Gen.fail (.notContinuable id)
      | some continueLabel => do
        inner.crossed targets target.depth regions
        Gen.jump .goto continueLabel
    | .throw e => do
      value e
      Gen.emit .throw
    | .empty => pure ()
  stmts targets regions
    | [] => pure ()
    | s :: rest => do
      inner.stmt targets regions s
      inner.stmts targets regions rest
  groups targets regions placeLabels index
    | [] => pure ()
    | body :: rest => do
      placeLabels index
      inner.stmts targets regions body
      inner.groups targets regions placeLabels (index + 1) rest
  finallyCopy targets regions
    | none => pure ()
    | some body => inner.stmts targets regions body
  catches targets regions region
    | ⟨exceptionType, slot, body⟩ :: rest, stretch :: stretches => do
      let body ← Metered.hold (inner.stmts targets (clauseRegions regions region) body)
      let exit ← Metered.hold (inner.finallyCopy targets regions region)
      return ⟨exceptionType, stretch, slot, body, exit⟩ ::
        (← inner.catches targets regions region rest stretches)
    | _, _ => pure []
  crossed targets depth
    | [] => pure ()
    | none :: outside =>
      if outside.length < depth then pure () else inner.crossed targets depth outside
    | some body :: outside =>
      if outside.length < depth then pure ()
      else do
        let start ← Gen.label
        let stop ← Gen.label
        let copy ← Metered.hold (inner.stmts targets outside body)
        Gen.piece (.copy (start, stop) outside.length copy)
        inner.crossed targets depth outside

/-- Every call is counted. -/
def counted (r : Recursion) : Recursion where
  stmt targets regions s := (r.stmt targets regions s).call
  stmts targets regions body := (r.stmts targets regions body).call
  groups targets regions placeLabels index bodies :=
    (r.groups targets regions placeLabels index bodies).call
  finallyCopy targets regions region := (r.finallyCopy targets regions region).call
  catches targets regions region clauses stretches :=
    (r.catches targets regions region clauses stretches).call
  crossed targets depth regions := (r.crossed targets depth regions).call

/-- Follows calls up to a depth. -/
def within : Nat → Recursion
  | 0 => ⟨fun _ _ _ => .tooDeep, fun _ _ _ => .tooDeep, fun _ _ _ _ _ => .tooDeep,
      fun _ _ _ => .tooDeep, fun _ _ _ _ _ => .tooDeep, fun _ _ _ => .tooDeep⟩
  | depth + 1 => (within depth).step.counted

end Recursion

/-! ## Enough depth -/

namespace Metered

/-- From some depth on, a step comes to what generation gives, always after as many calls. -/
def Meets (enough : Nat) (x : Nat → Metered α) (y : Gen α) : Prop :=
  ∀ next, ∃ calls, ∀ depth, enough ≤ depth → x depth next = some (calls, y next)

variable {enough : Nat}

theorem Meets.mono {enough' : Nat} {x : Nat → Metered α} {y : Gen α} (h : Meets enough x y)
    (hle : enough ≤ enough') : Meets enough' x y := by
  intro next
  obtain ⟨calls, hcalls⟩ := h next
  exact ⟨calls, fun depth hdepth => hcalls depth (Nat.le_trans hle hdepth)⟩

theorem meets_lift (y : Gen α) : Meets enough (fun _ => liftM y) y :=
  fun _ => ⟨0, fun _ _ => rfl⟩

theorem meets_pure (a : α) : Meets enough (fun _ => pure a) (pure a) :=
  fun _ => ⟨0, fun _ _ => rfl⟩

theorem Meets.bind {x : Nat → Metered α} {y : Gen α} {f : Nat → α → Metered β} {g : α → Gen β}
    (hx : Meets enough x y) (hf : ∀ a, Meets enough (fun depth => f depth a) (g a)) :
    Meets enough (fun depth => x depth >>= f depth) (y >>= g) := by
  intro next
  obtain ⟨calls, hcalls⟩ := hx next
  cases hy : y next with
  | error d =>
      refine ⟨calls, fun depth hdepth => ?_⟩
      simp only [Bind.bind, hcalls depth hdepth, hy]
  | ok a =>
      obtain ⟨more, hmore⟩ := hf a.value a.next
      refine ⟨calls + more, fun depth hdepth => ?_⟩
      simp only [Bind.bind, hcalls depth hdepth, hy, hmore depth hdepth]
      cases g a.value a.next <;> rfl

/-- The rest of a step that starts with something that calls nothing. -/
theorem Meets.after {y : Gen α} {f : Nat → α → Metered β} {g : α → Gen β}
    (hf : ∀ a, Meets enough (fun depth => f depth a) (g a)) :
    Meets enough (fun depth => liftM y >>= f depth) (y >>= g) :=
  (meets_lift y).bind hf

theorem Meets.hold {x : Nat → Metered Unit} {y : Gen Unit} (h : Meets enough x y) :
    Meets enough (fun depth => (x depth).hold) (Gen.hold y) := by
  intro next
  obtain ⟨calls, hcalls⟩ := h next
  refine ⟨calls, fun depth hdepth => ?_⟩
  simp only [Metered.hold, hcalls depth hdepth]
  rfl

theorem Meets.statement {x : Nat → Metered Unit} {y : Gen Unit} (h : Meets enough x y) :
    Meets enough (fun depth => (x depth).statement) (Gen.statement y) :=
  h.hold.bind fun _ => meets_lift _

/-- A call goes one deeper than the calls it makes. -/
theorem Meets.called {w x : Nat → Metered α} {y : Gen α}
    (hw : ∀ depth, w (depth + 1) = (x depth).call) (h : Meets enough x y) :
    Meets (enough + 1) w y := by
  intro next
  obtain ⟨calls, hcalls⟩ := h next
  refine ⟨calls + 1, fun depth hdepth => ?_⟩
  obtain ⟨below, rfl⟩ : ∃ below, depth = below + 1 := ⟨depth - 1, by omega⟩
  rw [hw, call, hcalls below (by omega)]
  rfl

end Metered

open Metered

/-! The measure by which generation goes down bounds the depth of its calls. -/

mutual

theorem meets_stmt (targets : Targets) (regions : List Region) (s : Stmt) :
    Meets (sizeOf s + sizeOf regions + 1)
      (fun depth => (Recursion.within depth).stmt targets regions s) (stmt targets regions s) := by
  match s with
  | .block body =>
      rw [stmt]
      refine .called (fun _ => rfl) (.statement ?_)
      exact (meets_stmts targets regions body).mono (by simp +arith)
  | .localInit slot e =>
      rw [stmt]
      refine .called (fun _ => rfl) (.statement ?_)
      exact .after fun _ => meets_lift _
  | .expression e discard =>
      rw [stmt]
      refine .called (fun _ => rfl) (.statement ?_)
      exact .after fun _ => meets_lift _
  | .ifElse condition consequent none =>
      rw [stmt]
      refine .called (fun _ => rfl) (.statement ?_)
      exact .after fun _ => .after fun _ =>
        ((meets_stmt targets regions consequent).mono (by simp +arith)).bind fun _ => meets_lift _
  | .ifElse condition consequent (some alternate) =>
      rw [stmt]
      refine .called (fun _ => rfl) (.statement ?_)
      exact .after fun _ => .after fun _ =>
        ((meets_stmt targets regions consequent).mono (by simp +arith)).bind fun _ =>
        .after fun _ => .after fun _ => .after fun _ =>
        ((meets_stmt targets regions alternate).mono (by simp +arith)).bind fun _ => meets_lift _
  | .whileLoop jumps condition body =>
      rw [stmt]
      refine .called (fun _ => rfl) (.statement ?_)
      exact .after fun _ => .after fun _ => .after fun _ => .after fun _ => .after fun inside =>
        .after fun _ => .after fun _ =>
        ((meets_stmt inside regions body).mono (by simp +arith)).bind fun _ =>
        .after fun _ => .after fun _ => .after fun _ => .after fun _ => meets_lift _
  | .doLoop jumps body condition =>
      rw [stmt]
      refine .called (fun _ => rfl) (.statement ?_)
      exact .after fun _ => .after fun _ => .after fun _ => .after fun inside => .after fun _ =>
        ((meets_stmt inside regions body).mono (by simp +arith)).bind fun _ =>
        .after fun _ => .after fun _ => .after fun _ => meets_lift _
  | .forLoop jumps init condition update body =>
      rw [stmt]
      refine .called (fun _ => rfl) (.statement ?_)
      exact ((meets_stmts targets regions init).mono (by simp +arith)).bind fun _ =>
        .after fun _ => .after fun _ => .after fun _ => .after fun _ => .after fun inside =>
        .after fun _ => .after fun _ =>
        ((meets_stmt inside regions body).mono (by simp +arith)).bind fun _ =>
        .after fun _ => ((meets_stmts inside regions update).mono (by simp +arith)).bind fun _ =>
        .after fun _ => .after fun _ => .after fun _ => meets_lift _
  | .switch id hasBreak selector bodies dispatch =>
      rw [stmt]
      refine .called (fun _ => rfl) (.statement ?_)
      exact .after fun _ => .after fun _ => .after fun _ => .after fun inside =>
        .after fun _ => .after fun _ =>
        ((meets_groups inside regions _ 0 bodies).mono (by simp +arith)).bind fun _ =>
        .after fun _ => .after fun _ => meets_lift _
  | .tryCatch guarded clauses none =>
      rw [stmt]
      refine .called (fun _ => rfl) (.statement ?_)
      have := sizeOf_clauses_pos clauses
      simp only [Stmt.tryCatch.sizeOf_spec, Option.none.sizeOf_spec]
      have hguarded : sizeOf guarded + sizeOf (none :: regions) + 1 ≤
          1 + sizeOf guarded + sizeOf clauses + 1 + sizeOf regions := by
        simp only [List.cons.sizeOf_spec, Option.none.sizeOf_spec]
        omega
      exact .after fun _ => .after fun _ => .after fun _ => .after fun _ =>
        ((meets_stmts targets (none :: regions) guarded).mono hguarded).hold.bind fun _ =>
        ((meets_finallyCopy targets regions none).mono
          (by simp only [Option.none.sizeOf_spec]; omega)).hold.bind fun _ =>
        ((meets_catches targets regions none clauses _).mono
          (by simp only [Option.none.sizeOf_spec]; omega)).bind fun _ =>
        meets_lift _
  | .tryCatch guarded clauses (some ⟨slot, body⟩) =>
      rw [stmt]
      refine .called (fun _ => rfl) (.statement ?_)
      have := sizeOf_clauses_pos clauses
      simp only [Stmt.tryCatch.sizeOf_spec, Option.some.sizeOf_spec, Finally.mk.sizeOf_spec]
      have hguarded : sizeOf guarded + sizeOf (some body :: regions) + 1 ≤
          1 + sizeOf guarded + sizeOf clauses + (1 + (1 + sizeOf slot + sizeOf body)) +
            sizeOf regions := by
        simp only [List.cons.sizeOf_spec, Option.some.sizeOf_spec]
        omega
      exact .after fun _ => .after fun _ => .after fun _ => .after fun _ =>
        ((meets_stmts targets (some body :: regions) guarded).mono hguarded).hold.bind fun _ =>
        ((meets_finallyCopy targets regions (some body)).mono
          (by simp only [Option.some.sizeOf_spec]; omega)).hold.bind fun _ =>
        ((meets_catches targets regions (some body) clauses _).mono
          (by simp only [Option.some.sizeOf_spec]; omega)).bind fun _ =>
        .after fun _ => .after fun _ =>
        ((meets_stmts targets regions body).mono (by omega)).hold.bind fun _ => meets_lift _
  | .breakJump id =>
      rw [stmt]
      refine .called (fun _ => rfl) (.statement ?_)
      exact .after fun target =>
        ((meets_crossed targets target.depth regions).mono (by simp +arith)).bind fun _ =>
        meets_lift _
  | .continueJump id =>
      rw [stmt]
      refine .called (fun _ => rfl) (.statement (.after fun target => ?_))
      cases target.continueLabel with
      | none => exact meets_lift _
      | some continueLabel =>
          exact ((meets_crossed targets target.depth regions).mono (by simp +arith)).bind fun _ =>
            meets_lift _
  | .throw e =>
      rw [stmt]
      refine .called (fun _ => rfl) (.statement ?_)
      exact .after fun _ => meets_lift _
  | .empty =>
      rw [stmt]
      exact .called (fun _ => rfl) (.statement (meets_pure ()))
termination_by sizeOf s + sizeOf regions

theorem meets_stmts (targets : Targets) (regions : List Region) (body : List Stmt) :
    Meets (sizeOf body + sizeOf regions + 1)
      (fun depth => (Recursion.within depth).stmts targets regions body)
      (stmts targets regions body) := by
  match body with
  | [] =>
      rw [stmts]
      exact .called (fun _ => rfl) (meets_pure ())
  | s :: rest =>
      rw [stmts]
      refine .called (fun _ => rfl) ?_
      exact ((meets_stmt targets regions s).mono (by simp +arith)).bind fun _ =>
        (meets_stmts targets regions rest).mono (by simp +arith)
termination_by sizeOf body + sizeOf regions

theorem meets_groups (targets : Targets) (regions : List Region) (placeLabels : Nat → Gen Unit)
    (index : Nat) (bodies : List (List Stmt)) :
    Meets (sizeOf bodies + sizeOf regions + 1)
      (fun depth => (Recursion.within depth).groups targets regions placeLabels index bodies)
      (groups targets regions placeLabels index bodies) := by
  match bodies with
  | [] =>
      rw [groups]
      exact .called (fun _ => rfl) (meets_pure ())
  | body :: rest =>
      rw [groups]
      refine .called (fun _ => rfl) ?_
      exact .after fun _ => ((meets_stmts targets regions body).mono (by simp +arith)).bind fun _ =>
        (meets_groups targets regions placeLabels (index + 1) rest).mono (by simp +arith)
termination_by sizeOf bodies + sizeOf regions

theorem meets_finallyCopy (targets : Targets) (regions : List Region) (region : Region) :
    Meets (sizeOf region + sizeOf regions + 1)
      (fun depth => (Recursion.within depth).finallyCopy targets regions region)
      (finallyCopy targets regions region) := by
  match region with
  | none =>
      rw [finallyCopy]
      exact .called (fun _ => rfl) (meets_pure ())
  | some body =>
      rw [finallyCopy]
      refine .called (fun _ => rfl) ?_
      exact (meets_stmts targets regions body).mono (by simp +arith)
termination_by sizeOf region + sizeOf regions

theorem meets_catches (targets : Targets) (regions : List Region) (region : Region)
    (clauses : List (Catch Stmt)) (stretches : List Stretch) :
    Meets (sizeOf clauses + sizeOf region + sizeOf regions + 1)
      (fun depth => (Recursion.within depth).catches targets regions region clauses stretches)
      (catches targets regions region clauses stretches) := by
  match clauses, stretches with
  | ⟨exceptionType, slot, body⟩ :: rest, stretch :: stretches =>
      rw [catches]
      refine .called (fun _ => rfl) ?_
      have := sizeOf_clauseRegions_le regions region
      simp only [List.cons.sizeOf_spec, Catch.mk.sizeOf_spec]
      exact ((meets_stmts targets (clauseRegions regions region) body).mono
          (by omega)).hold.bind fun _ =>
        ((meets_finallyCopy targets regions region).mono (by omega)).hold.bind fun _ =>
        ((meets_catches targets regions region rest stretches).mono (by omega)).bind fun _ =>
        meets_pure _
  | [], _ =>
      rw [catches]
      · exact .called (fun _ => rfl) (meets_pure [])
      · simp
  | _ :: _, [] =>
      rw [catches]
      · exact .called (fun _ => rfl) (meets_pure [])
      · simp
termination_by sizeOf clauses + sizeOf region + sizeOf regions

theorem meets_crossed (targets : Targets) (depth : Nat) (regions : List Region) :
    Meets (sizeOf regions + 1)
      (fun deep => (Recursion.within deep).crossed targets depth regions)
      (crossed targets depth regions) := by
  match regions with
  | [] =>
      rw [crossed]
      exact .called (fun _ => rfl) (meets_pure ())
  | none :: outside =>
      rw [crossed]
      refine .called (fun _ => rfl) ?_
      by_cases hin : outside.length < depth
      · simp only [Recursion.step, if_pos hin]
        exact meets_pure ()
      · simp only [Recursion.step, if_neg hin]
        exact (meets_crossed targets depth outside).mono (by simp +arith)
  | some body :: outside =>
      rw [crossed]
      refine .called (fun _ => rfl) ?_
      by_cases hin : outside.length < depth
      · simp only [Recursion.step, if_pos hin]
        exact meets_pure ()
      · simp only [Recursion.step, if_neg hin]
        exact .after fun _ => .after fun _ =>
          ((meets_stmts targets outside body).mono (by simp +arith)).hold.bind fun _ =>
          .after fun _ => (meets_crossed targets depth outside).mono (by simp +arith)
termination_by sizeOf regions

end

/-- Generation ends for every tree, in any open regions and with any targets for its jumps: for a
statement, for statements one after another, and for the finally bodies that a jump runs on its
way. Following calls as deep as the sizes of the tree and of the regions say is enough to come to
the code or to a defect, and following them deeper takes as many calls and comes to the same. -/
theorem generation_makes_finitely_many_calls (targets : Targets) (regions : List Region) (s : Stmt)
    (body : List Stmt) (crossing : Nat) (next : Label) :
    (∃ calls, ∀ depth, sizeOf s + sizeOf regions < depth →
      (Recursion.within depth).stmt targets regions s next =
        some (calls, stmt targets regions s next)) ∧
    (∃ calls, ∀ depth, sizeOf body + sizeOf regions < depth →
      (Recursion.within depth).stmts targets regions body next =
        some (calls, stmts targets regions body next)) ∧
    ∃ calls, ∀ depth, sizeOf regions < depth →
      (Recursion.within depth).crossed targets crossing regions next =
        some (calls, crossed targets crossing regions next) :=
  ⟨meets_stmt targets regions s next, meets_stmts targets regions body next,
    meets_crossed targets crossing regions next⟩

end MethodCompiler.Lowering
