import MethodCompiler.Proofs.Compilation

/-!
# Limits are thresholds

A method body needs so many slots and its code so many labels. With a lower limit the
compilation runs short, and with any other one the limit makes no difference at all: neither to
the tree or the complaints, nor to the code. There is an exception below the number of labels:
where a copy of a finally body is cut short, a defect takes the place of the shortage.

What is compared is a run under every limit at once. A limit is only ever looked at before
something is handed out, and what is handed out does not depend on it. So the runs go side by
side until some of them run short, which are those under the lowest limits. `Threshold` says
this of a family of runs, and it composes: a sequence needs what the more demanding of its
parts needs. Slots are given back and labels are not, but in both cases the largest number in
use is remembered, and it tells what was needed.
-/

namespace MethodCompiler

open Lowering

/-! ## Runs under all limits -/

section Threshold

variable {ε β γ : Type} {exhausted : Nat → ε} {under : β → Nat → β} {peak : β → Nat} {base : Nat}
  {run : Nat → Except ε β}

/-- Runs short of some number and the others all come to one result, `under` their limits. The
number is what drives the peak up from `base`, if anything does. -/
def Threshold (exhausted : Nat → ε) (under : β → Nat → β) (peak : β → Nat) (base : Nat)
    (run : Nat → Except ε β) : Prop :=
  ∃ (need : Nat) (result : Except ε β),
    (∀ limit, run limit =
      if limit < need then .error (exhausted limit) else result.map (under · limit)) ∧
    (∀ limit, result ≠ .error (exhausted limit)) ∧
    ∀ b, result = .ok b → peak b = max base need

/-- Runs that never look at the limit. -/
theorem Threshold.of_same (result : Except ε β)
    (h : ∀ limit, run limit = result.map (under · limit))
    (hne : ∀ limit, result ≠ .error (exhausted limit))
    (hpeak : ∀ b, result = .ok b → peak b = base) : Threshold exhausted under peak base run := by
  refine ⟨0, result, fun limit => ?_, hne, fun b hb => ?_⟩
  · rw [h, if_neg (Nat.not_lt_zero limit)]
  · rw [hpeak b hb, Nat.max_zero]

theorem Threshold.ok (b : β) (h : ∀ limit, run limit = .ok (under b limit))
    (hpeak : peak b = base) : Threshold exhausted under peak base run := by
  refine .of_same (.ok b) h (fun limit hb => by cases hb) fun b' hb' => ?_
  obtain rfl := Except.ok.inj hb'
  exact hpeak

theorem Threshold.error (e : ε) (h : ∀ limit, run limit = .error e)
    (hne : ∀ limit, e ≠ exhausted limit) : Threshold exhausted under peak base run :=
  .of_same (.error e) h (fun limit he => hne limit (Except.error.inj he)) fun b hb => by cases hb

/-- Runs that take one more of something of which `n` are in use. -/
theorem Threshold.take (n : Nat) (b : β)
    (h : ∀ limit, run limit = if limit ≤ n then .error (exhausted limit) else .ok (under b limit))
    (hpeak : peak b = max base (n + 1)) : Threshold exhausted under peak base run := by
  refine ⟨n + 1, .ok b, fun limit => ?_, (fun limit hb => by cases hb), fun b' hb' => ?_⟩
  · rw [h]
    simp only [Nat.lt_succ_iff]
    rfl
  · obtain rfl := Except.ok.inj hb'
    exact hpeak

theorem Threshold.bind {under' : γ → Nat → γ} {peak' : γ → Nat} {f : β → Except ε γ}
    (hrun : Threshold exhausted under peak base run)
    (hf : ∀ b, Threshold exhausted under' peak' (peak b) fun limit => f (under b limit)) :
    Threshold exhausted under' peak' base fun limit => run limit >>= f := by
  obtain ⟨need, result, hrun, hne, hpeak⟩ := hrun
  cases result with
  | error e =>
      refine ⟨need, .error e, fun limit => ?_, fun limit he => hne limit ?_, fun c hc => ?_⟩
      · show run limit >>= f = _
        rw [hrun]
        split <;> rfl
      · rw [Except.error.inj he]
      · cases hc
  | ok b =>
      obtain ⟨need', result', hf, hne', hpeak'⟩ := hf b
      refine ⟨max need need', result', fun limit => ?_, hne', fun c hc => ?_⟩
      · show run limit >>= f = _
        by_cases hlt : limit < need
        · rw [hrun, if_pos hlt, if_pos (by omega)]
          rfl
        · have hsecond : run limit >>= f = f (under b limit) := by
            rw [hrun, if_neg hlt]
            rfl
          have hmax : limit < max need need' ↔ limit < need' := by omega
          simp only [hsecond, hf, hmax]
      · rw [hpeak' c hc, hpeak b rfl, Nat.max_assoc]

end Threshold

/-! ## Scopes under a limit -/

/-- A scope with another limit. -/
def Scope.under (s : Scope) (limit : Nat) : Scope :=
  { s with limit := limit }

namespace Typing

open Annotated (Expr Place)

/-! Types are found by looking names up, which the limit has nothing to do with. -/

mutual

theorem expr_under (scope : Scope) (limit : Nat) (used : Bool) (e : Source.Expr) :
    expr (scope.under limit) used e = expr scope used e := by
  match e with
  | .literal .. | .var .. | .new .. => rfl
  | .field _ target _ _ => rw [expr, expr, expr_under scope limit true target]
  | .assignment _ target value =>
      rw [expr, expr, place_under scope limit _ target, expr_under scope limit true value]
  | .binary _ _ left right =>
      rw [expr, expr, expr_under scope limit true left, expr_under scope limit true right]
  | .unary _ _ argument => rw [expr, expr, expr_under scope limit true argument]
  | .update _ op argument => rw [expr, expr, place_under scope limit op.symbol argument]
  | .call _ _ arguments _ => rw [expr, expr, exprs_under scope limit arguments]
termination_by structural e

theorem exprs_under (scope : Scope) (limit : Nat) (es : List Source.Expr) :
    exprs (scope.under limit) es = exprs scope es := by
  match es with
  | [] => rfl
  | e :: rest => rw [exprs, exprs, expr_under scope limit true e, exprs_under scope limit rest]
termination_by structural es

theorem place_under (scope : Scope) (limit : Nat) (what : String) (e : Source.Expr) :
    place (scope.under limit) what e = place scope what e := by
  match e with
  | .field _ target _ _ => rw [place, place, expr_under scope limit true target]
  | .var .. | .literal .. | .assignment .. | .binary .. | .unary .. | .update .. | .call ..
  | .new .. => rfl
termination_by structural e

end

theorem condition_under (scope : Scope) (limit : Nat) (line : UInt32) (e : Source.Expr) :
    condition (scope.under limit) line e = condition scope line e := by
  rw [condition, condition, expr_under]

theorem caseValue_under (scope : Scope) (limit : Nat) (e : Source.Expr) :
    caseValue (scope.under limit) e = caseValue scope e := by
  rw [caseValue, caseValue, expr_under]

end Typing

theorem Analysis.addLabel_under (scope : Scope) (limit : Nat) (line : UInt32) (labels : Labels)
    (group : Nat) (l : Source.CaseLabel) :
    addLabel (scope.under limit) line labels group l = addLabel scope line labels group l := by
  cases l with
  | case e => rw [addLabel, addLabel, Typing.caseValue_under]
  | default => rfl

theorem Analysis.switchLabels_under (scope : Scope) (limit : Nat) (line : UInt32)
    (groups : List (Source.Group Source.Stmt)) (labels : Labels) (index : Nat) :
    switchLabels (scope.under limit) line labels index groups =
      switchLabels scope line labels index groups := by
  induction groups generalizing labels index with
  | nil => rfl
  | cons group rest ih =>
      simp only [switchLabels, addLabel_under, ih]

/-! ## Steps of checking -/

/-- The progress of a check with another limit. -/
def Progress.under (s : Progress) (limit : Nat) : Progress :=
  { s with scope := s.scope.under limit }

/-- One more slot is in use, and these locals are in view. -/
def Progress.taking (s : Progress) (locals : List Local) : Progress :=
  { s with scope := { s.scope with
    locals := locals
    nextSlot := s.scope.nextSlot + 1
    maxSlots := max s.scope.maxSlots (s.scope.nextSlot + 1) } }

namespace Check

/-- What a step gives under a limit is a threshold for it, with the largest number of slots in
use as the peak. -/
def ThresholdFrom (s : Progress) (run : Nat → Except Abort (α × Progress)) : Prop :=
  Threshold Abort.slotsExhausted (fun r limit => (r.1, r.2.under limit))
    (fun r => r.2.scope.maxSlots) s.scope.maxSlots run

/-- The step does not depend on the limit, unless it needs more slots. -/
def Budgeted (x : Check α) : Prop :=
  ∀ s : Progress, ThresholdFrom s fun limit => x (s.under limit)

theorem budgeted_pure (a : α) : Budgeted (pure a : Check α) :=
  fun s => .ok (a, s) (fun _ => rfl) rfl

theorem ThresholdFrom.bind {s : Progress} {x : Nat → Except Abort (α × Progress)}
    {f : α → Check β} (hx : ThresholdFrom s x) (hf : ∀ a, Budgeted (f a)) :
    ThresholdFrom s fun limit => x limit >>= fun r => f r.1 r.2 :=
  Threshold.bind hx fun r => hf r.1 r.2

theorem Budgeted.bind {x : Check α} {f : α → Check β} (hx : Budgeted x)
    (hf : ∀ a, Budgeted (f a)) : Budgeted (x >>= f) :=
  fun s => (hx s).bind hf

theorem budgeted_orDefect (x : Except Defect α) : Budgeted (orDefect x) := by
  cases x with
  | ok a => exact budgeted_pure a
  | error d => exact fun s => .error (.defect d) (fun _ => rfl) fun _ h => by cases h

theorem budgeted_typed {f : Scope → Reported α}
    (h : ∀ scope limit, f (scope.under limit) = f scope) : Budgeted (typed f) := by
  intro s
  refine .ok ((f s.scope).value,
    { s with diagnostics := s.diagnostics ++ (f s.scope).diagnostics }) (fun limit => ?_) rfl
  have htyped : typed f (s.under limit) = .ok ((f (s.scope.under limit)).value,
      { s.under limit with
        diagnostics := s.diagnostics ++ (f (s.scope.under limit)).diagnostics }) := rfl
  rw [htyped, h]
  rfl

theorem budgeted_report (line : UInt32) (problem : Problem) : Budgeted (report line problem) :=
  budgeted_typed fun _ _ => rfl

theorem budgeted_condition (line : UInt32) (e : Source.Expr) :
    Budgeted (typed fun scope => Typing.condition scope line e) :=
  budgeted_typed fun scope limit => Typing.condition_under scope limit line e

theorem budgeted_reportIf (c : Prop) [Decidable c] (line : UInt32) (problem : Problem)
    {x : Check α} (hx : Budgeted x) :
    Budgeted (if c then report line problem >>= fun _ => x else x) := by
  split
  · exact (budgeted_report line problem).bind fun _ => hx
  · exact hx

theorem budgeted_inScope {x : Check α} (hx : Budgeted x) : Budgeted (inScope x) := by
  have henter : Budgeted enterScope :=
    fun s => .ok ((), { s with scope := s.scope.enter }) (fun _ => rfl) rfl
  have hleave : Budgeted leaveScope :=
    fun s => budgeted_orDefect s.scope.leave.1 { s with scope := s.scope.leave.2 }
  exact henter.bind fun _ => hx.bind fun a => hleave.bind fun _ => budgeted_pure a

theorem get_bind_apply (f : Progress → Check α) (s : Progress) : (get >>= f) s = f s s := rfl

/-- A slot is handed out if its number is below the limit. -/
theorem reserve_under (s : Progress) (limit : Nat) : (s.under limit).scope.reserve =
    if limit ≤ s.scope.nextSlot then .error .exhausted
    else .ok (s.scope.nextSlot, ((s.taking s.scope.locals).under limit).scope) := rfl

theorem budgeted_reserve : Budgeted reserve := by
  intro s
  refine .take s.scope.nextSlot (s.scope.nextSlot, s.taking s.scope.locals) (fun limit => ?_) rfl
  rw [reserve, get_bind_apply, reserve_under]
  split <;> rfl

theorem budgeted_declare (line : UInt32) (name : String) (ty : Ty) :
    Budgeted (declare line name ty) := by
  intro s
  by_cases hdup : s.scope.declares name
  · have hdeclare (limit : Nat) : declare line name ty (s.under limit) =
        (report line (.alreadyDefined name) >>= fun _ => reserve) (s.under limit) := by
      have hscope : (s.under limit).scope.declare name ty = .error (.duplicate name) := if_pos hdup
      rw [declare, get_bind_apply, hscope]
    simp only [hdeclare]
    exact (budgeted_report line (.alreadyDefined name)).bind (fun _ => budgeted_reserve) s
  · let l : Local := ⟨name, s.scope.depth, s.scope.nextSlot, ty⟩
    refine .take s.scope.nextSlot (s.scope.nextSlot, s.taking (l :: s.scope.locals))
      (fun limit => ?_) rfl
    have hscope : (s.under limit).scope.declare name ty = (s.under limit).scope.reserve >>= _ :=
      if_neg hdup
    rw [declare, get_bind_apply, hscope, reserve_under]
    split <;> rfl

/-- Closing a construct. -/
theorem budgeted_close (pop : Enclosing → Except Defect φ × Enclosing) (result : φ → α) :
    Budgeted (do
      let s ← get
      set { s with enclosing := (pop s.enclosing).2 }
      return result (← orDefect (pop s.enclosing).1)) :=
  fun s => (budgeted_orDefect (pop s.enclosing).1).bind (fun frame => budgeted_pure (result frame))
    { s with enclosing := (pop s.enclosing).2 }

theorem budgeted_loopBody (kind : ConstructKind) {x : Check α} (hx : Budgeted x) :
    Budgeted (loopBody kind x) := by
  intro s
  simp only [loopBody, get_bind_apply]
  have hpush (limit : Nat) : (s.under limit).enclosing.pushLoop kind = s.enclosing.pushLoop kind :=
    rfl
  simp only [hpush]
  cases s.enclosing.pushLoop kind with
  | error d => exact .error (.defect d) (fun _ => rfl) fun _ h => by cases h
  | ok opened =>
      have hclose (a : α) := budgeted_close (Enclosing.popLoop · opened.1) fun frame =>
        ((⟨opened.1, frame.hasBreak, frame.hasContinue⟩, a) : Annotated.Jumps × α)
      exact hx.bind hclose { s with enclosing := opened.2 }

theorem budgeted_switchBody {x : Check α} (hx : Budgeted x) : Budgeted (switchBody x) := by
  intro s
  have hclose (a : α) := budgeted_close (Enclosing.popSwitch · s.enclosing.pushSwitch.1)
    fun frame => (s.enclosing.pushSwitch.1, frame.hasBreak, a)
  exact hx.bind hclose { s with enclosing := s.enclosing.pushSwitch.2 }

end Check

/-! ## Statements -/

namespace Analysis

open Annotated (Stmt)
open Check

theorem budgeted_breakJump (line : UInt32) : Budgeted (breakJump line) := by
  intro s
  have henclosing (limit : Nat) : (s.under limit).enclosing = s.enclosing := rfl
  simp only [breakJump, get_bind_apply, henclosing]
  split
  · exact (budgeted_report line .breakOutside).bind (fun _ => budgeted_pure Stmt.empty) s
  · cases s.enclosing.resolveBreak with
    | error d => exact .error (.defect d) (fun _ => rfl) fun _ h => by cases h
    | ok r => exact .ok (.breakJump r.1, { s with enclosing := r.2 }) (fun _ => rfl) rfl

theorem budgeted_continueJump (policy : ContinuePolicy) (line : UInt32) :
    Budgeted (continueJump policy line) := by
  intro s
  have henclosing (limit : Nat) : (s.under limit).enclosing = s.enclosing := rfl
  simp only [continueJump, get_bind_apply, henclosing]
  split
  · exact (budgeted_report line .continueOutside).bind (fun _ => budgeted_pure Stmt.empty) s
  · cases s.enclosing.resolveContinue with
    | error d => exact .error (.defect d) (fun _ => rfl) fun _ h => by cases h
    | ok r =>
        obtain ⟨target, enclosing⟩ := r
        cases target with
        | loop id =>
            exact .ok (.continueJump id, { s with enclosing := enclosing }) (fun _ => rfl) rfl
        | «switch» id =>
            exact budgeted_reportIf (policy = .reject) line .continueInSwitch
              (budgeted_pure Stmt.empty) s

theorem budgeted_localDecl (line : UInt32) (name : String) (ty : Ty) (init : Option Source.Expr) :
    Budgeted (localDecl line name ty init) := by
  cases init with
  | none =>
      exact budgeted_reportIf _ _ _ <| (budgeted_declare line name ty).bind fun _ => budgeted_pure _
  | some e =>
      refine budgeted_reportIf _ _ _ <| (budgeted_typed fun scope limit => ?_).bind fun value =>
        (budgeted_declare line name ty).bind fun _ => budgeted_pure _
      rw [Typing.expr_under]

mutual

theorem budgeted_stmt (policy : ContinuePolicy) (s : Source.Stmt) : Budgeted (stmt policy s) := by
  match s with
  | .block ⟨_, body⟩ =>
      exact (budgeted_inScope (budgeted_stmts policy body)).bind fun _ => budgeted_pure _
  | .localDecl line name ty init => exact budgeted_localDecl line name ty init
  | .expression _ e =>
      exact (budgeted_typed fun scope limit => Typing.expr_under scope limit false e).bind
        fun _ => budgeted_pure _
  | .ifElse line condition s none =>
      exact (budgeted_condition line condition).bind fun _ =>
        (budgeted_stmt policy s).bind fun _ => budgeted_pure _
  | .ifElse line condition s (some t) =>
      exact (budgeted_condition line condition).bind fun _ =>
        (budgeted_stmt policy s).bind fun _ => (budgeted_stmt policy t).bind fun _ =>
          budgeted_pure _
  | .whileLoop line condition body =>
      exact (budgeted_condition line condition).bind fun _ =>
        (budgeted_loopBody .whileLoop (budgeted_stmt policy body)).bind fun _ => budgeted_pure _
  | .doLoop line body condition =>
      exact (budgeted_loopBody .doLoop (budgeted_stmt policy body)).bind fun _ =>
        (budgeted_condition line condition).bind fun _ => budgeted_pure _
  | .forLoop line init none update body =>
      exact budgeted_inScope <| (budgeted_stmts policy init).bind fun _ =>
        (budgeted_pure _).bind fun _ => (budgeted_stmts policy update).bind fun _ =>
          (budgeted_loopBody .forLoop (budgeted_stmt policy body)).bind fun _ => budgeted_pure _
  | .forLoop line init (some c) update body =>
      exact budgeted_inScope <| (budgeted_stmts policy init).bind fun _ =>
        ((budgeted_condition line c).bind fun _ => budgeted_pure _).bind fun _ =>
          (budgeted_stmts policy update).bind fun _ =>
            (budgeted_loopBody .forLoop (budgeted_stmt policy body)).bind fun _ => budgeted_pure _
  | .switch line selector groups =>
      refine (budgeted_typed fun scope limit => ?_).bind fun _ => ?_
      · rw [Typing.expr_under]
      refine (budgeted_typed fun scope limit =>
        switchLabels_under scope limit line groups {} 0).bind fun _ => ?_
      exact (budgeted_switchBody (budgeted_groupBodies policy groups)).bind fun _ =>
        (budgeted_orDefect _).bind fun _ => budgeted_pure _
  | .breakJump line => exact budgeted_breakJump line
  | .continueJump line => exact budgeted_continueJump policy line
  | .tryCatch line ⟨_, body⟩ catches none =>
      exact budgeted_reportIf _ _ _ <| (budgeted_inScope (budgeted_stmts policy body)).bind fun _ =>
        (budgeted_catchClauses policy catches).bind fun _ => budgeted_pure _
  | .tryCatch line ⟨_, body⟩ catches (some ⟨_, last⟩) =>
      have hlast : Budgeted (inScope do
          let slot ← reserve
          return (⟨slot, ← stmts policy last⟩ : Annotated.Finally Stmt)) :=
        budgeted_inScope <| budgeted_reserve.bind fun _ => (budgeted_stmts policy last).bind
          fun _ => budgeted_pure _
      exact budgeted_reportIf _ _ _ <| (budgeted_inScope (budgeted_stmts policy body)).bind fun _ =>
        (budgeted_catchClauses policy catches).bind fun _ => hlast.bind fun _ => budgeted_pure _
  | .throw line argument =>
      refine (budgeted_typed fun scope limit => ?_).bind fun _ => budgeted_pure _
      rw [Typing.expr_under]
  | .empty => exact budgeted_pure _
termination_by structural s

theorem budgeted_stmts (policy : ContinuePolicy) (body : List Source.Stmt) :
    Budgeted (stmts policy body) := by
  match body with
  | [] => exact budgeted_pure _
  | s :: rest =>
      exact (budgeted_stmt policy s).bind fun _ => (budgeted_stmts policy rest).bind fun _ =>
        budgeted_pure _
termination_by structural body

theorem budgeted_groupBodies (policy : ContinuePolicy)
    (groups : List (Source.Group Source.Stmt)) : Budgeted (groupBodies policy groups) := by
  match groups with
  | [] => exact budgeted_pure _
  | ⟨_, body⟩ :: rest =>
      exact (budgeted_inScope (budgeted_stmts policy body)).bind fun _ =>
        (budgeted_groupBodies policy rest).bind fun _ => budgeted_pure _
termination_by structural groups

theorem budgeted_catchClauses (policy : ContinuePolicy)
    (clauses : List (Source.CatchClause Source.Stmt)) : Budgeted (catchClauses policy clauses) := by
  match clauses with
  | [] => exact budgeted_pure _
  | ⟨line, exceptionType, param, ⟨_, body⟩⟩ :: rest =>
      exact (budgeted_inScope ((budgeted_declare line param (.reference exceptionType)).bind
        fun _ => (budgeted_stmts policy body).bind fun _ => budgeted_pure _)).bind fun _ =>
          (budgeted_catchClauses policy rest).bind fun _ => budgeted_pure _
termination_by structural clauses

end

end Analysis

/-! ## Assembly -/

namespace Assembler

/-- Code that is being put together, with another limit. -/
def under (a : Assembler) (limit : Nat) : Assembler :=
  { a with maxLabels := limit }

/-- What comes of a threshold for labels is measured by how many there are. -/
def ThresholdFrom (a : Assembler) (run : Nat → Except AssemblyError Assembler) : Prop :=
  Threshold AssemblyError.labelsExhausted under (fun b => b.labels.size) a.labels.size run

theorem threshold_apply (a : Assembler) (d : Directive) :
    a.ThresholdFrom fun limit => (a.under limit).apply d := by
  cases d with
  | create l =>
      refine .take a.labels.size { a with labels := a.labels.push none } (fun limit => ?_) ?_
      · show (a.under limit).createLabel.map (·.2) = _
        by_cases hfull : limit ≤ a.labels.size
        · have hcreate : (a.under limit).createLabel = .error (.labelsExhausted limit) :=
            if_pos hfull
          rw [hcreate, if_pos hfull]
          rfl
        · have hcreate : (a.under limit).createLabel = .ok (a.labels.size, _) := if_neg hfull
          rw [hcreate, if_neg hfull]
          rfl
      · rw [Array.size_push]
        omega
  | place l =>
      have hplace (limit : Nat) : (a.under limit).apply (.place l) =
          (a.place l).map (under · limit) := by
        show (a.under limit).place l = _
        have hlabels : (a.under limit).labels = a.labels := rfl
        rw [place, place, hlabels]
        cases a.labels[l]? with
        | none => rfl
        | some position => cases position <;> rfl
      refine .of_same (a.place l) hplace (fun limit he => ?_) fun b hb => ?_
      · rw [place] at he
        split at he <;> cases he
      · rw [place] at hb
        split at hb <;> cases hb
        exact Array.size_setIfInBounds
  | emit i => exact .ok (a.emit i) (fun _ => rfl) rfl
  | table default low high targets =>
      by_cases hsize : (targets.length : Int) = high.toInt - low.toInt + 1
      · exact .ok (a.emit _) (fun _ => if_pos hsize) rfl
      · exact .error _ (fun _ => if_neg hsize) fun _ h => by cases h
  | lookup default count pairs =>
      by_cases hsize : count = pairs.length
      · exact .ok (a.emit _) (fun _ => if_pos hsize) rfl
      · exact .error _ (fun _ => if_neg hsize) fun _ h => by cases h
  | handler start stop handler catchType =>
      exact .ok (a.addHandler start stop handler catchType) (fun _ => rfl) rfl

theorem threshold_run (a : Assembler) (ds : List Directive) :
    a.ThresholdFrom fun limit => (a.under limit).run ds := by
  induction ds generalizing a with
  | nil => exact .ok a (fun _ => rfl) rfl
  | cons d rest ih => exact (a.threshold_apply d).bind ih

theorem resolve_error {a : Assembler} {h : PendingHandler} {e : AssemblyError}
    (he : a.resolve h = .error e) : ∃ l, e = .unplaced l := by
  have hposition (l : Label) :
      (∃ pc, a.position l = .ok pc) ∨ a.position l = .error (.unplaced l) := by
    rw [position]
    cases (a.labels[l]?).join with
    | none => exact .inr rfl
    | some pc => exact .inl ⟨pc, rfl⟩
  rw [resolve] at he
  obtain ⟨start, hstart⟩ | hstart := hposition h.start
  · obtain ⟨stop, hstop⟩ | hstop := hposition h.stop
    · obtain ⟨target, htarget⟩ | htarget := hposition h.handler
      · rw [hstart, hstop, htarget] at he
        cases he
      · rw [hstart, hstop, htarget] at he
        exact ⟨_, (Except.error.inj he).symm⟩
    · rw [hstart, hstop] at he
      exact ⟨_, (Except.error.inj he).symm⟩
  · rw [hstart] at he
    exact ⟨_, (Except.error.inj he).symm⟩

theorem mapM_resolve_error {a : Assembler} {hs : List PendingHandler} {e : AssemblyError}
    (he : hs.mapM a.resolve = .error e) : ∃ l, e = .unplaced l := by
  induction hs with
  | nil => cases he
  | cons h rest ih =>
      rw [List.mapM_cons] at he
      cases hh : a.resolve h with
      | error why =>
          rw [hh] at he
          obtain rfl := Except.error.inj he
          exact resolve_error hh
      | ok row =>
          cases hrest : rest.mapM a.resolve with
          | error why =>
              rw [hh, hrest] at he
              obtain rfl := Except.error.inj he
              exact ih hrest
          | ok rows =>
              rw [hh, hrest] at he
              cases he

/-- Sealing creates no labels, so it does not run short of them. -/
theorem threshold_finish (a : Assembler) (maxLocals : Nat) :
    Threshold AssemblyError.labelsExhausted (fun code _ => code) (fun code => code.labels.size)
      a.labels.size fun limit => (a.under limit).finish maxLocals := by
  have hfinish (limit : Nat) : (a.under limit).finish maxLocals = a.finish maxLocals := rfl
  refine .of_same (a.finish maxLocals) (fun limit => ?_) (fun limit he => ?_) fun code hcode => ?_
  · rw [hfinish]
    cases a.finish maxLocals <;> rfl
  · rw [finish] at he
    split at he
    · cases he
    · cases hrows : a.handlers.toList.mapM a.resolve with
      | error why =>
          obtain ⟨l, rfl⟩ := mapM_resolve_error hrows
          rw [hrows] at he
          cases he
      | ok rows =>
          rw [hrows] at he
          cases he
  · rw [finish] at hcode
    split at hcode
    · cases hcode
    · cases hrows : a.handlers.toList.mapM a.resolve with
      | error why =>
          rw [hrows] at hcode
          cases hcode
      | ok rows =>
          rw [hrows] at hcode
          obtain rfl := Except.ok.inj hcode
          rfl

end Assembler

theorem threshold_assemble (maxLocals : Nat) (ds : List Directive) :
    Threshold AssemblyError.labelsExhausted (fun code _ => code) (fun code => code.labels.size) 0
      fun maxLabels => assemble maxLabels maxLocals ds :=
  (Assembler.threshold_run { maxLabels := 0 } ds).bind fun a => a.threshold_finish maxLocals

/-! ## Whole bodies -/

/-- How many labels the code of a sound tree has decides when there is code. -/
theorem generate_threshold {p : Annotated.Program} {hi : Nat}
    (hs : Annotated.Stmt.AllSound none 0 p.body hi) :
    ∃ emission code, program p 0 = .ok emission ∧ code.labels.size = emission.next ∧
      (∀ l ∈ copied emission.pieces, l < emission.next) ∧
      ∀ maxLabels, generate maxLabels p =
        if maxLabels < emission.next then
          .error (if maxLabels ∈ copied emission.pieces then .defect .regionsEmptied
            else .labelsExhausted maxLabels)
        else .ok code := by
  obtain ⟨ps, -, n', hyields, -, htidy⟩ := pieces_of_sound hs
  have hnested := nested_program hyields
  have hbuild := htidy.buildCode hnested
  obtain ⟨need, result, hthreshold, -, hpeak⟩ := threshold_assemble p.maxSlots (layOut ps)
  have hassemble (maxLabels : Nat) : assemble maxLabels p.maxSlots (layOut ps) =
      if maxLabels < need then .error (.labelsExhausted maxLabels) else result :=
    (hthreshold maxLabels).trans (by cases result <;> rfl)
  -- With as many labels as are created there is code, and its labels are what was needed.
  obtain ⟨hlt, -⟩ | ⟨-, code, hcode, hsize⟩ := hbuild n' p.maxSlots
  · exact absurd hlt (Nat.lt_irrefl n')
  have hresult : result = .ok code := by
    have hn' := hassemble n'
    rw [buildCode_ok hnested hcode] at hn'
    split at hn'
    · cases hn'
    · exact hn'.symm
  have hneed : need = n' := by
    rw [← hsize]
    exact ((hpeak code hresult).trans (Nat.zero_max need)).symm
  refine ⟨⟨(), ps, n'⟩, code, hyields, hsize, fun l => lt_of_mem_copied hnested htidy.numbered,
    fun maxLabels => ?_⟩
  rw [generate_eq hyields]
  obtain ⟨hlt, hshort⟩ | ⟨hle, code', hcode', -⟩ := hbuild maxLabels p.maxSlots
  · rw [if_pos hlt, hshort]
    split <;> rfl
  · have hmax := hassemble maxLabels
    rw [buildCode_ok hnested hcode', hresult, hneed, if_neg (Nat.not_lt.mpr hle)] at hmax
    obtain rfl := Except.ok.inj hmax
    rw [if_neg (Nat.not_lt.mpr hle), hcode']
    rfl

theorem Analysis.program_threshold (policy : ContinuePolicy) (p : Source.Program) :
    ∃ r : Reported Annotated.Program, ∀ settings : Settings,
      program { settings with continueInSwitch := policy } p =
        if settings.maxLocals < r.value.maxSlots then .error (.slotsExhausted settings.maxLocals)
        else .ok r := by
  let start : Progress := { scope := { limit := 0 } }
  have hstmts : Check.ThresholdFrom start fun limit => stmts policy p.body (start.under limit) :=
    budgeted_stmts policy p.body start
  have hthreshold : Threshold Abort.slotsExhausted (fun r _ => r)
      (fun r : Reported Annotated.Program => r.value.maxSlots) 0
      fun limit => program { maxLocals := limit, continueInSwitch := policy } p := by
    refine Threshold.bind hstmts fun r => ?_
    by_cases hopen : r.2.enclosing.frames.isEmpty
    · exact .ok ⟨⟨r.1, r.2.scope.maxSlots⟩, r.2.diagnostics⟩ (fun _ => if_pos hopen) rfl
    · exact .error (.defect .constructLeftOpen) (fun _ => if_neg hopen) fun _ h => by cases h
  obtain ⟨need, result, hprogram, hne, hpeak⟩ := hthreshold
  have hneed : program { maxLocals := need, continueInSwitch := policy } p = result := by
    refine (hprogram need).trans ?_
    rw [if_neg (Nat.lt_irrefl need)]
    cases result <;> rfl
  obtain ⟨-, hshort⟩ | ⟨body, s, -, hr, -⟩ :=
    program_cases { maxLocals := need, continueInSwitch := policy } p
  · rw [hneed] at hshort
    cases result with
    | ok r => cases hshort
    | error e => exact absurd hshort (hne need)
  · rw [hneed] at hr
    cases result with
    | error e => cases hr
    | ok r' =>
        have hsize : r'.value.maxSlots = need := (hpeak r' rfl).trans (Nat.zero_max need)
        exact ⟨r', fun settings => hsize ▸ hprogram settings.maxLocals⟩

/-- Every method body needs some number of slots and its code some number of labels, and with
so many the limits matter for nothing. Too few slots and checking runs short, whatever there is to
complain about; otherwise it gives the same complaints or the same tree, which says how many slots
it needs. With enough labels generation gives the same code, which has just as many labels as it
needs. With too few it runs short, unless the label with the number of the limit is created inside
a copy of a finally body: then it comes upon a defect. -/
theorem limits_are_thresholds (p : Source.Program) (policy : ContinuePolicy) :
    ∃ (slots labels : Nat) (answer : Except (List Diagnostic) Annotated.Program),
      (∀ settings : Settings, check { settings with continueInSwitch := policy } p =
        if settings.maxLocals < slots then .error (.slotsExhausted settings.maxLocals)
        else answer.mapError .complaints) ∧
      match answer with
      | .error complaints => complaints ≠ []
      | .ok tree => tree.maxSlots = slots ∧ ∃ (emission : Emission Unit) (code : Code),
          program tree 0 = .ok emission ∧ code.labels.size = labels ∧
          (∀ l ∈ copied emission.pieces, l < labels) ∧
          ∀ maxLabels, generate maxLabels tree =
            if maxLabels < labels then
              .error (if maxLabels ∈ copied emission.pieces then .defect .regionsEmptied
                else .labelsExhausted maxLabels)
            else .ok code := by
  obtain ⟨r, hprogram⟩ := Analysis.program_threshold policy p
  have hcheck (settings : Settings) : check { settings with continueInSwitch := policy } p =
      if settings.maxLocals < r.value.maxSlots then .error (.slotsExhausted settings.maxLocals)
      else if r.diagnostics.isEmpty then .ok r.value else .error (.complaints r.diagnostics) := by
    rw [check, hprogram]
    by_cases hshort : settings.maxLocals < r.value.maxSlots
    · rw [if_pos hshort, if_pos hshort]
      rfl
    · rw [if_neg hshort, if_neg hshort]
  by_cases hclean : r.diagnostics.isEmpty
  · simp only [if_pos hclean] at hcheck
    have hfits : check { maxLocals := r.value.maxSlots, continueInSwitch := policy } p =
        .ok r.value :=
      (hcheck { maxLocals := r.value.maxSlots }).trans (if_neg (Nat.lt_irrefl _))
    obtain ⟨hi, hsound⟩ := check_sound hfits
    obtain ⟨emission, code, hprogram, hsize, hcopied, hgenerate⟩ := generate_threshold hsound
    exact ⟨r.value.maxSlots, emission.next, .ok r.value, hcheck, rfl, emission, code, hprogram, hsize,
      hcopied, hgenerate⟩
  · simp only [if_neg hclean] at hcheck
    exact ⟨r.value.maxSlots, 0, .error r.diagnostics, hcheck,
      fun hnil => hclean (List.isEmpty_iff.mpr hnil)⟩

/-- With one label less or one more than nine, generation runs short as it should. -/
theorem generate_breakThroughIf : ∃ tree, check {} breakThroughIf = .ok tree ∧
    generate 8 tree = .error (.labelsExhausted 8) ∧
      generate 9 tree = .error (.defect .regionsEmptied) ∧
      generate 10 tree = .error (.labelsExhausted 10) :=
  ⟨_, by cbv, by decide +kernel, by decide +kernel, by decide +kernel⟩

end MethodCompiler
