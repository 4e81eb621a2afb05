import Mathlib.Logic.Equiv.Basic
import MethodCompiler.Compile
import MethodCompiler.Proofs.Checking

/-!
# Names and lines do not matter

A method body whose locals are given other names, and whose lines are others, compiles to the
same code, or fails in the same way. Names of locals are only ever compared with each other,
so an injective renaming changes no comparison: what is found in a scope, and whether a scope
has a name already, stay the same. Lines only go into complaints.

Two runs of the checker are compared step by step. In corresponding states the scopes differ
by the renaming, the open constructs are the same, and so is the number of complaints.
-/

namespace MethodCompiler

/-! ## Other names and other lines -/

namespace Source

variable (ρ : String → String) (f : UInt32 → UInt32)

mutual

/-- An expression with other names of locals and other lines. -/
def Expr.relabel : Expr → Expr
  | .literal line value => .literal (f line) value
  | .var line name => .var (f line) (ρ name)
  | .field line target name ty => .field (f line) target.relabel name ty
  | .assignment line target value => .assignment (f line) target.relabel value.relabel
  | .binary line op left right => .binary (f line) op left.relabel right.relabel
  | .unary line op argument => .unary (f line) op argument.relabel
  | .update line op argument => .update (f line) op argument.relabel
  | .call line callee arguments returns => .call (f line) callee (Expr.relabelAll arguments) returns
  | .new line className => .new (f line) className
termination_by structural e => e

def Expr.relabelAll : List Expr → List Expr
  | [] => []
  | e :: rest => e.relabel :: Expr.relabelAll rest
termination_by structural es => es

end

def CaseLabel.relabel : CaseLabel → CaseLabel
  | .case value => .case (value.relabel ρ f)
  | .default => .default

mutual

/-- A statement with other names of locals and other lines. -/
def Stmt.relabel : Stmt → Stmt
  | .block ⟨line, body⟩ => .block ⟨f line, Stmt.relabelAll body⟩
  | .localDecl line name ty init => .localDecl (f line) (ρ name) ty (init.map (Expr.relabel ρ f))
  | .expression line e => .expression (f line) (e.relabel ρ f)
  | .ifElse line condition s none => .ifElse (f line) (condition.relabel ρ f) s.relabel none
  | .ifElse line condition s (some t) =>
    .ifElse (f line) (condition.relabel ρ f) s.relabel (some t.relabel)
  | .whileLoop line condition body => .whileLoop (f line) (condition.relabel ρ f) body.relabel
  | .doLoop line body condition => .doLoop (f line) body.relabel (condition.relabel ρ f)
  | .forLoop line init condition update body =>
    .forLoop (f line) (Stmt.relabelAll init) (condition.map (Expr.relabel ρ f))
      (Stmt.relabelAll update) body.relabel
  | .switch line selector groups =>
    .switch (f line) (selector.relabel ρ f) (Stmt.relabelGroups groups)
  | .breakJump line => .breakJump (f line)
  | .continueJump line => .continueJump (f line)
  | .tryCatch line ⟨blockLine, body⟩ catches none =>
    .tryCatch (f line) ⟨f blockLine, Stmt.relabelAll body⟩ (Stmt.relabelClauses catches) none
  | .tryCatch line ⟨blockLine, body⟩ catches (some ⟨lastLine, last⟩) =>
    .tryCatch (f line) ⟨f blockLine, Stmt.relabelAll body⟩ (Stmt.relabelClauses catches)
      (some ⟨f lastLine, Stmt.relabelAll last⟩)
  | .throw line argument => .throw (f line) (argument.relabel ρ f)
  | .empty => .empty
termination_by structural s => s

def Stmt.relabelAll : List Stmt → List Stmt
  | [] => []
  | s :: rest => s.relabel :: Stmt.relabelAll rest
termination_by structural body => body

def Stmt.relabelGroups : List (Group Stmt) → List (Group Stmt)
  | [] => []
  | ⟨labels, body⟩ :: rest =>
    ⟨labels.map (CaseLabel.relabel ρ f), Stmt.relabelAll body⟩ :: Stmt.relabelGroups rest
termination_by structural groups => groups

def Stmt.relabelClauses : List (CatchClause Stmt) → List (CatchClause Stmt)
  | [] => []
  | ⟨line, exceptionType, param, ⟨blockLine, body⟩⟩ :: rest =>
    ⟨f line, exceptionType, ρ param, ⟨f blockLine, Stmt.relabelAll body⟩⟩ ::
      Stmt.relabelClauses rest
termination_by structural clauses => clauses

end

/-- A method body with its locals renamed. -/
def Program.rename (p : Program) : Program :=
  ⟨Stmt.relabelAll ρ id p.body⟩

/-- A method body that is all on one line. -/
def Program.withoutLines (p : Program) : Program :=
  ⟨Stmt.relabelAll id (fun _ => 0) p.body⟩

@[simp]
theorem Expr.line_relabel (e : Expr) : (e.relabel ρ f).line = f e.line := by
  cases e <;> rfl

@[simp]
theorem Expr.isPlace_relabel (e : Expr) : (e.relabel ρ f).isPlace = e.isPlace := by
  cases e <;> rfl

theorem Stmt.isEmpty_relabelClauses (clauses : List (CatchClause Stmt)) :
    (Stmt.relabelClauses ρ f clauses).isEmpty = clauses.isEmpty := by
  cases clauses <;> rfl

end Source

/-! ## Scopes -/

/-- A local under another name. -/
def Local.rename (ρ : String → String) (l : Local) : Local :=
  { l with name := ρ l.name }

namespace Scope

variable (ρ : String → String)

/-- A scope with its locals renamed. -/
def rename (s : Scope) : Scope :=
  { s with locals := s.locals.map (Local.rename ρ) }

variable {ρ} (hρ : Function.Injective ρ) (s : Scope)

theorem enter_rename : (s.rename ρ).enter = s.enter.rename ρ := rfl

theorem leave_rename :
    (s.rename ρ).leave = (s.leave.1, s.leave.2.rename ρ) := by
  simp only [leave, rename, List.dropWhile_map]
  rfl

theorem reserve_rename :
    (s.rename ρ).reserve = s.reserve.map fun r => (r.1, r.2.rename ρ) := by
  have hlimit : (s.rename ρ).limit ≤ (s.rename ρ).nextSlot ↔ s.limit ≤ s.nextSlot := Iff.rfl
  by_cases h : s.limit ≤ s.nextSlot
  · rw [reserve, reserve, if_pos (hlimit.mpr h), if_pos h]
    rfl
  · rw [reserve, reserve, if_neg (mt hlimit.mp h), if_neg h]
    rfl

include hρ

theorem resolve?_rename (name : String) :
    (s.rename ρ).resolve? (ρ name) = (s.resolve? name).map (Local.rename ρ) := by
  have hsame : ((fun l : Local => decide (l.name = ρ name)) ∘ Local.rename ρ) =
      fun l => decide (l.name = name) := by
    funext l
    simp [Local.rename, hρ.eq_iff]
  rw [resolve?, resolve?, rename, List.find?_map, hsame]

theorem declares_rename (name : String) :
    (s.rename ρ).declares (ρ name) = s.declares name := by
  have hsame : ((fun l : Local => decide (l.name = ρ name)) ∘ Local.rename ρ) =
      fun l => decide (l.name = name) := by
    funext l
    simp [Local.rename, hρ.eq_iff]
  simp only [declares, rename, List.takeWhile_map, List.any_map, hsame]
  rfl

end Scope

/-! ## Results with complaints -/

namespace Reported

/-- The same result with as many complaints. -/
def Like (x y : Reported α) : Prop :=
  x.value = y.value ∧ x.diagnostics.length = y.diagnostics.length

theorem Like.refl (x : Reported α) : x.Like x :=
  ⟨rfl, rfl⟩

theorem Like.bind {x y : Reported α} {f g : α → Reported β} (hxy : x.Like y)
    (hfg : ∀ a, (f a).Like (g a)) : (x >>= f).Like (y >>= g) := by
  obtain ⟨hvalue, hlength⟩ := hxy
  constructor
  · rw [value_bind, value_bind, hvalue]
    exact (hfg _).1
  · rw [diagnostics_bind, diagnostics_bind, List.length_append, List.length_append, hlength, hvalue,
      (hfg _).2]

theorem like_report (line line' : UInt32) (problem problem' : Problem) :
    (report line problem).Like (report line' problem') :=
  ⟨rfl, rfl⟩

end Reported

namespace Ty

open Reported

theorem like_expect (found expected : Ty) (line line' : UInt32) :
    (found.expect expected line).Like (found.expect expected line') := by
  rw [expect, expect]
  split
  · exact .refl _
  · exact (like_report ..).bind fun _ => .refl _

theorem like_expectOneOf (found : Ty) (options : List Ty) (line line' : UInt32) :
    (found.expectOneOf options line).Like (found.expectOneOf options line') := by
  rw [expectOneOf, expectOneOf]
  split
  · exact .refl _
  · exact (like_report ..).bind fun _ => .refl _

end Ty

/-! ## Expressions -/

namespace Typing

open Annotated (Expr Place)
open Reported

theorem like_coerce (e : Expr) (target : Ty) (line line' : UInt32) :
    (coerce e target line).Like (coerce e target line') := by
  rw [coerce, coerce]
  split
  · exact .refl _
  · split
    · exact .refl _
    · exact (Ty.like_expect ..).bind fun _ => .refl _

theorem like_object (line line' : UInt32) (e : Expr) (problem : Problem) :
    (do
      if !e.ty.isReference && e.ty != .any then Reported.report line problem
      return e : Reported Expr).Like (do
      if !e.ty.isReference && e.ty != .any then Reported.report line' problem
      return e) := by
  split
  · exact (like_report ..).bind fun _ => .refl _
  · exact .refl _

theorem like_numeric (line line' : UInt32) (op : BinaryOp) (left right : Expr) :
    (binary.numeric line op left right).Like (binary.numeric line' op left right) :=
  (Ty.like_expectOneOf ..).bind fun _ => (Ty.like_expectOneOf ..).bind fun _ => .refl _

theorem like_binary (line line' : UInt32) (op : BinaryOp) (left right : Expr) :
    (binary line op left right).Like (binary line' op left right) := by
  have hequal : ∀ op, (if left.ty.isNumeric && right.ty.isNumeric then
        binary.numeric line op left right
      else if left.ty.fits right.ty && left.ty != .void && right.ty != .void then
        pure (.binary .boolean op left right)
      else do
        Reported.report line (.incomparable left.ty right.ty)
        return .binary .any op left right : Reported Expr).Like
      (if left.ty.isNumeric && right.ty.isNumeric then
        binary.numeric line' op left right
      else if left.ty.fits right.ty && left.ty != .void && right.ty != .void then
        pure (.binary .boolean op left right)
      else do
        Reported.report line' (.incomparable left.ty right.ty)
        return .binary .any op left right) := by
    intro op
    split
    · exact like_numeric ..
    · split
      · exact .refl _
      · exact (like_report ..).bind fun _ => .refl _
  cases op with
  | logicalAnd | logicalOr =>
      exact (Ty.like_expect ..).bind fun _ => (Ty.like_expect ..).bind fun _ => .refl _
  | equal | notEqual => exact hequal _
  | add | subtract | multiply | divide | modulo | lessThan | lessThanEqual | greaterThan
  | greaterThanEqual => exact like_numeric ..

theorem like_increment (line line' : UInt32) (op : UpdateOp) (used : Bool)
    (place : Option (Place Expr × Ty)) :
    (increment line op used place).Like (increment line' op used place) := by
  cases place with
  | none => exact .refl _
  | some p =>
      rw [increment, increment]
      split
      · exact .refl _
      · exact (Ty.like_expectOneOf ..).bind fun _ => .refl _

mutual

theorem like_expr {ρ : String → String} (hρ : Function.Injective ρ) (f : UInt32 → UInt32)
    (scope : Scope) (used : Bool) (e : Source.Expr) :
    (expr scope used e).Like (expr (scope.rename ρ) used (e.relabel ρ f)) := by
  match e with
  | .literal .. | .new .. => exact .refl _
  | .var line name =>
      rw [Source.Expr.relabel, expr, expr, scope.resolve?_rename hρ]
      cases scope.resolve? name with
      | none => exact (like_report ..).bind fun _ => .refl _
      | some l => exact .refl _
  | .field line target name ty =>
      rw [Source.Expr.relabel, expr, expr, Source.Expr.line_relabel]
      exact (like_expr hρ f scope true target).bind fun o => (like_object ..).bind fun _ => .refl _
  | .assignment line target value =>
      rw [Source.Expr.relabel, expr, expr]
      refine (like_place hρ f scope "assignment" target).bind fun p => ?_
      cases p with
      | none => exact (like_expr hρ f scope true value).bind fun _ => .refl _
      | some p =>
          exact (like_expr hρ f scope true value).bind fun v =>
            (like_coerce ..).bind fun _ => .refl _
  | .binary line op left right =>
      exact (like_expr hρ f scope true left).bind fun a =>
        (like_expr hρ f scope true right).bind fun b => like_binary ..
  | .unary line op argument =>
      exact (like_expr hρ f scope true argument).bind fun a =>
        (Ty.like_expectOneOf ..).bind fun _ => .refl _
  | .update line op argument =>
      rw [Source.Expr.relabel, expr, expr, Source.Expr.isPlace_relabel]
      split
      · exact (like_place hρ f scope op.symbol argument).bind fun p => like_increment ..
      · exact (like_report ..).bind fun _ => .refl _
  | .call line callee arguments returns =>
      exact (like_exprs hρ f scope arguments).bind fun vs => .refl _
termination_by structural e

theorem like_exprs {ρ : String → String} (hρ : Function.Injective ρ) (f : UInt32 → UInt32)
    (scope : Scope) (es : List Source.Expr) :
    (exprs scope es).Like (exprs (scope.rename ρ) (Source.Expr.relabelAll ρ f es)) := by
  match es with
  | [] => exact .refl _
  | e :: rest =>
      exact (like_expr hρ f scope true e).bind fun v =>
        (like_exprs hρ f scope rest).bind fun vs => .refl _
termination_by structural es

theorem like_place {ρ : String → String} (hρ : Function.Injective ρ) (f : UInt32 → UInt32)
    (scope : Scope) (what : String) (e : Source.Expr) :
    (place scope what e).Like (place (scope.rename ρ) what (e.relabel ρ f)) := by
  match e with
  | .var line name =>
      rw [Source.Expr.relabel, place, place, scope.resolve?_rename hρ]
      cases scope.resolve? name with
      | none => exact (like_report ..).bind fun _ => .refl _
      | some l => exact .refl _
  | .field line target name ty =>
      rw [Source.Expr.relabel, place, place, Source.Expr.line_relabel]
      exact (like_expr hρ f scope true target).bind fun o => (like_object ..).bind fun _ => .refl _
  | .literal .. | .assignment .. | .binary .. | .unary .. | .update .. | .call .. | .new .. =>
      exact (like_report ..).bind fun _ => .refl _
termination_by structural e

end

section Relabelled

variable {ρ : String → String} (hρ : Function.Injective ρ) (f : UInt32 → UInt32) (scope : Scope)

include hρ

theorem like_condition (line line' : UInt32) (e : Source.Expr) :
    (condition scope line e).Like (condition (scope.rename ρ) line' (e.relabel ρ f)) :=
  (like_expr hρ f scope true e).bind fun _ => (Ty.like_expect ..).bind fun _ => .refl _

theorem like_caseValue (e : Source.Expr) :
    (caseValue scope e).Like (caseValue (scope.rename ρ) (e.relabel ρ f)) := by
  rw [caseValue, caseValue, Source.Expr.line_relabel]
  refine (like_expr hρ f scope true e).bind fun v => (Ty.like_expect ..).bind fun ok => ?_
  cases ok with
  | false => exact .refl _
  | true =>
      simp only [if_true]
      cases constantInt? v with
      | some w => exact .refl _
      | none =>
          simp only
          split
          · exact (like_report ..).bind fun _ => .refl _
          · exact .refl _

end Relabelled

end Typing

/-! ## Steps of checking -/

/-- Corresponding states of two runs of the checker. -/
structure Progress.Like (ρ : String → String) (s t : Progress) : Prop where
  scope : t.scope = s.scope.rename ρ
  enclosing : t.enclosing = s.enclosing
  count : t.diagnostics.length = s.diagnostics.length

namespace Check

variable {ρ : String → String}

/-- Corresponding ends of steps. -/
def SameEnd (ρ : String → String) : Except Abort (α × Progress) → Except Abort (α × Progress) → Prop
  | .ok (a, s), .ok (b, t) => b = a ∧ s.Like ρ t
  | .error why, .error why' => why' = why
  | _, _ => False

/-- Steps that end in the same way in corresponding states. -/
def Like (ρ : String → String) (x y : Check α) : Prop :=
  ∀ s t, s.Like ρ t → SameEnd ρ (x s) (y t)

theorem like_pure (a : α) : Like ρ (pure a : Check α) (pure a) :=
  fun _ _ h => ⟨rfl, h⟩

theorem SameEnd.bind {x y : Check α} {f g : α → Check β} {s t : Progress}
    (hxy : SameEnd ρ (x s) (y t)) (hfg : ∀ a, Like ρ (f a) (g a)) :
    SameEnd ρ ((x >>= f) s) ((y >>= g) t) := by
  have hx : (x >>= f) s = (x s).bind fun r => f r.1 r.2 := rfl
  have hy : (y >>= g) t = (y t).bind fun r => g r.1 r.2 := rfl
  rw [hx, hy]
  cases hxs : x s with
  | error why =>
      cases hyt : y t with
      | error why' =>
          rw [hxs, hyt] at hxy
          exact hxy
      | ok r =>
          rw [hxs, hyt] at hxy
          exact hxy.elim
  | ok r =>
      obtain ⟨a, s'⟩ := r
      cases hyt : y t with
      | error why' =>
          rw [hxs, hyt] at hxy
          exact hxy.elim
      | ok r' =>
          obtain ⟨b, t'⟩ := r'
          rw [hxs, hyt] at hxy
          obtain ⟨rfl, hlike⟩ := hxy
          exact hfg b s' t' hlike

theorem Like.bind {x y : Check α} {f g : α → Check β} (hxy : Like ρ x y)
    (hfg : ∀ a, Like ρ (f a) (g a)) : Like ρ (x >>= f) (y >>= g) :=
  fun s t h => (hxy s t h).bind hfg

theorem SameEnd.get_bind {f g : Progress → Check α} {s t : Progress}
    (h : SameEnd ρ (f s s) (g t t)) : SameEnd ρ ((get >>= f) s) ((get >>= g) t) :=
  h

theorem SameEnd.set_bind {f g : PUnit → Check α} {s t s' t' : Progress}
    (h : SameEnd ρ (f ⟨⟩ s') (g ⟨⟩ t')) : SameEnd ρ ((set s' >>= f) s) ((set t' >>= g) t) :=
  h

theorem like_orDefect (x : Except Defect α) : Like ρ (orDefect x) (orDefect x) := by
  cases x with
  | ok a => exact like_pure a
  | error d => exact fun _ _ _ => rfl

theorem like_typed {f g : Scope → Reported α} (h : ∀ scope, (f scope).Like (g (scope.rename ρ))) :
    Like ρ (typed f) (typed g) := by
  intro s t hst
  obtain ⟨hvalue, hlength⟩ := h s.scope
  have hs : typed f s = .ok ((f s.scope).value,
      { s with diagnostics := s.diagnostics ++ (f s.scope).diagnostics }) := rfl
  have ht : typed g t = .ok ((g t.scope).value,
      { t with diagnostics := t.diagnostics ++ (g t.scope).diagnostics }) := rfl
  rw [hs, ht, hst.scope]
  refine ⟨hvalue.symm, rfl, hst.enclosing, ?_⟩
  simp only [List.length_append, hst.count, hlength]

theorem like_report (line line' : UInt32) (problem problem' : Problem) :
    Like ρ (report line problem) (report line' problem') :=
  like_typed fun _ => Reported.like_report ..

/-- A complaint under a condition, and then a step. -/
theorem like_reportIf (c : Prop) [Decidable c] (line line' : UInt32) (problem problem' : Problem)
    {x y : Check α} (hxy : Like ρ x y) :
    Like ρ (if c then report line problem >>= fun _ => x else x)
      (if c then report line' problem' >>= fun _ => y else y) := by
  split
  · exact Like.bind (like_report _ _ _ _) fun _ => hxy
  · exact hxy

theorem like_inScope {x y : Check α} (hxy : Like ρ x y) : Like ρ (inScope x) (inScope y) := by
  have henter : Like ρ enterScope enterScope := by
    intro s t h
    refine ⟨rfl, ?_, h.enclosing, h.count⟩
    show t.scope.enter = s.scope.enter.rename ρ
    rw [h.scope, Scope.enter_rename]
  have hleave : Like ρ leaveScope leaveScope := by
    intro s t h
    have hs : ∀ u : Progress, leaveScope u =
        orDefect u.scope.leave.1 { u with scope := u.scope.leave.2 } := fun _ => rfl
    rw [hs, hs, h.scope, Scope.leave_rename]
    exact like_orDefect _ _ _ ⟨rfl, h.enclosing, h.count⟩
  exact henter.bind fun _ => hxy.bind fun a => hleave.bind fun _ => like_pure a

theorem like_reserve : Like ρ reserve reserve := by
  intro s t h
  refine .get_bind ?_
  rw [h.scope, Scope.reserve_rename]
  cases s.scope.reserve with
  | error why => exact rfl
  | ok r => exact ⟨rfl, rfl, h.enclosing, h.count⟩

theorem like_declare (hρ : Function.Injective ρ) (line line' : UInt32) (name : String) (ty : Ty) :
    Like ρ (declare line name ty) (declare line' (ρ name) ty) := by
  intro s t h
  refine .get_bind ?_
  rw [h.scope, Scope.declare, Scope.declare, Scope.declares_rename hρ]
  by_cases hdup : s.scope.declares name
  · rw [if_pos hdup, if_pos hdup]
    exact Like.bind (like_report _ _ _ _) (fun _ => like_reserve) s t h
  · rw [if_neg hdup, if_neg hdup, Scope.reserve_rename, Scope.reserve]
    by_cases hfull : s.scope.limit ≤ s.scope.nextSlot
    · rw [if_pos hfull]
      exact rfl
    · rw [if_neg hfull]
      exact ⟨rfl, rfl, h.enclosing, h.count⟩

/-- Closing a construct. -/
theorem like_close (pop : Enclosing → Except Defect φ × Enclosing) (result : φ → α) :
    Like ρ (do
      let s ← get
      set { s with enclosing := (pop s.enclosing).2 }
      return result (← orDefect (pop s.enclosing).1)) (do
      let s ← get
      set { s with enclosing := (pop s.enclosing).2 }
      return result (← orDefect (pop s.enclosing).1)) := by
  intro s t h
  refine .get_bind (.set_bind ?_)
  rw [h.enclosing]
  exact (like_orDefect _).bind (fun _ => like_pure _) _ _ ⟨h.scope, rfl, h.count⟩

theorem like_loopBody (kind : ConstructKind) {x y : Check α} (hxy : Like ρ x y) :
    Like ρ (loopBody kind x) (loopBody kind y) := by
  intro s t h
  refine .get_bind ?_
  rw [h.enclosing]
  cases s.enclosing.pushLoop kind with
  | error d => exact rfl
  | ok opened =>
      have hlike : Progress.Like ρ { s with enclosing := opened.2 }
          { t with enclosing := opened.2 } := ⟨h.scope, rfl, h.count⟩
      have hclose (a : α) := like_close (ρ := ρ) (Enclosing.popLoop · opened.1) fun frame =>
        ((⟨opened.1, frame.hasBreak, frame.hasContinue⟩, a) : Annotated.Jumps × α)
      exact (hxy _ _ hlike).bind hclose

theorem like_switchBody {x y : Check α} (hxy : Like ρ x y) :
    Like ρ (switchBody x) (switchBody y) := by
  intro s t h
  refine .get_bind ?_
  rw [h.enclosing]
  have hlike : Progress.Like ρ { s with enclosing := s.enclosing.pushSwitch.2 }
      { t with enclosing := s.enclosing.pushSwitch.2 } := ⟨h.scope, rfl, h.count⟩
  have hclose (a : α) := like_close (ρ := ρ) (Enclosing.popSwitch · s.enclosing.pushSwitch.1)
    fun frame => (s.enclosing.pushSwitch.1, frame.hasBreak, a)
  exact (hxy _ _ hlike).bind hclose

end Check

/-! ## Statements -/

namespace Analysis

open Annotated (Stmt)
open Check

variable {ρ : String → String}

theorem like_breakJump (line line' : UInt32) : Like ρ (breakJump line) (breakJump line') := by
  intro s t h
  refine .get_bind ?_
  rw [h.enclosing]
  split
  · exact Like.bind (like_report _ _ _ _) (fun _ => like_pure _) s t h
  · cases s.enclosing.resolveBreak with
    | error d => exact rfl
    | ok r => exact ⟨rfl, h.scope, rfl, h.count⟩

theorem like_continueJump (policy : ContinuePolicy) (line line' : UInt32) :
    Like ρ (continueJump policy line) (continueJump policy line') := by
  intro s t h
  refine .get_bind ?_
  rw [h.enclosing]
  split
  · exact Like.bind (like_report _ _ _ _) (fun _ => like_pure _) s t h
  · cases s.enclosing.resolveContinue with
    | error d => exact rfl
    | ok r =>
        obtain ⟨target, enclosing⟩ := r
        cases target with
        | loop id => exact ⟨rfl, h.scope, rfl, h.count⟩
        | «switch» id =>
            exact like_reportIf (policy = .reject) line line' .continueInSwitch .continueInSwitch
              (like_pure Stmt.empty) s t h

section Relabelled

variable (hρ : Function.Injective ρ) (f : UInt32 → UInt32)

include hρ

theorem like_localDecl (line line' : UInt32) (name : String) (ty : Ty)
    (init : Option Source.Expr) :
    Like ρ (localDecl line name ty init)
      (localDecl line' (ρ name) ty (init.map (Source.Expr.relabel ρ f))) := by
  have hnone : Like ρ (declare line name ty >>= fun _ => pure Stmt.empty)
      (declare line' (ρ name) ty >>= fun _ => pure Stmt.empty) :=
    (like_declare hρ line line' name ty).bind fun _ => like_pure _
  have hsome (e : Source.Expr) : Like ρ (do
      let value ← typed fun scope => do
        Typing.coerce (← Typing.expr scope true e) ty e.line
      let slot ← declare line name ty
      return Stmt.localInit slot value) (do
      let value ← typed fun scope => do
        Typing.coerce (← Typing.expr scope true (e.relabel ρ f)) ty (e.relabel ρ f).line
      let slot ← declare line' (ρ name) ty
      return Stmt.localInit slot value) :=
    (like_typed fun scope => (Typing.like_expr hρ f scope true e).bind fun _ =>
      Typing.like_coerce ..).bind fun _ =>
        (like_declare hρ line line' name ty).bind fun _ => like_pure _
  cases init with
  | none => exact like_reportIf _ _ _ _ _ hnone
  | some e => exact like_reportIf _ _ _ _ _ (hsome e)

theorem like_addLabel (scope : Scope) (line line' : UInt32) (labels : Labels) (group : Nat)
    (l : Source.CaseLabel) :
    (addLabel scope line labels group l).Like
      (addLabel (scope.rename ρ) line' labels group (l.relabel ρ f)) := by
  cases l with
  | case e =>
      refine (Typing.like_caseValue hρ f scope e).bind fun value => ?_
      cases value with
      | none => exact .refl _
      | some v =>
          simp only
          split
          · exact (Reported.like_report ..).bind fun _ => .refl _
          · exact .refl _
  | default =>
      rw [Source.CaseLabel.relabel, addLabel, addLabel]
      split
      · exact (Reported.like_report ..).bind fun _ => .refl _
      · exact .refl _

theorem like_groupLabels (scope : Scope) (line line' : UInt32) (group : Nat)
    (ls : List Source.CaseLabel) (labels : Labels) :
    (ls.foldlM (fun labels l => addLabel scope line labels group l) labels).Like
      ((ls.map (Source.CaseLabel.relabel ρ f)).foldlM
        (fun labels l => addLabel (scope.rename ρ) line' labels group l) labels) := by
  induction ls generalizing labels with
  | nil => exact .refl _
  | cons l rest ih =>
      rw [List.map_cons, List.foldlM_cons, List.foldlM_cons]
      exact (like_addLabel hρ f scope line line' labels group l).bind ih

theorem like_switchLabels (scope : Scope) (line line' : UInt32)
    (groups : List (Source.Group Source.Stmt)) (labels : Labels) (index : Nat) :
    (switchLabels scope line labels index groups).Like
      (switchLabels (scope.rename ρ) line' labels index
        (Source.Stmt.relabelGroups ρ f groups)) := by
  induction groups generalizing labels index with
  | nil => exact .refl _
  | cons group rest ih =>
      exact (like_groupLabels hρ f scope line line' index group.labels labels).bind fun labels =>
        ih labels (index + 1)

end Relabelled

mutual

theorem like_stmt {ρ : String → String} (hρ : Function.Injective ρ) (f : UInt32 → UInt32)
    (policy : ContinuePolicy) (s : Source.Stmt) :
    Like ρ (stmt policy s) (stmt policy (s.relabel ρ f)) := by
  match s with
  | .block ⟨_, body⟩ =>
      exact (like_inScope (like_stmts hρ f policy body)).bind fun _ => like_pure _
  | .localDecl line name ty init => exact like_localDecl hρ f line (f line) name ty init
  | .expression _ e =>
      exact (like_typed fun scope => Typing.like_expr hρ f scope false e).bind fun _ => like_pure _
  | .ifElse line condition s none =>
      exact (like_typed fun scope => Typing.like_condition hρ f scope line (f line) condition).bind
        fun _ => (like_stmt hρ f policy s).bind fun _ => like_pure _
  | .ifElse line condition s (some t) =>
      exact (like_typed fun scope => Typing.like_condition hρ f scope line (f line) condition).bind
        fun _ => (like_stmt hρ f policy s).bind fun _ =>
          (like_stmt hρ f policy t).bind fun _ => like_pure _
  | .whileLoop line condition body =>
      exact (like_typed fun scope => Typing.like_condition hρ f scope line (f line) condition).bind
        fun _ => (like_loopBody .whileLoop (like_stmt hρ f policy body)).bind fun _ => like_pure _
  | .doLoop line body condition =>
      exact (like_loopBody .doLoop (like_stmt hρ f policy body)).bind fun _ =>
        (like_typed fun scope => Typing.like_condition hρ f scope line (f line) condition).bind
          fun _ => like_pure _
  | .forLoop line init none update body =>
      exact like_inScope <| (like_stmts hρ f policy init).bind fun _ => (like_pure _).bind fun _ =>
        (like_stmts hρ f policy update).bind fun _ =>
          (like_loopBody .forLoop (like_stmt hρ f policy body)).bind fun _ => like_pure _
  | .forLoop line init (some c) update body =>
      exact like_inScope <| (like_stmts hρ f policy init).bind fun _ =>
        (Like.bind (like_typed fun scope => Typing.like_condition hρ f scope line (f line) c)
          fun _ => like_pure _).bind fun _ => (like_stmts hρ f policy update).bind fun _ =>
            (like_loopBody .forLoop (like_stmt hρ f policy body)).bind fun _ => like_pure _
  | .switch line selector groups =>
      refine (like_typed fun scope => (Typing.like_expr hρ f scope true selector).bind fun _ =>
        (Ty.like_expect ..).bind fun _ => .refl _).bind fun _ => ?_
      refine (like_typed fun scope =>
        like_switchLabels hρ f scope line (f line) groups {} 0).bind fun _ => ?_
      exact (like_switchBody (like_groupBodies hρ f policy groups)).bind fun _ =>
        (like_orDefect _).bind fun _ => like_pure _
  | .breakJump line => exact like_breakJump line (f line)
  | .continueJump line => exact like_continueJump policy line (f line)
  | .tryCatch line ⟨_, body⟩ catches none =>
      rw [Source.Stmt.relabel, stmt, stmt, Source.Stmt.isEmpty_relabelClauses]
      exact like_reportIf _ _ _ _ _ <| (like_inScope (like_stmts hρ f policy body)).bind fun _ =>
        (like_catchClauses hρ f policy catches).bind fun _ => like_pure _
  | .tryCatch line ⟨_, body⟩ catches (some ⟨_, last⟩) =>
      rw [Source.Stmt.relabel, stmt, stmt, Source.Stmt.isEmpty_relabelClauses]
      have hlast : Like ρ (inScope do
          let slot ← reserve
          return (⟨slot, ← stmts policy last⟩ : Annotated.Finally Stmt)) (inScope do
          let slot ← reserve
          return ⟨slot, ← stmts policy (Source.Stmt.relabelAll ρ f last)⟩) :=
        like_inScope <| like_reserve.bind fun _ => (like_stmts hρ f policy last).bind fun _ =>
          like_pure _
      exact like_reportIf _ _ _ _ _ <| (like_inScope (like_stmts hρ f policy body)).bind fun _ =>
        (like_catchClauses hρ f policy catches).bind fun _ => hlast.bind fun _ => like_pure _
  | .throw line argument =>
      exact (like_typed fun scope => (Typing.like_expr hρ f scope true argument).bind fun _ =>
        Typing.like_object ..).bind fun _ => like_pure _
  | .empty => exact like_pure _
termination_by structural s

theorem like_stmts {ρ : String → String} (hρ : Function.Injective ρ) (f : UInt32 → UInt32)
    (policy : ContinuePolicy) (body : List Source.Stmt) :
    Like ρ (stmts policy body) (stmts policy (Source.Stmt.relabelAll ρ f body)) := by
  match body with
  | [] => exact like_pure _
  | s :: rest =>
      exact (like_stmt hρ f policy s).bind fun _ => (like_stmts hρ f policy rest).bind fun _ =>
        like_pure _
termination_by structural body

theorem like_groupBodies {ρ : String → String} (hρ : Function.Injective ρ) (f : UInt32 → UInt32)
    (policy : ContinuePolicy) (groups : List (Source.Group Source.Stmt)) :
    Like ρ (groupBodies policy groups)
      (groupBodies policy (Source.Stmt.relabelGroups ρ f groups)) := by
  match groups with
  | [] => exact like_pure _
  | ⟨_, body⟩ :: rest =>
      exact (like_inScope (like_stmts hρ f policy body)).bind fun _ =>
        (like_groupBodies hρ f policy rest).bind fun _ => like_pure _
termination_by structural groups

theorem like_catchClauses {ρ : String → String} (hρ : Function.Injective ρ) (f : UInt32 → UInt32)
    (policy : ContinuePolicy) (clauses : List (Source.CatchClause Source.Stmt)) :
    Like ρ (catchClauses policy clauses)
      (catchClauses policy (Source.Stmt.relabelClauses ρ f clauses)) := by
  match clauses with
  | [] => exact like_pure _
  | ⟨line, exceptionType, param, ⟨_, body⟩⟩ :: rest =>
      exact (like_inScope ((like_declare hρ line (f line) param (.reference exceptionType)).bind
        fun _ => (like_stmts hρ f policy body).bind fun _ => like_pure _)).bind fun _ =>
          (like_catchClauses hρ f policy rest).bind fun _ => like_pure _
termination_by structural clauses

end

end Analysis

/-! ## Whole bodies -/

/-- A result and how much there is to complain about it. -/
def Reported.outline (r : Reported α) : α × Nat :=
  (r.value, r.diagnostics.length)

/-- An error, with only the number of complaints. -/
def CompileError.outline : CompileError → CompileError ⊕ Nat
  | complaints ds => .inr ds.length
  | why => .inl why

theorem CompileError.eq_of_outline {why why' : CompileError} (h : why'.outline = .inl why) :
    why' = why := by
  cases why' with
  | complaints ds => cases h
  | slotsExhausted | labelsExhausted | unplacedLabel | defect => exact Sum.inl.inj h

theorem CompileError.outline_of_ne {why : CompileError} (h : ∀ ds, why ≠ .complaints ds) :
    why.outline = .inl why := by
  cases why with
  | complaints ds => exact absurd rfl (h ds)
  | slotsExhausted | labelsExhausted | unplacedLabel | defect => rfl

section Relabelled

variable {ρ : String → String} (hρ : Function.Injective ρ) (f : UInt32 → UInt32)
  (settings : Settings) (p : Source.Program)

include hρ

theorem outline_program_relabel :
    (Analysis.program settings ⟨Source.Stmt.relabelAll ρ f p.body⟩).map Reported.outline =
      (Analysis.program settings p).map Reported.outline := by
  let start : Progress := { scope := { limit := settings.maxLocals } }
  have hprogram : ∀ q : Source.Program, Analysis.program settings q =
      (Analysis.stmts settings.continueInSwitch q.body start).bind fun r =>
        if r.2.enclosing.frames.isEmpty then
          .ok ⟨⟨r.1, r.2.scope.maxSlots⟩, r.2.diagnostics⟩
        else .error (.defect .constructLeftOpen) := fun _ => rfl
  have hstart : start.Like ρ start := ⟨rfl, rfl, rfl⟩
  have hend := Analysis.like_stmts hρ f settings.continueInSwitch p.body start start hstart
  rw [hprogram, hprogram]
  cases hp : Analysis.stmts settings.continueInSwitch p.body start with
  | error why =>
      cases hq : Analysis.stmts settings.continueInSwitch
          (Source.Stmt.relabelAll ρ f p.body) start with
      | error why' =>
          rw [hp, hq] at hend
          exact congrArg Except.error hend
      | ok r =>
          rw [hp, hq] at hend
          exact hend.elim
  | ok r =>
      cases hq : Analysis.stmts settings.continueInSwitch
          (Source.Stmt.relabelAll ρ f p.body) start with
      | error why' =>
          rw [hp, hq] at hend
          exact hend.elim
      | ok r' =>
          rw [hp, hq] at hend
          obtain ⟨hbody, hscope, henclosing, hcount⟩ := hend
          simp only [Except.bind, henclosing]
          split
          · simp only [Except.map, Reported.outline, hbody, hscope, hcount, Scope.rename]
          · rfl

theorem outline_check_relabel :
    (check settings ⟨Source.Stmt.relabelAll ρ f p.body⟩).mapError CompileError.outline =
      (check settings p).mapError CompileError.outline := by
  have hprogram := outline_program_relabel hρ f settings p
  rw [check, check]
  cases hp : Analysis.program settings p with
  | error why =>
      cases hq : Analysis.program settings ⟨Source.Stmt.relabelAll ρ f p.body⟩ with
      | error why' =>
          rw [hp, hq] at hprogram
          injection hprogram with hwhy
          rw [hwhy]
      | ok r =>
          rw [hp, hq] at hprogram
          cases hprogram
  | ok r =>
      cases hq : Analysis.program settings ⟨Source.Stmt.relabelAll ρ f p.body⟩ with
      | error why =>
          rw [hp, hq] at hprogram
          cases hprogram
      | ok r' =>
          rw [hp, hq] at hprogram
          injection hprogram with hprogram
          obtain ⟨hvalue, hlength⟩ := Prod.mk.inj hprogram
          have hempty : r'.diagnostics.isEmpty = r.diagnostics.isEmpty := by
            rw [Bool.eq_iff_iff, List.isEmpty_iff_length_eq_zero, hlength,
              List.isEmpty_iff_length_eq_zero]
          simp only [hempty]
          split
          · rw [hvalue]
          · simp only [Except.mapError, CompileError.outline, hlength]

theorem outline_compile_relabel :
    (compile settings ⟨Source.Stmt.relabelAll ρ f p.body⟩).mapError CompileError.outline =
      (compile settings p).mapError CompileError.outline := by
  have hcompile : ∀ q : Source.Program, (compile settings q).mapError CompileError.outline =
      ((check settings q).mapError CompileError.outline).bind fun tree =>
        (generate settings.maxLabels tree).mapError CompileError.outline := by
    intro q
    rw [compile]
    cases check settings q <;> rfl
  rw [hcompile, hcompile, outline_check_relabel hρ]

end Relabelled

/-- Other names and other lines change nothing but what complaints say. -/
theorem compile_renamed {p q : Source.Program} {ρ : String → String} (hρ : Function.Injective ρ)
    (hq : q.withoutLines = (p.rename ρ).withoutLines) (settings : Settings) :
    (∀ code, compile settings p = .ok code → compile settings q = .ok code) ∧
      (∀ ds, compile settings p = .error (.complaints ds) →
        ∃ ds', compile settings q = .error (.complaints ds') ∧ ds'.length = ds.length) ∧
      ∀ why, (∀ ds, why ≠ .complaints ds) → compile settings p = .error why →
        compile settings q = .error why := by
  have hlines (r : Source.Program) :=
    outline_compile_relabel Function.injective_id (fun _ => 0) settings r
  have hsame : (compile settings q).mapError CompileError.outline =
      (compile settings p).mapError CompileError.outline :=
    calc (compile settings q).mapError CompileError.outline
      _ = (compile settings q.withoutLines).mapError CompileError.outline := (hlines q).symm
      _ = (compile settings (p.rename ρ).withoutLines).mapError CompileError.outline := by rw [hq]
      _ = (compile settings (p.rename ρ)).mapError CompileError.outline := hlines _
      _ = (compile settings p).mapError CompileError.outline :=
        outline_compile_relabel hρ id settings p
  refine ⟨?_, ?_, ?_⟩
  · intro code hp
    rw [hp] at hsame
    cases hcompile : compile settings q with
    | error why =>
        rw [hcompile] at hsame
        cases hsame
    | ok code' =>
        rw [hcompile] at hsame
        exact congrArg Except.ok (Except.ok.inj hsame)
  · intro ds hp
    rw [hp] at hsame
    cases hcompile : compile settings q with
    | ok code =>
        rw [hcompile] at hsame
        cases hsame
    | error why =>
        rw [hcompile] at hsame
        cases why with
        | complaints ds' => exact ⟨ds', rfl, Sum.inr.inj (Except.error.inj hsame)⟩
        | slotsExhausted | labelsExhausted | unplacedLabel | defect => cases hsame
  · intro why hwhy hp
    rw [hp] at hsame
    cases hcompile : compile settings q with
    | ok code =>
        rw [hcompile] at hsame
        cases hsame
    | error why' =>
        rw [hcompile] at hsame
        have houtline : why'.outline = why.outline := Except.error.inj hsame
        rw [CompileError.outline_of_ne hwhy] at houtline
        rw [CompileError.eq_of_outline houtline]

/-- A local hidden by another one of another type, and a caught object with the name of a local
whose scope is closed. -/
def hidden (x y : String) (line : UInt32) : Source.Program :=
  ⟨[.localDecl line x .int (some (.literal line (.int 1))),
    .block ⟨line, [.localDecl line y .int (some (.var line x)),
      .block ⟨line, [.localDecl line x .double (some (.var line y)),
        .expression line (.call line "f" [.var line x, .var line y] .void)]⟩]⟩,
    .tryCatch line ⟨line, [.expression line (.call line "g" [.var line x] .void)]⟩
      [⟨line, "E", y, ⟨line, [.throw line (.var line y)]⟩⟩] none]⟩

theorem compile_renamed_hidden :
    Function.Injective (Equiv.swap "x" "y") ∧
      (hidden "y" "x" 7).withoutLines =
        ((hidden "x" "y" 1).rename (Equiv.swap "x" "y")).withoutLines ∧
      ∃ code, compile {} (hidden "x" "y" 1) = .ok code ∧
        compile {} (hidden "y" "x" 7) = .ok code := by
  have hinjective := (Equiv.swap "x" "y").injective
  have hlines : (hidden "y" "x" 7).withoutLines =
      ((hidden "x" "y" 1).rename (Equiv.swap "x" "y")).withoutLines := rfl
  have hcode : (compile {} (hidden "x" "y" 1)).toOption.isSome := by decide +kernel
  refine ⟨hinjective, hlines, ?_⟩
  cases h : compile {} (hidden "x" "y" 1) with
  | error why =>
      rw [h] at hcode
      cases hcode
  | ok code => exact ⟨code, rfl, (compile_renamed hinjective hlines {}).1 code h⟩

end MethodCompiler
