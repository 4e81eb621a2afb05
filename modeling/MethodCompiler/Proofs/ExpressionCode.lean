import MethodCompiler.Proofs.Subtrees
import MethodCompiler.Proofs.Yields

/-!
# What the code of expressions is made of

The code of an expression is directives one after another, none of which belongs to a
statement or a try. They create and place labels, emit instructions that have nothing to
do with slots, and emit the loads, stores and steps of the slots that the expression and
its parts name. Whatever holds of all of these holds of every directive of the code.
-/

namespace MethodCompiler

/-- An instruction with the operand that its opcode wants, and with slots among the first
`slots`. -/
def Instruction.Shaped (slots : Nat) (i : Instruction) : Prop :=
  match i.opcode with
  | .push => ∃ operand, i.operand = some operand ∧
      ((∃ v, operand = .int v) ∨ (∃ v, operand = .long v) ∨ ∃ v, operand = .double v)
  | .load | .store => ∃ slot < slots, i.operand = some (.slot slot)
  | .inc => ∃ slot < slots, ∃ delta, i.operand = some (.increment slot delta)
  | .goto | .ifEq | .ifNe | .ifCmpEq | .ifCmpNe | .ifCmpLt | .ifCmpGe | .ifCmpGt | .ifCmpLe =>
    ∃ l, i.operand = some (.label l)
  | .tableSwitch => ∃ t : TableSwitch, i.operand = some (.table t) ∧
      (t.targets.size : Int) = t.high.toInt - t.low.toInt + 1
  | .lookupSwitch => ∃ t : LookupSwitch, i.operand = some (.lookup t) ∧
      (t.pairs.toList.map (·.1)).Pairwise (· < ·)
  | .getField | .putField | .new => ∃ name, i.operand = some (.name name)
  | .invoke => ∃ name argc returns, i.operand = some (.call name argc returns)
  | _ => i.operand = none

/-- What is among no slots is among any. -/
theorem Instruction.Shaped.mono {i : Instruction} (h : i.Shaped 0) (slots : Nat) :
    i.Shaped slots := by
  obtain ⟨opcode, operand⟩ := i
  cases opcode
  case load | store | inc =>
    obtain ⟨_, hslot, _⟩ := h
    exact absurd hslot (Nat.not_lt_zero _)
  all_goals exact h

namespace Annotated

/-- The instructions for the slot that an expression names, its parts apart. -/
def Expr.slotCode : Expr → List Instruction
  | .slot _ i => [⟨.load, some (.slot i)⟩]
  | .assign _ (.slot i) _ _ => [⟨.store, some (.slot i)⟩]
  | .increment _ op (.slot i) _ => [⟨.load, some (.slot i)⟩, ⟨.inc, some (.increment i op.delta)⟩]
  | _ => []

end Annotated

namespace Lowering

open Annotated (Expr)

/-- Holds of the directives that name no slot, as far as the code of expressions has any. -/
structure Basic (P : Directive → Prop) : Prop where
  create : ∀ l, P (.create l)
  place : ∀ l, P (.place l)
  emit : ∀ i : Instruction, i.Shaped 0 → P (.emit i)

/-- Directives one after another, all of which are as said. -/
def Given (P : Directive → Prop) (ps : List Piece) : Prop :=
  ∀ p ∈ ps, ∃ d, p = .give d ∧ P d

section Given

variable {P : Directive → Prop} {ps qs : List Piece}

theorem given_nil : Given P [] := by
  simp [Given]

theorem Given.append (hp : Given P ps) (hq : Given P qs) : Given P (ps ++ qs) :=
  List.forall_mem_append.mpr ⟨hp, hq⟩

theorem given_give {d : Directive} (h : P d) : Given P [.give d] :=
  List.forall_mem_singleton.mpr ⟨d, rfl, h⟩

end Given

namespace Gen

/-- The step gives directives, all of which are as said. -/
def Gives (P : Directive → Prop) (x : Gen α) : Prop :=
  ∀ ⦃n a ps n'⦄, x.Yields n a ps n' → Given P ps

variable {P : Directive → Prop}

theorem gives_pure {a : α} : (pure a : Gen α).Gives P := by
  intro n b ps n' h
  obtain ⟨-, rfl, -⟩ := yields_pure.mp h
  exact given_nil

theorem gives_fail {d : Defect} : (fail d : Gen α).Gives P :=
  fun _ _ _ _ h => (yields_fail.mp h).elim

theorem gives_bind {x : Gen α} {f : α → Gen β} (hx : x.Gives P) (hf : ∀ a, (f a).Gives P) :
    (x >>= f).Gives P := by
  intro n b ps n' h
  obtain ⟨a, p, m, q, hp, rfl, hq⟩ := yields_bind.mp h
  exact (hx hp).append (hf a hq)

theorem gives_give {d : Directive} (h : P d) : (give d).Gives P := by
  intro n u ps n' hy
  obtain ⟨rfl, -⟩ := yields_give.mp hy
  exact given_give h

theorem gives_emitIf {wanted : Bool} {i : Instruction} (h : P (.emit i)) :
    (emitIf wanted i).Gives P := by
  cases wanted
  · exact gives_pure
  · exact gives_give h

theorem gives_fresh (hP : Basic P) : fresh.Gives P := by
  intro n l ps n' h
  obtain ⟨-, rfl, -⟩ := yields_fresh.mp h
  exact given_give (hP.create n)

theorem gives_place (hP : Basic P) {l : Label} : (place l).Gives P :=
  gives_give (hP.place l)

theorem gives_goto (hP : Basic P) {l : Label} : (jump .goto l).Gives P :=
  gives_give (hP.emit _ ⟨l, rfl⟩)

theorem gives_pushInt (hP : Basic P) {v : Int32} : (emitWith .push (.int v)).Gives P :=
  gives_give (hP.emit _ ⟨_, rfl, .inl ⟨v, rfl⟩⟩)

end Gen

open Gen

/-- Both codes of an expression give directives as said. -/
def ExprCode.Gives (P : Directive → Prop) (c : ExprCode) : Prop :=
  c.value.Gives P ∧ ∀ target onTrue, (c.branch target onTrue).Gives P

/-! ## The forms of expressions -/

section Codes

variable {P : Directive → Prop} (hP : Basic P)
include hP

theorem gives_ofValue {value : Gen Unit} (h : value.Gives P) :
    (ExprCode.ofValue value).Gives P := by
  refine ⟨h, fun target onTrue => gives_bind h fun _ => gives_give (hP.emit _ ?_)⟩
  cases onTrue <;> exact ⟨target, rfl⟩

theorem gives_ofBranch {branch : Label → Bool → Gen Unit}
    (h : ∀ target onTrue, (branch target onTrue).Gives P) :
    (ExprCode.ofBranch branch).Gives P := by
  refine ⟨?_, h⟩
  exact gives_bind (gives_fresh hP) fun onFalse => gives_bind (gives_fresh hP) fun _ =>
    gives_bind (h onFalse false) fun _ => gives_bind (gives_pushInt hP) fun _ =>
    gives_bind (gives_goto hP) fun _ => gives_bind (gives_place hP) fun _ =>
    gives_bind (gives_pushInt hP) fun _ => gives_place hP

theorem gives_shortCircuit {decisive : Bool} {left right : ExprCode} (hl : left.Gives P)
    (hr : right.Gives P) (target : Label) (onTrue : Bool) :
    (shortCircuit decisive left right target onTrue).Gives P := by
  rw [shortCircuit]
  split
  · exact gives_bind (hl.2 _ _) fun _ => hr.2 _ _
  · exact gives_bind (gives_fresh hP) fun _ => gives_bind (hl.2 _ _) fun _ =>
      gives_bind (hr.2 _ _) fun _ => gives_place hP

omit hP in
/-- Comparisons and their opposites jump to labels. -/
theorem shaped_comparison {op : BinaryOp} {opcode : Opcode} (h : comparison? op = some opcode)
    (l : Label) : Instruction.Shaped 0 ⟨opcode, some (.label l)⟩ ∧
      ∀ opposite, opcode.negate? = some opposite →
        Instruction.Shaped 0 ⟨opposite, some (.label l)⟩ := by
  revert h
  cases op <;> simp only [comparison?, Option.some.injEq, reduceCtorEq, false_imp_iff] <;> rintro rfl
  all_goals
    refine ⟨⟨l, rfl⟩, ?_⟩
    rintro opposite hop
    obtain rfl := Option.some.inj hop
    exact ⟨l, rfl⟩

theorem gives_compareBranch {op : BinaryOp} {ty : Ty} {left right : Gen Unit}
    (hl : left.Gives P) (hr : right.Gives P) (target : Label) (onTrue : Bool) :
    (compareBranch op ty left right target onTrue).Gives P := by
  refine gives_bind hl fun _ => gives_bind hr fun _ => ?_
  cases hop : comparison? op with
  | none => exact gives_fail
  | some opcode =>
      simp only
      split
      · exact gives_give (hP.emit _ (shaped_comparison hop target).1)
      · split
        · exact gives_bind (gives_fresh hP) fun skip =>
            gives_bind (gives_give (hP.emit _ (shaped_comparison hop skip).1)) fun _ =>
            gives_bind (gives_goto hP) fun _ => gives_place hP
        · cases hneg : opcode.negate? with
          | none => exact gives_fail
          | some opposite =>
              exact gives_give (hP.emit _ ((shaped_comparison hop target).2 opposite hneg))

theorem gives_pushLong (v : Int64) : (pushLong v).Gives P := by
  rw [pushLong]
  split
  · exact gives_give (hP.emit _ rfl)
  · split
    · exact gives_give (hP.emit _ rfl)
    · exact gives_give (hP.emit _ ⟨_, rfl, .inr (.inl ⟨v, rfl⟩)⟩)

theorem gives_pushDouble (v : Float) : (pushDouble v).Gives P := by
  rw [pushDouble]
  split
  · exact gives_give (hP.emit _ rfl)
  · split
    · exact gives_give (hP.emit _ rfl)
    · exact gives_give (hP.emit _ ⟨_, rfl, .inr (.inr ⟨v, rfl⟩)⟩)

theorem gives_pushOne (ty : Ty) : (pushOne ty).Gives P := by
  rw [pushOne.eq_def]
  split
  · exact gives_give (hP.emit _ rfl)
  · exact gives_give (hP.emit _ rfl)
  · exact gives_pushInt hP

theorem gives_widening (source target : Ty) :
    (match widening? source target with
      | some opcode => emit opcode
      | none => fail (.noWidening source target)).Gives P := by
  split
  · next opcode hop =>
      refine gives_give (hP.emit _ ?_)
      revert hop
      cases source <;> cases target <;>
        simp only [widening?, Option.some.injEq, reduceCtorEq, false_imp_iff] <;> rintro rfl <;> rfl
  · exact gives_fail

theorem gives_applyUnary (op : UnaryOp) (ty : Ty) : (applyUnary op ty).Gives P := by
  cases op
  · exact gives_give (hP.emit _ rfl)
  · exact gives_pure
  · exact gives_pure
  · refine gives_bind (gives_give (hP.emit _ ?_)) fun _ => gives_give (hP.emit _ rfl)
    split
    · exact ⟨_, rfl, .inr (.inl ⟨-1, rfl⟩)⟩
    · exact ⟨_, rfl, .inl ⟨-1, rfl⟩⟩

theorem gives_incrementField {op : UpdateOp} {ty : Ty} {target : Gen Unit} (h : target.Gives P)
    (name : String) (used : Bool) : (incrementField op ty target name used).Gives P := by
  refine gives_bind h fun _ => gives_bind (gives_give (hP.emit _ rfl)) fun _ =>
    gives_bind (gives_give (hP.emit _ ⟨name, rfl⟩)) fun _ =>
    gives_bind (gives_emitIf (hP.emit _ rfl)) fun _ => gives_bind (gives_pushOne hP ty) fun _ =>
    gives_bind (gives_give (hP.emit _ ?_)) fun _ =>
    gives_bind (gives_emitIf (hP.emit _ rfl)) fun _ => gives_give (hP.emit _ ⟨name, rfl⟩)
  split <;> rfl

theorem gives_arithmetic {op : BinaryOp} {opcode : Opcode} (h : arithmetic? op = some opcode) :
    (emit opcode).Gives P := by
  refine gives_give (hP.emit _ ?_)
  revert h
  cases op <;> simp only [arithmetic?, Option.some.injEq, reduceCtorEq, false_imp_iff] <;>
    rintro rfl <;> rfl

end Codes

/-! ## Every expression -/

mutual

/-- What holds of the directives that name no slot, and of the instructions for the slots
that the expression and its parts name, holds of all its code. -/
theorem gives_exprCode {P : Directive → Prop} (hP : Basic P) (e : Expr)
    (h : ∀ part ∈ e.parts, ∀ i ∈ part.slotCode, P (.emit i)) : (exprCode e).Gives P := by
  match e with
  | .int _ v => exact gives_ofValue hP (gives_pushInt hP)
  | .long _ v => exact gives_ofValue hP (gives_pushLong hP v)
  | .double _ v => exact gives_ofValue hP (gives_pushDouble hP v)
  | .bool _ v =>
      refine ⟨gives_pushInt hP, fun target onTrue => ?_⟩
      simp only [exprCode]
      split
      · exact gives_goto hP
      · exact gives_pure
  | .null _ => exact gives_ofValue hP (gives_give (hP.emit _ rfl))
  | .slot _ slot =>
      obtain ⟨hself, -⟩ := Expr.forall_parts h rfl
      exact gives_ofValue hP (gives_give (hself _ List.mem_cons_self))
  | .field _ target name =>
      obtain ⟨-, hrest⟩ := Expr.forall_parts h rfl
      exact gives_ofValue hP (gives_bind (gives_exprCode hP target hrest).1 fun _ =>
        gives_give (hP.emit _ ⟨name, rfl⟩))
  | .widen ty inner =>
      obtain ⟨-, hrest⟩ := Expr.forall_parts h rfl
      exact gives_ofValue hP (gives_bind (gives_exprCode hP inner hrest).1 fun _ =>
        gives_widening hP _ _)
  | .assign _ (.slot slot) value used =>
      obtain ⟨hself, hrest⟩ := Expr.forall_parts h rfl
      exact gives_ofValue hP (gives_bind (gives_exprCode hP value hrest).1 fun _ =>
        gives_bind (gives_emitIf (hP.emit _ rfl)) fun _ =>
        gives_give (hself _ List.mem_cons_self))
  | .assign _ (.field target name) value used =>
      obtain ⟨-, hrest⟩ := Expr.forall_parts h rfl
      obtain ⟨htarget, hvalue⟩ := List.forall_mem_append.mp hrest
      exact gives_ofValue hP (gives_bind (gives_exprCode hP target htarget).1 fun _ =>
        gives_bind (gives_exprCode hP value hvalue).1 fun _ =>
        gives_bind (gives_emitIf (hP.emit _ rfl)) fun _ => gives_give (hP.emit _ ⟨name, rfl⟩))
  | .binary _ op left right =>
      obtain ⟨-, hrest⟩ := Expr.forall_parts h rfl
      obtain ⟨hleft, hright⟩ := List.forall_mem_append.mp hrest
      have hl := gives_exprCode hP left hleft
      have hr := gives_exprCode hP right hright
      rw [exprCode.eq_def]
      simp only
      split
      · exact gives_ofBranch hP (gives_shortCircuit hP hl hr)
      · exact gives_ofBranch hP (gives_shortCircuit hP hl hr)
      · split
        · next opcode hop =>
            exact gives_ofValue hP (gives_bind hl.1 fun _ => gives_bind hr.1 fun _ =>
              gives_arithmetic hP hop)
        · exact gives_ofBranch hP (gives_compareBranch hP hl.1 hr.1)
  | .unary _ op operand =>
      obtain ⟨-, hrest⟩ := Expr.forall_parts h rfl
      have ho := gives_exprCode hP operand hrest
      rw [exprCode.eq_def]
      simp only
      split
      · exact gives_ofBranch hP fun target onTrue => ho.2 target (!onTrue)
      · exact gives_ofValue hP (gives_bind ho.1 fun _ => gives_applyUnary hP _ _)
  | .increment _ op (.slot slot) used =>
      obtain ⟨hself, -⟩ := Expr.forall_parts h rfl
      obtain ⟨hload, hinc⟩ := List.forall_mem_cons.mp hself
      exact gives_ofValue hP (gives_bind (gives_emitIf hload) fun _ =>
        gives_bind (gives_give (hinc _ List.mem_cons_self)) fun _ => gives_emitIf hload)
  | .increment ty op (.field target name) used =>
      obtain ⟨-, hrest⟩ := Expr.forall_parts h rfl
      exact gives_ofValue hP (gives_incrementField hP (gives_exprCode hP target hrest).1 _ _)
  | .call ty name args =>
      obtain ⟨-, hrest⟩ := Expr.forall_parts h rfl
      exact gives_ofValue hP (gives_bind (gives_argsCode hP args hrest) fun _ =>
        gives_give (hP.emit _ ⟨name, _, _, rfl⟩))
  | .new _ className => exact gives_ofValue hP (gives_give (hP.emit _ ⟨className, rfl⟩))
  | .error _ => exact gives_ofValue hP gives_fail
termination_by structural e

theorem gives_argsCode {P : Directive → Prop} (hP : Basic P) (es : List Expr)
    (h : ∀ part ∈ Expr.allParts es, ∀ i ∈ part.slotCode, P (.emit i)) :
    (argsCode es).Gives P := by
  match es with
  | [] => exact gives_pure
  | e :: rest =>
      obtain ⟨he, hrest⟩ := List.forall_mem_append.mp h
      exact gives_bind (gives_exprCode hP e he).1 fun _ => gives_argsCode hP rest hrest
termination_by structural es

end

end Lowering

end MethodCompiler
