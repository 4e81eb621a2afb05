import MethodCompiler.Proofs.ExpressionMeaning

/-!
# The code of an expression does the same everywhere

The code of an expression has labels of its own, so it is never quite the same in two places.
What it does to the machine is the same, and not only for code that leaves one value where
there was none. If an argument of a call is void, the call takes a value that somebody else put
on the stack, or finds none. So here nothing is asked of the stack or of the types: the code of
every expression has one effect on the whole machine, stack included, and a run through the
code has this effect wherever the code stands.

The effect is made from those of single instructions. Most of them neither jump nor halt, and
what such an instruction does to the machine does not depend on the code around it.
-/

namespace MethodCompiler

variable {σ : Type}

/-! ## Instructions that go straight on -/

/-- The instruction neither jumps nor halts. -/
def Opcode.straight : Opcode → Bool
  | .goto | .ifEq | .ifNe | .ifCmpEq | .ifCmpNe | .ifCmpLt | .ifCmpGe | .ifCmpGt | .ifCmpLe
  | .tableSwitch | .lookupSwitch | .halt => false
  | _ => true

/-- The step neither jumps nor halts. -/
def Step.Straight : Step σ → Prop
  | .jump _ _ | .halt _ => False
  | .next _ | .raise _ _ | .stop _ _ => True

namespace Machine

section Straight

variable {m : Machine σ} {i : Instruction}

theorem straight_withTop {k : Value → Machine σ → Step σ} (hk : ∀ v m, (k v m).Straight) :
    (m.withTop k).Straight := by
  rw [withTop]
  split
  · trivial
  · exact hk _ _

theorem straight_pushResult (r : Except ValueError Value) : (m.pushResult r).Straight := by
  cases r <;> trivial

theorem straight_pushConstant : (m.pushConstant i).Straight := by
  rw [pushConstant]
  split <;> trivial

theorem straight_load : (m.load i).Straight := by
  rw [load]
  split
  · split <;> trivial
  · trivial

theorem straight_store : (m.store i).Straight := by
  rw [store]
  split
  · refine straight_withTop fun v m => ?_
    split <;> trivial
  · trivial

theorem straight_increment : (m.increment i).Straight := by
  rw [increment]
  split
  · split
    · trivial
    · split <;> trivial
  · trivial

theorem straight_arithmetic (op : Arithmetic) : (m.arithmetic op).Straight := by
  refine straight_withTop fun right m => straight_withTop fun left m => ?_
  split <;> trivial

theorem straight_create : (m.create i).Straight := by
  rw [create]
  split <;> trivial

theorem straight_getField : (m.getField i).Straight := by
  rw [getField]
  split
  · refine straight_withTop fun v m => ?_
    split
    · split
      · trivial
      · split <;> trivial
    · trivial
  · trivial

theorem straight_putField : (m.putField i).Straight := by
  rw [putField]
  split
  · refine straight_withTop fun v m => straight_withTop fun target m => ?_
    split
    · split <;> trivial
    · trivial
  · trivial

theorem straight_call (host : Host σ) (name : String) (args : List Value) (returns : Bool) :
    (m.call host name args returns).Straight := by
  rw [call]
  split
  · cases returns <;> trivial
  · trivial
  · cases returns <;> trivial

theorem straight_invoke (host : Host σ) : (m.invoke host i).Straight := by
  rw [invoke]
  split
  · split
    · trivial
    · exact straight_call ..
  · trivial

theorem straight_throwTop : m.throwTop.Straight := by
  refine straight_withTop fun v m => ?_
  split <;> trivial

end Straight

theorem straight_step {i : Instruction} (h : i.opcode.straight) (m : Machine σ) (host : Host σ)
    (code : Code) : (m.step host code i).Straight := by
  obtain ⟨opcode, operand⟩ := i
  cases opcode with
  | halt | goto | ifEq | ifNe | ifCmpEq | ifCmpNe | ifCmpLt | ifCmpGe | ifCmpGt | ifCmpLe
  | tableSwitch | lookupSwitch => cases h
  | nop | pushNull | lconst0 | lconst1 | dconst0 | dconst1 => trivial
  | push => exact straight_pushConstant
  | load => exact straight_load
  | store => exact straight_store
  | inc => exact straight_increment
  | pop | dup =>
      simp only [step]
      exact straight_withTop fun _ _ => trivial
  | dupX1 =>
      simp only [step]
      exact straight_withTop fun _ _ => straight_withTop fun _ _ => trivial
  | add | sub | mul | div | rem | xor => exact straight_arithmetic _
  | neg | i2l | i2d | l2d =>
      simp only [step]
      exact straight_withTop fun _ _ => straight_pushResult _
  | new => exact straight_create
  | getField => exact straight_getField
  | putField => exact straight_putField
  | invoke => exact straight_invoke host
  | throw => exact straight_throwTop

/-- Only jumps look at the code. -/
theorem step_eq_of_straight {i : Instruction} (h : i.opcode.straight) (m : Machine σ)
    (host : Host σ) (code code' : Code) : m.step host code i = m.step host code' i := by
  obtain ⟨opcode, operand⟩ := i
  cases opcode with
  | halt | goto | ifEq | ifNe | ifCmpEq | ifCmpNe | ifCmpLt | ifCmpGe | ifCmpGt | ifCmpLe
  | tableSwitch | lookupSwitch => cases h
  | _ => rfl

end Machine

namespace Interpretation.Eval

/-- What an instruction that goes straight on does to the machine. If it is not done, nobody looks
at the stack any more. -/
def perform (host : Host σ) (i : Instruction) : Eval σ Unit := fun m =>
  match m.step host {} i with
  | .next m | .jump _ m | .halt m => .done () m
  | .raise v m =>
    match m.classOf? v with
    | some className => .raised v className (m.on [])
    | none => .stopped (.cannotThrow v) (m.on [])
  | .stop why m => .stopped why (m.on [])

/-- Performs an instruction if it is wanted. -/
def performIf (host : Host σ) (wanted : Bool) (i : Instruction) : Eval σ Unit :=
  if wanted then perform host i else pure ()

/-- Takes a value off the stack and tells whether it is zero, or whether it is not. -/
def popZero (zero : Bool) : Eval σ Bool := fun m =>
  match m.stack with
  | [] => .stopped .stackUnderflow m
  | v :: rest => .done (v.isZero == zero) (m.on rest)

/-- Takes two values off the stack and tells whether they compare so. -/
def popCompare (c : Comparison) : Eval σ Bool := fun m =>
  match m.stack with
  | right :: left :: rest => ofExcept (Value.compare c left right) (m.on rest)
  | _ => .stopped .stackUnderflow m

end Interpretation.Eval

namespace Simulation

open Annotated (Expr Place)
open Lowering hiding stmt stmts groups catches catching
open Interpretation Machine

/-! ## Effects -/

namespace Simulates

variable {host : Host σ} {code : Code} {gs : Guard} {c c' : Nat × Machine σ} {α β : Type}

theorem bind {x : Eval σ α} {f : α → Eval σ β} {m : Machine σ} {K : α → Machine σ → Prop}
    {K' : β → Machine σ → Prop} (hx : Simulates host code gs c (x m) K)
    (hf : ∀ a m', K a m' → Simulates host code gs c (f a m') K') :
    Simulates host code gs c ((x >>= f) m) K' := by
  simp only [Bind.bind]
  cases hxm : x m with
  | done a m' =>
      rw [hxm] at hx
      exact hf a m' hx
  | raised v className m' | stopped why m' | exhausted =>
      rw [hxm] at hx
      exact hx

/-- What holds at a later point of a run holds at an earlier one. -/
theorem after {r : Result σ α} {K K' : α → Machine σ → Prop} (hr : Reaches host code c c')
    (h : Simulates host code gs c' r K) (hK : ∀ a m, K a m → K' a m) :
    Simulates host code gs c r K' := by
  cases r with
  | done a m => exact hK a m h
  | raised v className m =>
      obtain ⟨hclass, S, hcomes⟩ := h
      exact ⟨hclass, S, hcomes.of_reaches hr⟩
  | stopped why m =>
      obtain ⟨S, hcomes⟩ := h
      exact ⟨S, hcomes.of_reaches hr⟩
  | exhausted => exact h

end Simulates

section Effects

variable (host : Host σ) (code : Code)

/-- A run through pieces that stand somewhere has the given result: if that is done, the run comes
to the end of the pieces with this very machine. -/
def Completes (around : List Guard) (pc : Nat) (ps : List Piece) (m : Machine σ)
    (result : Result σ Unit) : Prop :=
  Simulates host code around.flatten (pc, m) result fun _ m' =>
    Reaches host code (pc, m) (pc + size (layOut ps), m')

/-- A run through what a step of generation gives has an effect. -/
def Acts (x : Gen Unit) (effect : Eval σ Unit) : Prop :=
  ∀ ⦃n n' : Nat⦄ ⦃u : Unit⦄ ⦃ps : List Piece⦄, x.Yields n u ps n' →
    ∀ ⦃around : List Guard⦄ ⦃pc : Nat⦄, Standing code around pc ps →
      ∀ m, Completes host code around pc ps m (effect m)

/-- A run through what a step of generation gives has an effect and jumps or goes on. -/
def Decides (x : Gen Unit) (target : Label) (effect : Eval σ Bool) : Prop :=
  ∀ ⦃n n' : Nat⦄ ⦃u : Unit⦄ ⦃ps : List Piece⦄, x.Yields n u ps n' →
    ∀ ⦃around : List Guard⦄ ⦃pc : Nat⦄, Standing code around pc ps →
      ∀ ⦃dest : Nat⦄, code.position target = some dest →
        ∀ m, Simulates host code around.flatten (pc, m) (effect m) fun jumps m' =>
          Reaches host code (pc, m) (if jumps then dest else pc + size (layOut ps), m')

/-- The effect is the same wherever the code stands. -/
def Acting (x : Gen Unit) : Prop :=
  ∃ effect, ∀ code, Acts host code x effect

/-- The effect is the same wherever the code stands and whichever label it jumps to. -/
def Deciding (x : Label → Gen Unit) : Prop :=
  ∃ effect, ∀ code target, Decides host code (x target) target effect

/-- The two codes of an expression have the same effects everywhere. -/
structure Relocatable (c : ExprCode) : Prop where
  value : Acting host c.value
  branch : ∀ onTrue, Deciding host fun target => c.branch target onTrue

end Effects

variable {host : Host σ} {code : Code}

theorem acts_pure : Acts host code (pure ()) (pure ()) := by
  intro n n' u ps hy around pc _ m
  obtain ⟨-, rfl, -⟩ := Gen.yields_pure.mp hy
  exact Relation.ReflTransGen.refl

theorem acts_give {i : Instruction} (h : i.opcode.straight) :
    Acts host code (Gen.give (.emit i)) (Eval.perform host i) := by
  intro n n' u ps hy around pc hps m
  obtain ⟨rfl, -⟩ := Gen.yields_give.mp hy
  obtain ⟨⟨hat, hcov⟩, -⟩ := standing_emit.mp hps
  have hadvance : ∀ turn, m.advance host code pc = turn → Comes host code (pc, m) turn :=
    fun turn => Comes.here
  have hstraight := straight_step h m host code
  have hsame := step_eq_of_straight h m host {} code
  rw [advance, hat] at hadvance
  rw [Eval.perform, hsame]
  simp only at hadvance
  cases hstep : m.step host code i with
  | next m' =>
      have honward : Onward host code (pc, m) (pc + 1, m') := by
        show m.advance host code pc = _
        rw [advance, hat]
        simp only [hstep]
      exact .single honward
  | raise v m' =>
      rw [hstep] at hadvance
      simp only
      cases hclass : m'.classOf? v with
      | none =>
          refine ⟨m'.stack, hadvance _ ?_⟩
          simp only [unwind, hclass]
          rfl
      | some className => exact ⟨hclass, m'.stack, hadvance _ (unwind_covered hcov hclass)⟩
  | stop why m' =>
      rw [hstep] at hadvance
      exact ⟨m'.stack, hadvance _ rfl⟩
  | jump target m' | halt m' =>
      rw [hstep] at hstraight
      exact hstraight.elim

theorem acts_emitIf {i : Instruction} (wanted : Bool) (h : i.opcode.straight) :
    Acts host code (Gen.emitIf wanted i) (Eval.performIf host wanted i) := by
  cases wanted
  · exact acts_pure
  · exact acts_give h

theorem Acts.bind {x : Gen Unit} {f : Unit → Gen Unit} {effect effect' : Eval σ Unit}
    (hx : Acts host code x effect) (hf : Acts host code (f ()) effect') :
    Acts host code (x >>= f) (effect >>= fun _ => effect') := by
  intro n n' u ps hy around pc hps m
  obtain ⟨p, k, q, hp, rfl, hq⟩ := Gen.yields_unit_bind.mp hy
  obtain ⟨hsp, hsq⟩ := standing_append.mp hps
  rw [Completes, layOut_append, size_append, ← Nat.add_assoc]
  refine Simulates.bind (hx hp hsp m) fun _ m' hr => ?_
  exact (hf hq hsq m').after hr fun _ _ hr' => hr.trans hr'

theorem Acts.decides {x : Gen Unit} {f : Unit → Gen Unit} {target : Label} {effect : Eval σ Unit}
    {decision : Eval σ Bool} (hx : Acts host code x effect)
    (hf : Decides host code (f ()) target decision) :
    Decides host code (x >>= f) target (effect >>= fun _ => decision) := by
  intro n n' u ps hy around pc hps dest hdest m
  obtain ⟨p, k, q, hp, rfl, hq⟩ := Gen.yields_unit_bind.mp hy
  obtain ⟨hsp, hsq⟩ := standing_append.mp hps
  rw [layOut_append, size_append, ← Nat.add_assoc]
  refine Simulates.bind (hx hp hsp m) fun _ m' hr => ?_
  exact (hf hq hsq hdest m').after hr fun _ _ hr' => hr.trans hr'

theorem acting_pure : Acting host (pure ()) :=
  ⟨pure (), fun _ => acts_pure⟩

theorem acting_fail (d : Defect) : Acting host (Gen.fail d) :=
  ⟨pure (), fun _ _ _ _ _ hy => (Gen.yields_fail.mp hy).elim⟩

theorem acting_give {i : Instruction} (h : i.opcode.straight) :
    Acting host (Gen.give (.emit i)) :=
  ⟨Eval.perform host i, fun _ => acts_give h⟩

theorem acting_emitIf {i : Instruction} (wanted : Bool) (h : i.opcode.straight) :
    Acting host (Gen.emitIf wanted i) :=
  ⟨Eval.performIf host wanted i, fun _ => acts_emitIf wanted h⟩

theorem Acting.bind {x : Gen Unit} {f : Unit → Gen Unit} (hx : Acting host x)
    (hf : Acting host (f ())) : Acting host (x >>= f) := by
  obtain ⟨effect, hx⟩ := hx
  obtain ⟨effect', hf⟩ := hf
  exact ⟨_, fun code => (hx code).bind (hf code)⟩

theorem Acting.decides {x : Gen Unit} {y : Label → Gen Unit} (hx : Acting host x)
    (hy : Deciding host y) : Deciding host fun target => x >>= fun _ => y target := by
  obtain ⟨effect, hx⟩ := hx
  obtain ⟨decision, hy⟩ := hy
  exact ⟨_, fun code target => (hx code).decides (hy code target)⟩

/-! ## Jumps -/

theorem deciding_pure : Deciding host fun _ => pure () := by
  refine ⟨pure false, fun code target n n' u ps hy around pc _ dest _ m => ?_⟩
  obtain ⟨-, rfl, -⟩ := Gen.yields_pure.mp hy
  exact Relation.ReflTransGen.refl

theorem deciding_fail (d : Defect) : Deciding host fun _ => Gen.fail d :=
  ⟨pure false, fun _ _ _ _ _ _ hy => (Gen.yields_fail.mp hy).elim⟩

theorem deciding_goto : Deciding host fun target => Gen.jump .goto target := by
  refine ⟨pure true, fun code target n n' u ps hy around pc hps dest hdest m => ?_⟩
  obtain ⟨rfl, -⟩ := Gen.yields_jump.mp hy
  obtain ⟨⟨hat, -⟩, -⟩ := standing_emit.mp hps
  exact .single (onward_goto host m hat hdest)

/-- An instruction that finds the stack too low stops the run. -/
theorem simulates_underflow {α : Type} {gs : Guard} {pc : Nat} {i : Instruction} {m : Machine σ}
    {K : α → Machine σ → Prop} (hat : code.instructions[pc]? = some i) (S : List Value)
    (hstep : m.step host code i = .stop .stackUnderflow (m.on S)) :
    Simulates host code gs (pc, m) (.stopped .stackUnderflow m) K := by
  refine ⟨S, .here ?_⟩
  rw [advance, hat]
  simp only [hstep]

theorem deciding_ifZero (zero : Bool) :
    Deciding host fun target => Gen.jump (if zero then .ifEq else .ifNe) target := by
  refine ⟨Eval.popZero zero, fun code target n n' u ps hy around pc hps dest hdest m => ?_⟩
  obtain ⟨rfl, -⟩ := Gen.yields_jump.mp hy
  obtain ⟨⟨hat, -⟩, -⟩ := standing_emit.mp hps
  have hop (m : Machine σ) : m.step host code
      ⟨if zero then .ifEq else .ifNe, some (.label target)⟩ =
        m.branchIfZero code ⟨if zero then .ifEq else .ifNe, some (.label target)⟩ zero := by
    cases zero <;> rfl
  rw [Eval.popZero]
  cases hstack : m.stack with
  | nil =>
      refine simulates_underflow hat m.stack ?_
      simp only [hop, branchIfZero, withTop, hstack]
      rw [← hstack]
      rfl
  | cons v rest =>
      have hm : m = m.on (v :: rest) := by rw [← hstack]; rfl
      have honward := onward_branchIfZero (m := m) v rest hop hat hdest
      rw [← hm] at honward
      have hsize : size (layOut [.give (.emit
          ⟨if zero then .ifEq else .ifNe, some (.label target)⟩)]) = 1 := by simp
      simp only [Simulates, hsize]
      refine .single ?_
      simpa using honward

theorem deciding_compare {opcode : Opcode} {c : Comparison}
    (hop : ∀ code l (m : Machine σ), m.step host code ⟨opcode, some (.label l)⟩ =
      m.branchIf code ⟨opcode, some (.label l)⟩ c) :
    Deciding host fun target => Gen.jump opcode target := by
  refine ⟨Eval.popCompare c, fun code target n n' u ps hy around pc hps dest hdest m => ?_⟩
  obtain ⟨rfl, -⟩ := Gen.yields_jump.mp hy
  obtain ⟨⟨hat, -⟩, -⟩ := standing_emit.mp hps
  rw [Eval.popCompare]
  match hstack : m.stack with
  | [] =>
      refine simulates_underflow hat m.stack ?_
      simp only [hop, branchIf, withTop, hstack]
      rw [← hstack]
      rfl
  | [right] =>
      refine simulates_underflow hat [] ?_
      simp only [hop, branchIf, withTop, hstack]
      rfl
  | right :: left :: rest =>
      have hm : m = m.on (right :: left :: rest) := by rw [← hstack]; rfl
      have hadvance := advance_branchIf (m := m) left right rest (hop code target) hat hdest
      rw [← hm] at hadvance
      simp only
      cases hc : Value.compare c left right with
      | error e =>
          rw [hc] at hadvance
          exact ⟨rest, Comes.here hadvance⟩
      | ok holds =>
          rw [hc] at hadvance
          have honward : Onward host code (pc, m) (if holds then dest else pc + 1, m.on rest) :=
            hadvance
          exact Relation.ReflTransGen.single honward

/-! ## Operators -/

theorem relocatable_ofValue {value : Gen Unit} (h : Acting host value) :
    Relocatable host (.ofValue value) := by
  refine ⟨h, fun onTrue => ?_⟩
  have hjump : Deciding host fun target => Gen.jump (if onTrue then .ifNe else .ifEq) target := by
    cases onTrue
    · exact deciding_ifZero true
    · exact deciding_ifZero false
  exact h.decides hjump

/-- On one way the code pushes one and jumps over the other way, which pushes zero. -/
theorem relocatable_ofBranch {branch : Label → Bool → Gen Unit}
    (h : ∀ onTrue, Deciding host fun target => branch target onTrue) :
    Relocatable host (.ofBranch branch) := by
  refine ⟨?_, h⟩
  obtain ⟨decision, hb⟩ := h false
  refine ⟨decision >>= fun jumps => Eval.perform host ⟨.push, some (.int (if jumps then 0 else 1))⟩,
    fun code n n' u ps hy around pc hps m => ?_⟩
  obtain ⟨first, hfirst, rfl⟩ := yields_ofBranch_value hy
  simp only [standing_append, standing_created, standing_emit, standing_place, standing_nil,
    layOut_append, size_append, size_created, true_and, and_true, Nat.zero_add, Nat.add_zero] at hps
  obtain ⟨hsf, ⟨hone, -⟩, ⟨hgoto, -⟩, hfalse, ⟨hzero, -⟩, hdone⟩ := hps
  have hsize : size (layOut (created n 2 ++ first ++
      [Piece.give (.emit ⟨.push, some (.int 1)⟩),
        Piece.give (.emit ⟨.goto, some (.label (n + 1))⟩), Piece.give (.place n),
        Piece.give (.emit ⟨.push, some (.int 0)⟩), Piece.give (.place (n + 1))])) =
      size (layOut first) + 3 := by
    simp [layOut_append]
  rw [Completes, hsize]
  refine Simulates.bind (hb code n hfirst hsf hfalse m) fun jumps m' hr => ?_
  cases jumps with
  | true =>
      have hpush : Onward host code _ _ := (does_pushInt 0).onward hzero m' rfl m'.stack
      exact hr.tail hpush
  | false =>
      have hpush : Onward host code _ _ := (does_pushInt 1).onward hone m' rfl m'.stack
      have hjump := onward_goto host (m'.on (.int 1 :: m'.stack)) hgoto hdone
      exact (hr.tail hpush).tail hjump

/-- Two jumps to one label, of which the second is tried if the first is not made. -/
theorem Deciding.orElse {x y : Label → Gen Unit} (hx : Deciding host x) (hy : Deciding host y) :
    Deciding host fun target => x target >>= fun _ => y target := by
  obtain ⟨first, hfirst⟩ := hx
  obtain ⟨second, hsecond⟩ := hy
  refine ⟨first >>= fun jumps => if jumps then pure true else second,
    fun code target n n' u ps hps around pc hst dest hdest m => ?_⟩
  obtain ⟨p, k, q, hp, rfl, hq⟩ := Gen.yields_unit_bind.mp hps
  obtain ⟨hsp, hsq⟩ := standing_append.mp hst
  rw [layOut_append, size_append, ← Nat.add_assoc]
  refine Simulates.bind (hfirst code target hp hsp hdest m) fun jumps m' h => ?_
  cases jumps with
  | true => exact h
  | false => exact (hsecond code target hq hsq hdest m').after h fun _ _ h' => h.trans h'

/-- A jump over another one. -/
theorem Deciding.skipping {x y : Label → Gen Unit} (hx : Deciding host x) (hy : Deciding host y) :
    Deciding host fun target => (do
      let skip ← Gen.fresh
      x skip
      y target
      Gen.place skip) := by
  obtain ⟨first, hfirst⟩ := hx
  obtain ⟨second, hsecond⟩ := hy
  refine ⟨first >>= fun jumps => if jumps then pure false else second,
    fun code target n n' u ps hps around pc hst dest hdest m => ?_⟩
  obtain ⟨_, rfl, hjumps⟩ := Gen.yields_fresh_bind.mp hps
  obtain ⟨p, k, _, hp, rfl, hsecondJump⟩ := Gen.yields_unit_bind.mp hjumps
  obtain ⟨q, k', _, hq, rfl, hplace⟩ := Gen.yields_unit_bind.mp hsecondJump
  obtain ⟨rfl, -⟩ := Gen.yields_place.mp hplace
  have hpieces : Piece.give (.create n) :: (p ++ (q ++ [Piece.give (.place n)])) =
      created n 1 ++ p ++ q ++ [Piece.give (.place n)] := by simp [created]
  rw [hpieces] at hst ⊢
  obtain ⟨hsp, hsq, hskip, hsize⟩ := standing_skipping hst
  rw [hsize, ← Nat.add_assoc]
  refine Simulates.bind (hfirst code n hp hsp hskip m) fun jumps m' h => ?_
  cases jumps with
  | true => exact h
  | false => exact (hsecond code target hq hsq hdest m').after h fun _ _ h' => h.trans h'

theorem deciding_shortCircuit (decisive : Bool) {left right : ExprCode}
    (hl : Relocatable host left) (hr : Relocatable host right) (onTrue : Bool) :
    Deciding host fun target => shortCircuit decisive left right target onTrue := by
  by_cases h : onTrue = decisive
  · simp only [shortCircuit, if_pos h]
    exact (hl.branch decisive).orElse (hr.branch onTrue)
  · simp only [shortCircuit, if_neg h]
    exact (hl.branch decisive).skipping (hr.branch onTrue)

/-- Opcodes of comparisons compare in all code alike, and so do their opposites. -/
theorem exists_comparison (host : Host σ) {op : BinaryOp} {opcode : Opcode}
    (hop : comparison? op = some opcode) :
    ∃ c : Comparison, (∀ code l (m : Machine σ), m.step host code ⟨opcode, some (.label l)⟩ =
        m.branchIf code ⟨opcode, some (.label l)⟩ c) ∧
      ∀ opposite, opcode.negate? = some opposite →
        ∀ code l (m : Machine σ), m.step host code ⟨opposite, some (.label l)⟩ =
          m.branchIf code ⟨opposite, some (.label l)⟩ c.opposite := by
  obtain ⟨c, hc, -⟩ := step_comparison host {} hop
  refine ⟨c, fun code => ?_, fun opposite hneg code => ?_⟩
  · obtain ⟨c', hc', hstep, -⟩ := step_comparison host code hop
    obtain rfl := Option.some.inj (hc.symm.trans hc')
    exact hstep
  · obtain ⟨c', hc', -, hopposite⟩ := step_comparison host code hop
    obtain rfl := Option.some.inj (hc.symm.trans hc')
    exact hopposite opposite hneg

theorem deciding_compareBranch {left right : Gen Unit} (hl : Acting host left)
    (hr : Acting host right) (op : BinaryOp) (ty : Ty) (onTrue : Bool) :
    Deciding host fun target => compareBranch op ty left right target onTrue := by
  refine hl.decides (hr.decides ?_)
  cases hop : comparison? op with
  | none => exact deciding_fail _
  | some opcode =>
      obtain ⟨c, hstep, hopposite⟩ := exists_comparison host hop
      cases onTrue with
      | true => exact deciding_compare hstep
      | false =>
          by_cases hty : ty = .double
          · simp only [hty, if_true]
            exact (deciding_compare hstep).skipping deciding_goto
          · simp only [hty, if_false]
            cases hneg : opcode.negate? with
            | none => exact deciding_fail _
            | some opposite => exact deciding_compare (hopposite opposite hneg)

/-! ## Expressions -/

theorem relocatable_bool (v : Bool) : Relocatable host
    { value := Gen.emitWith .push (.int (if v then 1 else 0))
      branch := fun target onTrue => if v == onTrue then Gen.jump .goto target else pure () } := by
  refine ⟨acting_give rfl, fun onTrue => ?_⟩
  by_cases hv : (v == onTrue) = true
  · simp only [hv, if_true]
    exact deciding_goto
  · simp only [hv]
    exact deciding_pure

theorem acting_pushLong (v : Int64) : Acting host (pushLong v) := by
  rw [pushLong]
  split
  · exact acting_give rfl
  · split <;> exact acting_give rfl

theorem acting_pushDouble (v : Float) : Acting host (pushDouble v) := by
  rw [pushDouble]
  split
  · exact acting_give rfl
  · split <;> exact acting_give rfl

theorem acting_pushOne (ty : Ty) : Acting host (pushOne ty) := by
  cases ty <;> exact acting_give rfl

theorem acting_widening (source target : Ty) :
    Acting host (match widening? source target with
      | some opcode => Gen.emit opcode
      | none => Gen.fail (.noWidening source target)) := by
  fun_cases widening? source target with
  | case1 | case2 | case3 => exact acting_give rfl
  | case4 => exact acting_fail _

theorem acting_applyUnary (op : UnaryOp) (ty : Ty) : Acting host (applyUnary op ty) := by
  cases op with
  | minus => exact acting_give rfl
  | plus | logicalNot => exact acting_pure
  | bitwiseNot => exact (acting_give rfl).bind (acting_give rfl)

theorem acting_incrementSlot (op : UpdateOp) (slot : Nat) (used : Bool) :
    Acting host (incrementSlot op slot used) :=
  (acting_emitIf _ rfl).bind ((acting_give rfl).bind (acting_emitIf _ rfl))

theorem acting_incrementField (op : UpdateOp) (ty : Ty) {target : Gen Unit}
    (ht : Acting host target) (name : String) (used : Bool) :
    Acting host (incrementField op ty target name used) := by
  have hstep : Acting host (Gen.emit (if 0 < op.delta then .add else .sub)) := by
    split <;> exact acting_give rfl
  exact ht.bind ((acting_give rfl).bind ((acting_give rfl).bind ((acting_emitIf _ rfl).bind
    ((acting_pushOne ty).bind (hstep.bind ((acting_emitIf _ rfl).bind (acting_give rfl)))))))

mutual

/-- The codes of every expression have the same effects everywhere. -/
theorem relocatable_exprCode (e : Expr) : Relocatable host (exprCode e) := by
  match e with
  | .int .. | .null _ | .slot .. | .new .. => exact relocatable_ofValue (acting_give rfl)
  | .long _ v => exact relocatable_ofValue (acting_pushLong v)
  | .double _ v => exact relocatable_ofValue (acting_pushDouble v)
  | .bool _ v => exact relocatable_bool v
  | .field _ target name =>
      exact relocatable_ofValue ((relocatable_exprCode target).value.bind (acting_give rfl))
  | .widen ty inner =>
      exact relocatable_ofValue ((relocatable_exprCode inner).value.bind
        (acting_widening inner.ty ty))
  | .assign _ (.slot slot) value used =>
      exact relocatable_ofValue ((relocatable_exprCode value).value.bind
        ((acting_emitIf used rfl).bind (acting_give rfl)))
  | .assign _ (.field target name) value used =>
      exact relocatable_ofValue ((relocatable_exprCode target).value.bind
        ((relocatable_exprCode value).value.bind ((acting_emitIf used rfl).bind
          (acting_give rfl))))
  | .binary _ op left right =>
      have hl := relocatable_exprCode left
      have hr := relocatable_exprCode right
      match op with
      | .logicalAnd => exact relocatable_ofBranch (deciding_shortCircuit false hl hr)
      | .logicalOr => exact relocatable_ofBranch (deciding_shortCircuit true hl hr)
      | .add | .subtract | .multiply | .divide | .modulo =>
          exact relocatable_ofValue (hl.value.bind (hr.value.bind (acting_give rfl)))
      | .equal | .notEqual | .lessThan | .lessThanEqual | .greaterThan | .greaterThanEqual =>
          exact relocatable_ofBranch (deciding_compareBranch hl.value hr.value _ left.ty)
  | .unary _ op operand =>
      have ih := relocatable_exprCode operand
      rw [exprCode]
      split
      · exact relocatable_ofBranch fun onTrue => ih.branch (!onTrue)
      · exact relocatable_ofValue (ih.value.bind (acting_applyUnary op operand.ty))
  | .increment _ op (.slot slot) used => exact relocatable_ofValue (acting_incrementSlot op slot used)
  | .increment ty op (.field target name) used =>
      exact relocatable_ofValue
        (acting_incrementField op ty (relocatable_exprCode target).value name used)
  | .call ty name args =>
      exact relocatable_ofValue ((acting_argsCode args).bind (acting_give rfl))
  | .error _ => exact relocatable_ofValue (acting_fail _)
termination_by structural e

theorem acting_argsCode (es : List Expr) : Acting host (argsCode es) := by
  match es with
  | [] => exact acting_pure
  | e :: rest => exact (relocatable_exprCode e).value.bind (acting_argsCode rest)
termination_by structural es

end

end Simulation

end MethodCompiler
