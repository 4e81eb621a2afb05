import Mathlib.Logic.Basic
import MethodCompiler.Proofs.Correspondence
import MethodCompiler.Proofs.Heights

/-!
# Runs of the code of expressions

The code of an expression takes values off the stack and leaves others, like a single
instruction does, and `Runs` says so of both: from a stack that starts with `take` the
run comes to one that starts with `leave a` instead, where `a` is what the part of the
tree gives. What lies below does not matter. `Tests` says the same of the code that
jumps.

For each instruction this is a fact about one step of the machine. Sequences of steps
are sequences on the other side too, so for most forms nothing is left to do. The number
one is the exception among constants: its opcode is picked by a comparison, and only the
bits of a double tell that nothing else compares equal to it.
-/

namespace MethodCompiler

namespace Double

open Float.Model (UnpackedFloat Format)

theorem eq_of_toBits_eq {x y : Float} (h : x.toBits = y.toBits) : x = y := by
  obtain ⟨⟨b, hb⟩⟩ := x
  obtain ⟨⟨c, hc⟩⟩ := y
  have h : b = c := h
  subst h
  rfl

/-- What is equal to a positive number is that number. -/
theorem eq_of_compare_eq {u : UnpackedFloat} {m : Nat} {e : Int} {hm : 0 < m}
    (h : u.compare (.finite .positive m e hm) = some .eq) : u = .finite .positive m e hm := by
  match u with
  | .notANumber | .infinity .positive | .infinity .negative | .zero _ | .finite .negative .. =>
      cases h
  | .finite .positive m' e' hm' =>
      dsimp only [UnpackedFloat.compare] at h
      rw [Option.some.injEq, Ordering.then_eq_eq, Std.compare_eq_iff_eq,
        Std.compare_eq_iff_eq] at h
      obtain ⟨rfl, rfl⟩ := h
      rfl

theorem eq_of_unpack_eq_one {b : BitVec 64} {hm : 0 < 4503599627370496}
    (h : UnpackedFloat.unpack Format.binary64 b = .finite .positive 4503599627370496 (-52) hm) :
    b = 0x3FF0000000000000#64 := by
  have hmantissa : (@UnpackedFloat.unpackMantissa .binary64 b).toNat = b.toNat % 2 ^ 52 := by
    simp [UnpackedFloat.unpackMantissa]
  have hexponent : (@UnpackedFloat.unpackExponent .binary64 b).toNat =
      b.toNat / 2 ^ 52 % 2 ^ 11 := by
    simp [UnpackedFloat.unpackExponent, Nat.shiftRight_eq_div_pow]
  have hsign : (@UnpackedFloat.unpackSign .binary64 b).toNat = b.toNat / 2 ^ 63 % 2 := by
    delta UnpackedFloat.unpackSign
    simp [Nat.shiftRight_eq_div_pow]
  delta UnpackedFloat.unpack at h
  dsimp only at h
  obtain ⟨-, h⟩ | ⟨-, h⟩ := ite_eq_iff.mp h
  · obtain ⟨-, h⟩ | ⟨-, h⟩ := ite_eq_iff.mp h <;> cases h
  · obtain ⟨hzero, h⟩ | ⟨-, h⟩ := ite_eq_iff.mp h
    · obtain ⟨_, h⟩ | ⟨_, h⟩ := dite_eq_iff.mp h
      · cases h
      · -- The least exponent is not that of one.
        obtain ⟨-, -, he⟩ := UnpackedFloat.finite.inj h
        rw [hzero] at he
        simp [Format.exponentBias] at he
    · obtain ⟨hs, hm, he⟩ := UnpackedFloat.finite.inj h
      have hpositive : @UnpackedFloat.unpackSign .binary64 b = 0#1 := by
        refine Classical.byContradiction fun hne => ?_
        simp [UnpackedFloat.Sign.ofBitVec, hne] at hs
      have hbias : Format.binary64.exponentBias = 1023 := rfl
      rw [hpositive] at hsign
      rw [BitVec.toNat_append, ← Nat.shiftLeft_add_eq_or_of_lt (BitVec.isLt _), hmantissa] at hm
      rw [hexponent, hbias] at he
      refine BitVec.eq_of_toNat_eq ?_
      have := b.isLt
      simp only [BitVec.toNat_ofNat, Nat.shiftLeft_eq] at hsign hm ⊢
      omega

theorem eq_one_of_beq {x : Float} (h : (x == 1.0) = true) : x = 1.0 := by
  have hone : (1.0 : Float).toBits = 0x3FF0000000000000 := by decide +kernel
  have hunpack : (1.0 : Float).toModel.unpack =
      .finite .positive 4503599627370496 (-52) (by decide) := by
    rw [Float.Model.unpack, show (1.0 : Float).toModel.toBits = _ from hone]
    rfl
  have hcompare : x.toModel.unpack.compare (1.0 : Float).toModel.unpack = some .eq :=
    eq_of_beq h
  rw [hunpack] at hcompare
  have hbits := eq_of_unpack_eq_one (eq_of_compare_eq hcompare)
  refine eq_of_toBits_eq ?_
  rw [hone]
  exact UInt64.toBitVec_inj.mp hbits

end Double

namespace Comparison

/-- The comparison that holds if the other does not, unless there is no order. -/
def opposite : Comparison → Comparison
  | eq => ne
  | ne => eq
  | lt => ge
  | ge => lt
  | gt => le
  | le => gt

theorem holds_opposite (c : Comparison) (o : Ordering) :
    c.opposite.holds (some o) = !c.holds (some o) := by
  cases c <;> cases o <;> rfl

theorem compareReferences_opposite (c : Comparison) (same : Bool) :
    (Value.compareReferences c.opposite same).map (!·) = Value.compareReferences c same := by
  cases c <;> cases same <;> rfl

end Comparison

namespace Interpretation

/-- Tested for being true, a comparison is what the values say. -/
theorem tested_true (ty : Ty) (c : Comparison) (a b : Value) :
    tested ty true c a b = Value.compare c a b := by
  simp [tested]

theorem tested_double (wanted : Bool) (c : Comparison) (a b : Value) :
    tested .double wanted c a b = Value.compare c a b := by
  simp [tested]

theorem compare_doubles (c : Comparison) (x y : Float) :
    Value.compare c (.double x) (.double y) = .ok (c.holds (Value.compareDoubles x y)) :=
  rfl

/-- Only doubles are without an order. -/
theorem exists_of_unordered {c : Comparison} {a b : Value} (h : unordered c a b = true) :
    ∃ x y, a = .double x ∧ b = .double y ∧
      c ≠ .eq ∧ c ≠ .ne ∧ Value.compareDoubles x y = none := by
  cases a with
  | double x =>
      cases b with
      | double y => exact ⟨x, y, rfl, rfl, of_decide_eq_true h⟩
      | int _ | long _ | null | ref _ => cases h
  | int _ | long _ | null | ref _ => cases h

/-- Values that have an order, or are not compared by it, do not compare in one way if they
compare in the opposite one. -/
theorem compare_opposite {c : Comparison} {a b : Value} (h : unordered c a b = false) :
    (Value.compare c.opposite a b).map (!·) = Value.compare c a b := by
  have hholds : ∀ o, (!c.opposite.holds (some o)) = c.holds (some o) := by
    intro o
    rw [c.holds_opposite, Bool.not_not]
  cases a with
  | int x =>
      cases b with
      | int y => exact congrArg Except.ok (hholds _)
      | long _ | double _ | null | ref _ => rfl
  | long x =>
      cases b with
      | long y => exact congrArg Except.ok (hholds _)
      | int _ | double _ | null | ref _ => rfl
  | double x =>
      cases b with
      | double y =>
          rw [compare_doubles, compare_doubles]
          refine congrArg Except.ok ?_
          cases ho : Value.compareDoubles x y with
          | none => cases c <;> simp [unordered, ho] at h <;> rfl
          | some o => exact hholds o
      | int _ | long _ | null | ref _ => rfl
  | null | ref _ =>
      cases b with
      | null | ref _ => exact c.compareReferences_opposite _
      | int _ | long _ | double _ => rfl

/-- Tested for being false at another type than double, it is what its opposite is not. -/
theorem tested_false {ty : Ty} (hty : ty ≠ .double) (c : Comparison) (a b : Value) :
    tested ty false c a b = (Value.compare c.opposite a b).map (!·) := by
  rw [tested]
  cases h : unordered c a b with
  | false => rw [if_neg (by simp), compare_opposite h]
  | true =>
      -- Without an order the comparison fails and so does its opposite.
      rw [if_pos ⟨hty, rfl, rfl⟩]
      obtain ⟨x, y, rfl, rfl, ho⟩ := exists_of_unordered h
      rw [compare_doubles, ho.2.2]
      refine congrArg Except.ok ?_
      cases c with
      | lt | ge | gt | le => rfl
      | eq => exact absurd rfl ho.1
      | ne => exact absurd rfl ho.2.1

end Interpretation

namespace Simulation

open Annotated (Expr Place)
open Lowering Interpretation Machine

variable {σ : Type} {α β : Type}

/-! ## Steps -/

/-- A step does what a part of the tree gives, on a stack that ends in `S`. -/
def Agrees (S : List Value) (leave : α → List Value) : Step σ → Result σ α → Prop
  | .next m', .done a m => m' = m.on (leave a ++ S)
  | .raise v' m', .raised v className m => v' = v ∧ m' = m.on S ∧ m.classOf? v = some className
  | .stop why' m', .stopped why m => why' = why ∧ m' = m.on S
  | _, _ => False

/-- An instruction does what a part of the tree gives. -/
def Does (host : Host σ) (code : Code) (i : Instruction) (take : List Value) (e : Eval σ α)
    (leave : α → List Value) : Prop :=
  ∀ (m : Machine σ) (S : List Value),
    Agrees S leave ((m.on (take ++ S)).step host code i) (e m)

/-- An instruction that does what it can goes on to the next one. -/
theorem Does.onward {host : Host σ} {code : Code} {i : Instruction} {take : List Value}
    {e : Eval σ α} {leave : α → List Value} (h : Does host code i take e leave) {pc : Nat}
    (hat : code.instructions[pc]? = some i) (m : Machine σ) {m' : Machine σ} {a : α}
    (he : e m = .done a m') (S : List Value) :
    Onward host code (pc, m.on (take ++ S)) (pc + 1, m'.on (leave a ++ S)) := by
  have hagrees := h m S
  rw [he] at hagrees
  show Machine.advance _ _ _ _ = _
  rw [advance, hat]
  cases hstep : (m.on (take ++ S)).step host code i with
  | next m'' =>
      rw [hstep] at hagrees
      obtain rfl : m'' = _ := hagrees
      simp only [hstep]
  | raise v m'' | stop why m'' | jump target m'' | halt m'' =>
      rw [hstep] at hagrees
      exact hagrees.elim

theorem Does.ends {host : Host σ} {code : Code} {i : Instruction} {take : List Value}
    {e : Eval σ α} {leave : α → List Value} (h : Does host code i take e leave) {pc rounds : Nat}
    {gs : Guard} (hat : code.instructions[pc]? = some i) (hcov : Covered code pc gs)
    (m : Machine σ) (S : List Value) :
    Ends host code rounds gs (pc, m.on (take ++ S)) (e m) fun a m' =>
      Onward host code (pc, m.on (take ++ S)) (pc + 1, m'.on (leave a ++ S)) := by
  have hagrees := h m S
  have hadvance : ∀ turn, (m.on (take ++ S)).advance host code pc = turn →
      Comes host code (pc, m.on (take ++ S)) turn := fun turn => Comes.here
  rw [advance, hat] at hadvance
  simp only at hadvance
  cases hstep : (m.on (take ++ S)).step host code i with
  | next m' =>
      rw [hstep] at hagrees
      cases he : e m with
      | done a m'' =>
          exact h.onward hat m he S
      | raised _ _ _ | stopped _ _ | exhausted =>
          rw [he] at hagrees
          exact hagrees.elim
  | raise v m' =>
      rw [hstep] at hagrees hadvance
      cases he : e m with
      | raised v' className m'' =>
          rw [he] at hagrees
          obtain ⟨rfl, rfl, hclass⟩ := hagrees
          refine ⟨hclass, S, hadvance _ ?_⟩
          exact unwind_covered hcov hclass
      | done _ _ | stopped _ _ | exhausted =>
          rw [he] at hagrees
          exact hagrees.elim
  | stop why m' =>
      rw [hstep] at hagrees hadvance
      cases he : e m with
      | stopped why' m'' =>
          rw [he] at hagrees
          obtain ⟨rfl, rfl⟩ := hagrees
          exact ⟨S, hadvance _ rfl⟩
      | done _ _ | raised _ _ _ | exhausted =>
          rw [he] at hagrees
          exact hagrees.elim
  | jump target m' | halt m' =>
      rw [hstep] at hagrees
      exact hagrees.elim

/-! ## Sequences of steps -/

section Runs

variable (host : Host σ) (code : Code) (rounds : Nat)

/-- What a step of generation gives runs as a part of the tree: from a stack that starts
with `take` to one that starts with `leave a`, if that part gives `a`. -/
def Runs (x : Gen Unit) (take : List Value) (e : Eval σ α) (leave : α → List Value) : Prop :=
  ∀ ⦃n n' : Nat⦄ ⦃u : Unit⦄ ⦃ps : List Piece⦄, x.Yields n u ps n' →
    ∀ ⦃around : List Guard⦄ ⦃pc : Nat⦄, Standing code around pc ps →
      ∀ (m : Machine σ) (S : List Value),
        Ends host code rounds around.flatten (pc, m.on (take ++ S)) (e m) fun a m' =>
          Reaches host code (pc, m.on (take ++ S))
            (pc + size (layOut ps), m'.on (leave a ++ S))

end Runs

variable {host : Host σ} {code : Code} {rounds : Nat} {take : List Value} {e : Eval σ α}
  {leave : α → List Value}

theorem runs_pure (a : α) (h : leave a = take) :
    Runs host code rounds (pure ()) take (pure a) leave := by
  intro n n' u ps hy around pc _ m S
  obtain ⟨-, rfl, -⟩ := Gen.yields_pure.mp hy
  show Reaches host code _ (_, m.on (leave a ++ S))
  rw [h]
  exact .refl

theorem runs_fail {d : Defect} : Runs host code rounds (Gen.fail d) take e leave :=
  fun _ _ _ _ hy => (Gen.yields_fail.mp hy).elim

/-- What is known of everything that a part of the tree gives. -/
def Gives (e : Eval σ α) (P : α → Prop) : Prop :=
  ∀ m a m', e m = .done a m' → P a

/-- Sequences on both sides. The second part may rely on what the first one gives. -/
theorem runs_bind_of {x : Gen Unit} {f : Unit → Gen Unit} {P : α → Prop} {g : α → Eval σ β}
    {leave' : β → List Value} (hx : Runs host code rounds x take e leave) (hP : Gives e P)
    (hf : ∀ a, P a → Runs host code rounds (f ()) (leave a) (g a) leave') :
    Runs host code rounds (x >>= f) take (e >>= g) leave' := by
  intro n n' u ps hy around pc hps m S
  obtain ⟨p, k, q, hp, rfl, hq⟩ := Gen.yields_unit_bind.mp hy
  obtain ⟨hsp, hsq⟩ := standing_append.mp hps
  rw [layOut_append, size_append, ← Nat.add_assoc]
  have hfirst := hx hp hsp m S
  have hgives : Ends host code rounds around.flatten (pc, m.on (take ++ S)) (e m) fun a m' =>
      P a ∧ Reaches host code (pc, m.on (take ++ S))
        (pc + size (layOut p), m'.on (leave a ++ S)) := by
    cases he : e m with
    | done a m' =>
        rw [he] at hfirst
        exact ⟨hP m a m' he, hfirst⟩
    | raised _ _ _ | stopped _ _ | exhausted =>
        rw [he] at hfirst
        exact hfirst
  refine hgives.bind fun a m' ⟨ha, hr⟩ => ?_
  exact (hf a ha hq hsq m' S).after hr fun b m'' hr' => hr.trans hr'

theorem runs_bind {x : Gen Unit} {f : Unit → Gen Unit} {g : α → Eval σ β}
    {leave' : β → List Value} (hx : Runs host code rounds x take e leave)
    (hf : ∀ a, Runs host code rounds (f ()) (leave a) (g a) leave') :
    Runs host code rounds (x >>= f) take (e >>= g) leave' :=
  runs_bind_of hx (fun _ _ _ _ => trivial) fun a (_ : True) => hf a

/-- A part that only moves values about has no counterpart in the tree. -/
theorem runs_then {x : Gen Unit} {f : Unit → Gen Unit} {mid : List Value}
    (hx : Runs host code rounds x take (pure () : Eval σ Unit) fun _ => mid)
    (hf : Runs host code rounds (f ()) mid e leave) :
    Runs host code rounds (x >>= f) take e leave := by
  have h := runs_bind hx fun _ => hf
  rwa [pure_bind] at h

theorem Runs.thenNothing {x : Gen Unit} (hx : Runs host code rounds x take e leave) :
    Runs host code rounds (x >>= fun _ => pure ()) take e leave := by
  have h : Runs host code rounds (x >>= fun _ => pure ()) take (e >>= fun a => pure a) leave :=
    runs_bind hx fun a => runs_pure a rfl
  rwa [bind_pure e] at h

/-- What lies below stays. -/
theorem Runs.frame {x : Gen Unit} (hx : Runs host code rounds x take e leave) (F : List Value) :
    Runs host code rounds x (take ++ F) e fun a => leave a ++ F := by
  intro n n' u ps hy around pc hps m S
  have h := hx hy hps m (F ++ S)
  simpa only [List.append_assoc] using h

/-- What a part gives may be put in another form. -/
theorem Runs.map {x : Gen Unit} (hx : Runs host code rounds x take e leave) (f : α → β)
    {leave' : β → List Value} (hleave : ∀ a, leave' (f a) = leave a) :
    Runs host code rounds x take (e >>= fun a => pure (f a)) leave' := by
  intro n n' u ps hy around pc hps m S
  refine (hx hy hps m S).bind fun a m' hr => ?_
  show Reaches host code _ (_, m'.on (leave' (f a) ++ S))
  rw [hleave]
  exact hr

/-- What is given is known, so something else may be given instead. -/
theorem Runs.map_pure {x : Gen Unit} {a : α} (hx : Runs host code rounds x take (pure a) leave)
    (b : β) : Runs host code rounds x take (pure b) fun _ => leave a := by
  intro n n' u ps hy around pc hps m S
  exact hx hy hps m S

theorem Does.runs {d : Directive} {i : Instruction} (h : Does host code i take e leave)
    (hd : d.instruction? = some i) : Runs host code rounds (Gen.give d) take e leave := by
  intro n n' u ps hy around pc hps m S
  obtain ⟨rfl, -⟩ := Gen.yields_give.mp hy
  obtain ⟨⟨hat, hcov⟩, -⟩ := (standing_instruction hd).mp hps
  have hsize : size (layOut [.give d]) = 1 := by simp [Directive.width, hd]
  rw [hsize]
  exact (h.ends hat hcov m S).imp fun a m' hstep => .single hstep

/-! ## Instructions -/

section Instructions

variable (host : Host σ) (code : Code)

/-- What an operation on values gives is left on the stack. -/
theorem agrees_pushResult (r : Except ValueError Value) (m : Machine σ) (S : List Value) :
    Agrees S (fun v => [v]) ((m.on S).pushResult r) (Eval.ofExcept r m) := by
  cases r with
  | ok v => rfl
  | error e => exact ⟨rfl, rfl⟩

/-- A fresh object that is thrown has a class. -/
theorem agrees_raiseNew (className : String) (m : Machine σ) (S : List Value)
    (leave : α → List Value) :
    Agrees S leave ((m.on S).raiseNew className) (Eval.raiseNew className m) := by
  refine ⟨rfl, rfl, ?_⟩
  simp [classOf?, object?]

theorem does_load (slot : Nat) :
    Does host code ⟨.load, some (.slot slot)⟩ [] (Eval.load slot) fun v => [v] := by
  intro m S
  simp only [List.nil_append, step, Machine.load, Eval.load, on_locals]
  cases m.locals[slot]? with
  | none => exact ⟨rfl, rfl⟩
  | some v => rfl

theorem step_store (slot : Nat) (v : Value) (m : Machine σ) (S : List Value) :
    (m.on ([v] ++ S)).step host code ⟨.store, some (.slot slot)⟩ =
      if slot < m.locals.size then .next ({ m with locals := m.locals.setIfInBounds slot v }.on S)
      else .stop (.defect (.outOfBounds m.locals.size slot)) (m.on S) := rfl

theorem does_store (slot : Nat) (v : Value) :
    Does host code ⟨.store, some (.slot slot)⟩ [v] (Eval.store slot v) fun _ => [] := by
  intro m S
  rw [step_store, Eval.store]
  by_cases hlt : slot < m.locals.size
  · rw [if_pos hlt, if_pos hlt]
    rfl
  · rw [if_neg hlt, if_neg hlt]
    exact ⟨rfl, rfl⟩

/-- The part of a step up or down that is done in place. -/
def stepLocal (slot : Nat) (delta : Int32) : Eval σ Unit := do
  let old ← Eval.load slot
  let new ← Eval.ofExcept (old.increment delta)
  Eval.store slot new

theorem does_increment (slot : Nat) (delta : Int32) :
    Does host code ⟨.inc, some (.increment slot delta)⟩ [] (stepLocal slot delta)
      fun _ => [] := by
  intro m S
  simp only [List.nil_append, step, Machine.increment, on_locals, stepLocal, bind, Eval.load]
  cases hslot : m.locals[slot]? with
  | none => exact ⟨rfl, rfl⟩
  | some old =>
      obtain ⟨hlt, -⟩ := Array.getElem?_eq_some_iff.mp hslot
      simp only
      cases old.increment delta with
      | error e => exact ⟨rfl, rfl⟩
      | ok new =>
          simp only [Eval.ofExcept, pure, Eval.store, if_pos hlt]
          rfl

theorem does_arithmetic (op : Arithmetic) (a b : Value) :
    Does host code ⟨op.opcode, none⟩ [b, a] (Eval.arithmetic op a b) fun v => [v] := by
  intro m S
  have hstep : (m.on ([b, a] ++ S)).step host code ⟨op.opcode, none⟩ =
      (m.on ([b, a] ++ S)).arithmetic op := by
    cases op <;> rfl
  rw [hstep]
  simp only [List.cons_append, List.nil_append, Machine.arithmetic, withTop, on_stack,
    Eval.arithmetic]
  cases Value.arithmetic op a b with
  | error e => exact ⟨rfl, rfl⟩
  | ok result =>
      cases result with
      | none => exact agrees_raiseNew _ m S _
      | some v => rfl

theorem does_getField (name : String) (target : Value) :
    Does host code ⟨.getField, some (.name name)⟩ [target] (Eval.getField target name)
      fun v => [v] := by
  intro m S
  simp only [List.singleton_append, step, Machine.getField, withTop, on_stack]
  cases target with
  | ref address =>
      rw [Eval.getField_ref]
      simp only [on_heap]
      cases m.heap[address]? with
      | none => exact ⟨rfl, rfl⟩
      | some object =>
          simp only
          cases object.fields.lookup name with
          | none => exact ⟨rfl, rfl⟩
          | some v => rfl
  | int _ | long _ | double _ | null => exact agrees_raiseNew "NullPointerException" m S _

theorem does_putField (name : String) (target v : Value) :
    Does host code ⟨.putField, some (.name name)⟩ [v, target] (Eval.putField target name v)
      fun _ => [] := by
  intro m S
  cases target with
  | ref address =>
      let m' := { m with heap := m.heap.modify address fun o =>
        { o with fields := Assoc.insert name v o.fields } }
      have hstep : (m.on ([v, .ref address] ++ S)).step host code ⟨.putField, some (.name name)⟩ =
          if address < m.heap.size then .next (m'.on S)
          else .stop (.defect (.outOfBounds m.heap.size address)) (m.on S) := rfl
      have hput : Eval.putField (.ref address) name v m =
          if address < m.heap.size then .done () m'
          else .stopped (.defect (.outOfBounds m.heap.size address)) m := rfl
      rw [hstep, hput]
      by_cases hlt : address < m.heap.size
      · rw [if_pos hlt, if_pos hlt]
        rfl
      · rw [if_neg hlt, if_neg hlt]
        exact ⟨rfl, rfl⟩
  | int _ | long _ | double _ | null => exact agrees_raiseNew "NullPointerException" m S _

/-- A call finds its arguments on the stack, the last one on top. -/
theorem does_invoke (name : String) (args : List Value) (returns : Bool) :
    Does host code ⟨.invoke, some (.call name args.length returns)⟩ args.reverse
      (Eval.call host name args returns) fun v => if returns then [v] else [] := by
  intro m S
  have hstep : (m.on (args.reverse ++ S)).step host code
      ⟨.invoke, some (.call name args.length returns)⟩ =
        (m.on S).call host name args returns := by
    have htake : (args.reverse ++ S).take args.length = args.reverse := by simp
    have hdrop : (args.reverse ++ S).drop args.length = S := by simp
    simp only [step, invoke, on_stack, htake, hdrop, List.reverse_reverse, List.length_append,
      List.length_reverse]
    rw [if_neg (by omega)]
    rfl
  rw [hstep, Machine.call, Eval.call]
  simp only [on]
  cases host.call m.host name args with
  | none =>
      cases returns
      · rfl
      · exact ⟨rfl, rfl⟩
  | some answer =>
      obtain ⟨answer, state⟩ := answer
      cases answer with
      | returns v =>
          cases returns
          · rfl
          · rfl
      | throws className =>
          exact agrees_raiseNew className
            { m with calls := m.calls.push ⟨name, args⟩, host := state } S _

end Instructions

/-! ## Constants -/

theorem runs_push {v : Value} {i : Instruction}
    (h : ∀ m : Machine σ, m.step host code i = m.push v) :
    Runs host code rounds (Gen.give (.emit i)) [] (pure v) fun v => [v] := by
  refine Does.runs (fun m S => ?_) rfl
  rw [h]
  rfl

theorem runs_pushLong (v : Int64) :
    Runs host code rounds (pushLong v) [] (pure (.long v)) fun v => [v] := by
  rw [pushLong]
  split
  · next hv =>
      subst hv
      exact runs_push fun _ => rfl
  · split
    · next hv =>
        subst hv
        exact runs_push fun _ => rfl
    · exact runs_push fun _ => rfl

/-- Only positive zero has its bits, and only one is equal to one. -/
theorem runs_pushDouble (v : Float) :
    Runs host code rounds (pushDouble v) [] (pure (.double v)) fun v => [v] := by
  rw [pushDouble]
  split
  · next hv =>
      obtain rfl := Double.eq_of_toBits_eq hv
      exact runs_push fun _ => rfl
  · split
    · next hv =>
        obtain rfl := Double.eq_one_of_beq hv
        exact runs_push fun _ => rfl
    · exact runs_push fun _ => rfl

theorem runs_pushOne (ty : Ty) :
    Runs host code rounds (pushOne ty) [] (pure (one ty)) fun v => [v] := by
  cases ty <;> exact runs_push fun _ => rfl

/-! ## Jumps -/

section Jumps

variable {m : Machine σ} {pc dest : Nat} {l : Label}

theorem onward_goto (host : Host σ) (m : Machine σ)
    (hat : code.instructions[pc]? = some ⟨.goto, some (.label l)⟩)
    (hl : code.position l = some dest) : Onward host code (pc, m) (dest, m) := by
  show m.advance host code pc = _
  rw [advance, hat]
  simp [step, Machine.branch, goTo, hl]

/-- A value is tested for being zero, or for not being so. -/
theorem onward_branchIfZero {opcode : Opcode} {zero : Bool} (v : Value) (S : List Value)
    (hop : ∀ m : Machine σ, m.step host code ⟨opcode, some (.label l)⟩ =
      m.branchIfZero code ⟨opcode, some (.label l)⟩ zero)
    (hat : code.instructions[pc]? = some ⟨opcode, some (.label l)⟩)
    (hl : code.position l = some dest) :
    Onward host code (pc, m.on (v :: S)) (if v.isZero = zero then dest else pc + 1, m.on S) := by
  show (m.on (v :: S)).advance host code pc = _
  rw [advance, hat]
  simp only [hop, branchIfZero, withTop, on_stack, Machine.branch, goTo, hl]
  generalize v.isZero = isZero
  cases isZero <;> cases zero <;> rfl

/-- Two values are compared. If they cannot be, everything stops. -/
theorem advance_branchIf {opcode : Opcode} {c : Comparison} (a b : Value) (S : List Value)
    (hop : ∀ m : Machine σ, m.step host code ⟨opcode, some (.label l)⟩ =
      m.branchIf code ⟨opcode, some (.label l)⟩ c)
    (hat : code.instructions[pc]? = some ⟨opcode, some (.label l)⟩)
    (hl : code.position l = some dest) :
    (m.on (b :: a :: S)).advance host code pc = match Value.compare c a b with
      | .ok holds => .onward (if holds then dest else pc + 1) (m.on S)
      | .error e => .ended (.stopped (.value e)) (m.on S) := by
  rw [advance, hat]
  simp only [hop, branchIf, withTop, on_stack, Machine.branch, goTo, hl]
  cases Value.compare c a b with
  | error e => rfl
  | ok holds => cases holds <;> rfl

end Jumps

/-- A run jumps if a truth is as wanted and goes on otherwise. -/
structure Lands (host : Host σ) (code : Code) (c : Nat × Machine σ) (dest next : Nat)
    (onTrue truth : Bool) (m : Machine σ) : Prop where
  jumps : truth = onTrue → Proceeds host code c (dest, m)
  goesOn : truth = !onTrue → Reaches host code c (next, m)

theorem Lands.after {c c' : Nat × Machine σ} {dest next : Nat} {onTrue truth : Bool}
    {m : Machine σ} (hr : Reaches host code c c')
    (h : Lands host code c' dest next onTrue truth m) :
    Lands host code c dest next onTrue truth m :=
  ⟨fun htruth => .trans_right hr (h.jumps htruth), fun htruth => hr.trans (h.goesOn htruth)⟩

section Tests

variable (host : Host σ) (code : Code) (rounds : Nat)

/-- What a step of generation gives runs as a part of the tree that has a truth: it jumps
if the truth is as given and comes to its end otherwise. -/
def Tests (x : Gen Unit) (target : Label) (onTrue : Bool) (e : Eval σ Bool) : Prop :=
  ∀ ⦃n n' : Nat⦄ ⦃u : Unit⦄ ⦃ps : List Piece⦄, x.Yields n u ps n' →
    ∀ ⦃around : List Guard⦄ ⦃pc : Nat⦄, Standing code around pc ps →
      ∀ ⦃dest : Nat⦄, code.position target = some dest →
        ∀ (m : Machine σ) (S : List Value),
          Ends host code rounds around.flatten (pc, m.on S) (e m) fun truth m' =>
            Lands host code (pc, m.on S) dest (pc + size (layOut ps)) onTrue truth (m'.on S)

/-- The two codes of an expression run as it is read. -/
structure Means (c : ExprCode) (reading : Reading σ) : Prop where
  value : Runs host code rounds c.value [] reading.value fun v => [v]
  branch : ∀ target onTrue,
    Tests host code rounds (c.branch target onTrue) target onTrue (reading.test onTrue)

end Tests

theorem means_ofValue {value : Gen Unit} {e : Eval σ Value}
    (hv : Runs host code rounds value [] e fun v => [v]) :
    Means host code rounds (.ofValue value) (.ofValue e) := by
  refine ⟨hv, fun target onTrue n n' u ps hy around pc hps dest hdest m S => ?_⟩
  obtain ⟨first, hfirst, rfl⟩ := yields_ofValue_branch hy
  obtain ⟨hsf, hsj⟩ := standing_append.mp hps
  obtain ⟨⟨hat, -⟩, -⟩ := standing_emit.mp hsj
  refine (hv hfirst hsf m S).bind fun v m' hr => ?_
  have hjump : Onward host code (pc + size (layOut first), m'.on (v :: S))
      (if v.isZero = !onTrue then dest else pc + size (layOut first) + 1, m'.on S) := by
    cases onTrue
    · exact onward_branchIfZero v S (fun _ => rfl) hat hdest
    · exact onward_branchIfZero v S (fun _ => rfl) hat hdest
  have hsize : size (layOut (first ++ [.give (.emit
      ⟨if onTrue then .ifNe else .ifEq, some (.label target)⟩)])) = size (layOut first) + 1 := by
    simp [layOut_append]
  rw [hsize]
  refine ⟨fun htruth => ?_, fun htruth => ?_⟩
  · rw [if_pos (by simpa using htruth)] at hjump
    exact .tail' hr hjump
  · rw [if_neg (by simpa using htruth)] at hjump
    exact hr.tail hjump

theorem does_pushInt (v : Int32) :
    Does host code ⟨.push, some (.int v)⟩ [] (pure (.int v) : Eval σ Value) fun v => [v] :=
  fun _ _ => rfl

/-- The code of a truth value jumps if that is the wanted one, without looking. -/
theorem means_bool (v : Bool) :
    Means host code rounds
      { value := Gen.emitWith .push (.int (if v then 1 else 0))
        branch := fun target onTrue => if v == onTrue then Gen.jump .goto target else pure () }
      ({ value := pure (ofBool v), test := fun _ => pure v } : Reading σ) := by
  refine ⟨runs_push fun _ => rfl, fun target onTrue n n' u ps hy around pc hps dest hdest m S => ?_⟩
  simp only at hy
  by_cases hv : v = onTrue
  · rw [if_pos (beq_iff_eq.mpr hv)] at hy
    obtain ⟨rfl, -⟩ := Gen.yields_give.mp hy
    obtain ⟨⟨hat, -⟩, -⟩ := standing_emit.mp hps
    refine ⟨fun _ => .single (onward_goto host (m.on S) hat hdest), fun hne => ?_⟩
    simp [hv] at hne
  · rw [if_neg (by simp [hv])] at hy
    obtain ⟨-, rfl, -⟩ := Gen.yields_pure.mp hy
    exact ⟨fun heq => (hv heq).elim, fun _ => .refl⟩

/-- On one way the code pushes one and jumps over the other way, which pushes zero. -/
theorem means_ofBranch {branch : Label → Bool → Gen Unit} {test : Bool → Eval σ Bool}
    (hb : ∀ target onTrue,
      Tests host code rounds (branch target onTrue) target onTrue (test onTrue)) :
    Means host code rounds (.ofBranch branch) (.ofTest test) := by
  refine ⟨fun n n' u ps hy around pc hps m S => ?_, hb⟩
  obtain ⟨first, hfirst, rfl⟩ := yields_ofBranch_value hy
  simp only [standing_append, standing_created, standing_emit, standing_place, standing_nil,
    layOut_append, size_append, size_created, true_and, and_true, Nat.zero_add, Nat.add_zero] at hps
  obtain ⟨hsf, ⟨hone, -⟩, ⟨hgoto, -⟩, hfalse, ⟨hzero, -⟩, hdone⟩ := hps
  refine (hb n false hfirst hsf hfalse m S).bind fun truth m' hr => ?_
  have hsize : size (layOut (created n 2 ++ first ++
      [.give (.emit ⟨.push, some (.int 1)⟩), .give (.emit ⟨.goto, some (.label (n + 1))⟩),
        .give (.place n), .give (.emit ⟨.push, some (.int 0)⟩), .give (.place (n + 1))])) =
      size (layOut first) + 3 := by
    simp [layOut_append]
  rw [hsize]
  cases truth with
  | false =>
      have hpush : Onward host code _ _ := (does_pushInt 0).onward hzero m' rfl S
      exact (hr.jumps rfl).to_reflTransGen.tail hpush
  | true =>
      have hpush : Onward host code _ _ := (does_pushInt 1).onward hone m' rfl S
      have hjump := onward_goto host (m'.on (.int 1 :: S)) hgoto hdone
      exact ((hr.goesOn rfl).tail hpush).tail hjump

/-! ## Operators -/

/-- Code may jump over code that follows it. -/
theorem standing_skipping {around : List Guard} {pc n : Nat} {p q : List Piece}
    (h : Standing code around pc (created n 1 ++ p ++ q ++ [.give (.place n)])) :
    Standing code around pc p ∧ Standing code around (pc + size (layOut p)) q ∧
      code.position n = some (pc + size (layOut p) + size (layOut q)) ∧
      size (layOut (created n 1 ++ p ++ q ++ [.give (.place n)])) =
        size (layOut p) + size (layOut q) := by
  simp only [standing_append, standing_created, standing_place, standing_nil, layOut_append,
    size_append, size_created, true_and, and_true, Nat.zero_add, Nat.add_zero,
    ← Nat.add_assoc] at h
  obtain ⟨⟨hp, hq⟩, hn⟩ := h
  exact ⟨hp, hq, hn, by simp [layOut_append]⟩

theorem both_eq (l r : Reading σ) (onTrue : Bool) : l.both r onTrue =
    (do if (← l.test false) = false then return false else r.test onTrue) := by
  refine congrArg (l.test false >>= ·) (funext fun truth => ?_)
  cases truth <;> rfl

theorem tests_shortCircuit (decisive : Bool) {left right : ExprCode} {l r : Reading σ}
    (hl : Means host code rounds left l) (hr : Means host code rounds right r) (target : Label)
    (onTrue : Bool) :
    Tests host code rounds (shortCircuit decisive left right target onTrue) target onTrue
      (do if (← l.test decisive) = decisive then return decisive else r.test onTrue) := by
  intro n n' u ps hy around pc hps dest hdest m S
  obtain rfl | hne := Decidable.em (onTrue = decisive)
  · obtain ⟨p, k, q, hp, hq, rfl⟩ := yields_shortCircuit_direct hy
    obtain ⟨hsp, hsq⟩ := standing_append.mp hps
    rw [layOut_append, size_append, ← Nat.add_assoc]
    refine (hl.branch target onTrue hp hsp hdest m S).bind fun truth m' h => ?_
    split
    · next heq => exact ⟨fun _ => h.jumps heq, by simp⟩
    · next hne =>
        exact (hr.branch target onTrue hq hsq hdest m' S).after (h.goesOn (Bool.eq_not.mpr hne))
          fun _ _ h' => h'.after (h.goesOn (Bool.eq_not.mpr hne))
  · obtain ⟨p, k, q, hp, hq, rfl⟩ := yields_shortCircuit_skipping hne hy
    obtain ⟨hsp, hsq, hskip, hsize⟩ := standing_skipping hps
    rw [hsize, ← Nat.add_assoc]
    refine (hl.branch n decisive hp hsp hskip m S).bind fun truth m' h => ?_
    split
    · next heq => exact ⟨fun heq' => absurd heq'.symm hne, fun _ => (h.jumps heq).to_reflTransGen⟩
    · next hne' =>
        exact (hr.branch target onTrue hq hsq hdest m' S).after (h.goesOn (Bool.eq_not.mpr hne'))
          fun _ _ h' => h'.after (h.goesOn (Bool.eq_not.mpr hne'))

theorem tests_notBranch {operand : ExprCode} {r : Reading σ}
    (h : Means host code rounds operand r) (target : Label) (onTrue : Bool) :
    Tests host code rounds (operand.branch target (!onTrue)) target onTrue
      (do return !(← r.test (!onTrue))) := by
  intro n n' u ps hy around pc hps dest hdest m S
  refine (h.branch target (!onTrue) hy hps hdest m S).bind fun truth m' h => ?_
  refine ⟨fun htruth => h.jumps ?_, fun htruth => h.goesOn ?_⟩
  · simp [← htruth]
  · simpa using htruth

/-! ## Comparisons -/

/-- The opcode of a comparison compares, and so does the one of its opposite. -/
theorem step_comparison (host : Host σ) (code : Code) {op : BinaryOp} {opcode : Opcode}
    (hop : comparison? op = some opcode) :
    ∃ c, relation? op = some c ∧
      (∀ l (m : Machine σ), m.step host code ⟨opcode, some (.label l)⟩ =
        m.branchIf code ⟨opcode, some (.label l)⟩ c) ∧
      ∀ opposite, opcode.negate? = some opposite →
        ∀ l (m : Machine σ), m.step host code ⟨opposite, some (.label l)⟩ =
          m.branchIf code ⟨opposite, some (.label l)⟩ c.opposite := by
  cases op <;> simp only [comparison?, Option.some.injEq, reduceCtorEq] at hop <;> subst hop <;>
    refine ⟨_, rfl, fun _ _ => rfl, fun opposite hneg => ?_⟩ <;>
    obtain rfl := Option.some.inj hneg <;> exact fun _ _ => rfl

/-- Two values on the stack are compared and the code jumps if the comparison holds. -/
theorem ends_branchIf {opcode : Opcode} {c : Comparison} {l : Label} {pc dest : Nat} {gs : Guard}
    (hop : ∀ m : Machine σ, m.step host code ⟨opcode, some (.label l)⟩ =
      m.branchIf code ⟨opcode, some (.label l)⟩ c)
    (hat : code.instructions[pc]? = some ⟨opcode, some (.label l)⟩)
    (hl : code.position l = some dest) (a b : Value) (m : Machine σ) (S : List Value) :
    Ends host code rounds gs (pc, m.on (b :: a :: S))
      (Eval.ofExcept (Value.compare c a b) m) fun truth m' =>
        Lands host code (pc, m.on (b :: a :: S)) dest (pc + 1) true truth (m'.on S) := by
  have hadvance := advance_branchIf (m := m) a b S hop hat hl
  cases hc : Value.compare c a b with
  | error e =>
      rw [hc] at hadvance
      exact ⟨S, .here hadvance⟩
  | ok truth =>
      rw [hc] at hadvance
      have honward : Onward host code (pc, m.on (b :: a :: S))
          (if truth then dest else pc + 1, m.on S) := hadvance
      cases truth with
      | true => exact ⟨fun _ => .single honward, nofun⟩
      | false => exact ⟨nofun, fun _ => .single honward⟩

theorem ends_ofExcept_map {gs : Guard} {c : Nat × Machine σ} {r : Except ValueError α} {f : α → β}
    {m : Machine σ} {K : α → Machine σ → Prop} {K' : β → Machine σ → Prop}
    (h : Ends host code rounds gs c (Eval.ofExcept r m) K) (hK : ∀ a m, K a m → K' (f a) m) :
    Ends host code rounds gs c (Eval.ofExcept (r.map f) m) K' := by
  cases r with
  | error e => exact h
  | ok a => exact hK a m h

/-- A comparison is tested for being false by its opposite, or, on doubles, by a jump over
the jump. -/
theorem ends_compareJump (rounds : Nat) {op : BinaryOp} {opcode : Opcode} {ty : Ty}
    {target : Label} {n n' : Nat} {onTrue : Bool} {jump : List Piece}
    (hop : comparison? op = some opcode)
    (hjump : CompareJump opcode ty target n onTrue jump n') {around : List Guard} {pc dest : Nat}
    (hps : Standing code around pc jump) (hdest : code.position target = some dest) (a b : Value)
    (m : Machine σ) (S : List Value) :
    ∃ c, relation? op = some c ∧
      Ends host code rounds around.flatten (pc, m.on (b :: a :: S))
        (Eval.ofExcept (tested ty onTrue c a b) m) fun truth m' =>
          Lands host code (pc, m.on (b :: a :: S)) dest (pc + size (layOut jump)) onTrue truth
            (m'.on S) := by
  obtain ⟨c, hc, hstep, hopposite⟩ := step_comparison host code hop
  refine ⟨c, hc, ?_⟩
  cases hjump with
  | holds =>
      obtain ⟨⟨hat, -⟩, -⟩ := standing_emit.mp hps
      rw [tested_true]
      exact ends_branchIf (hstep target) hat hdest a b m S
  | fails hty hneg =>
      obtain ⟨⟨hat, -⟩, -⟩ := standing_emit.mp hps
      rw [tested_false hty]
      refine ends_ofExcept_map (ends_branchIf (hopposite _ hneg target) hat hdest a b m S) ?_
      intro truth m' h
      exact ⟨fun ht => h.jumps (by simpa using ht), fun ht => h.goesOn (by simpa using ht)⟩
  | failsOnDoubles hty =>
      subst hty
      simp only [standing_append, standing_created, standing_emit, standing_place, standing_nil,
        size_created, true_and, and_true, Nat.add_zero] at hps
      obtain ⟨⟨hat, -⟩, ⟨hgoto, -⟩, hskip⟩ := hps
      have hsize : size (layOut (created n 1 ++ [.give (.emit ⟨opcode, some (.label n)⟩),
          .give (.emit ⟨.goto, some (.label target)⟩), .give (.place n)])) = 2 := by
        simp [layOut_append]
      rw [tested_double, hsize]
      refine (ends_branchIf (hstep n) hat hskip a b m S).imp fun truth m' h => ?_
      have hgo := onward_goto host (m'.on S) hgoto hdest
      exact ⟨fun ht => .tail' (h.goesOn ht) hgo, fun ht => (h.jumps ht).to_reflTransGen⟩

theorem tests_compareBranch {op : BinaryOp} {ty : Ty} {left right : Gen Unit} {l r : Eval σ Value}
    (hl : Runs host code rounds left [] l fun v => [v])
    (hr : Runs host code rounds right [] r fun v => [v]) (target : Label) (onTrue : Bool) :
    Tests host code rounds (compareBranch op ty left right target onTrue) target onTrue
      (compare tested op ty l r onTrue) := by
  intro n n' u ps hy around pc hps dest hdest m S
  obtain ⟨p, k, q, k', opcode, jump, hp, hq, hop, hjump, rfl⟩ := yields_compareBranch hy
  obtain ⟨hspq, hsj⟩ := standing_append.mp hps
  obtain ⟨hsp, hsq⟩ := standing_append.mp hspq
  simp only [layOut_append, size_append, ← Nat.add_assoc] at hsj ⊢
  refine (hl hp hsp m S).bind fun a m₁ hreach => ?_
  refine Ends.bind ((hr.frame [a] hq hsq m₁ S).after hreach fun b m₂ hb => hreach.trans hb) ?_
  intro b m₂ hreach'
  obtain ⟨c, hc, hends⟩ := ends_compareJump rounds hop hjump hsj hdest a b m₂ S
  rw [hc]
  exact hends.after hreach' fun truth m' h => h.after hreach'

/-! ## Stores, steps and calls -/

theorem does_dup (v : Value) :
    Does host code ⟨.dup, none⟩ [v] (pure () : Eval σ Unit) fun _ => [v, v] :=
  fun _ _ => rfl

theorem does_dupX1 (b a : Value) :
    Does host code ⟨.dupX1, none⟩ [b, a] (pure () : Eval σ Unit) fun _ => [b, a, b] :=
  fun _ _ => rfl

theorem runs_assignSlot {value : Gen Unit} {e : Eval σ Value}
    (hv : Runs host code rounds value [] e fun v => [v]) (slot : Nat) (used : Bool) :
    Runs host code rounds (do
      value
      Gen.emitIf used ⟨.dup, none⟩
      Gen.emitWith .store (.slot slot)) []
      (do
        let v ← e
        Eval.store slot v
        return v)
      fun v => if used then [v] else [] := by
  refine runs_bind hv fun v => ?_
  have hstore : Runs host code rounds (Gen.emitWith .store (.slot slot)) [v]
      (Eval.store slot v) fun _ => [] := (does_store host code slot v).runs rfl
  cases used
  · exact runs_then (runs_pure () rfl) (hstore.map (fun _ => v) fun _ => rfl)
  · exact runs_then ((does_dup v).runs rfl) ((hstore.frame [v]).map (fun _ => v) fun _ => rfl)

theorem runs_assignField {target value : Gen Unit} {t e : Eval σ Value}
    (ht : Runs host code rounds target [] t fun v => [v])
    (hv : Runs host code rounds value [] e fun v => [v]) (name : String) (used : Bool) :
    Runs host code rounds (do
      target
      value
      Gen.emitIf used ⟨.dupX1, none⟩
      Gen.emitWith .putField (.name name)) []
      (do
        let object ← t
        let v ← e
        Eval.putField object name v
        return v)
      fun v => if used then [v] else [] := by
  refine runs_bind ht fun o => runs_bind (hv.frame [o]) fun v => ?_
  have hput : Runs host code rounds (Gen.emitWith .putField (.name name)) [v, o]
      (Eval.putField o name v) fun _ => [] := (does_putField host code name o v).runs rfl
  cases used
  · exact runs_then (runs_pure () rfl) (hput.map (fun _ => v) fun _ => rfl)
  · exact runs_then ((does_dupX1 v o).runs rfl) ((hput.frame [v]).map (fun _ => v) fun _ => rfl)

/-- If nothing is left, what a part gives does not matter. -/
theorem Runs.of_discard {x : Gen Unit} {L : List Value}
    (hx : Runs host code rounds x take (e >>= fun _ => pure ()) fun _ => L) :
    Runs host code rounds x take e fun _ => L := by
  intro n n' u ps hy around pc hps m S
  have h := hx hy hps m S
  simp only [bind] at h
  cases he : e m <;> rw [he] at h <;> exact h

theorem load_load (slot : Nat) (f : Value → Value → Eval σ α) :
    (do
      let a ← Eval.load slot
      let b ← Eval.load slot
      f a b) = (do
      let a ← Eval.load slot
      f a a) := by
  funext m
  simp only [bind, Eval.load]
  cases hslot : m.locals[slot]? with
  | none => rfl
  | some v => simp [hslot]

theorem store_load (slot : Nat) (v : Value) :
    (do
      Eval.store slot v
      Eval.load slot : Eval σ Value) = (do
      Eval.store slot v
      return v) := by
  funext m
  simp only [bind, Eval.load, Eval.store]
  by_cases hlt : slot < m.locals.size
  · simp [hlt, pure]
  · simp [hlt]

/-- A local steps in place. Its old value is read before and its new value after that. -/
theorem runs_incrementSlot (op : UpdateOp) (slot : Nat) (used : Bool) :
    Runs host code rounds (incrementSlot op slot used) []
      (do
        let old ← Eval.load slot
        let new ← Eval.ofExcept (old.increment op.delta)
        Eval.store slot new
        return if op.givesOldValue then old else new : Eval σ Value)
      fun v => if used then [v] else [] := by
  have hload : Runs host code rounds (Gen.give (.emit ⟨.load, some (.slot slot)⟩)) []
      (Eval.load slot) fun v => [v] := (does_load host code slot).runs rfl
  have hinc : Runs host code rounds (Gen.emitWith .inc (.increment slot op.delta)) []
      (stepLocal slot op.delta) fun _ => [] := (does_increment host code slot op.delta).runs rfl
  rw [incrementSlot]
  cases used with
  | false =>
      refine Runs.of_discard (runs_then (runs_pure () rfl) ?_)
      have hrun : Runs host code rounds
          (Gen.emitWith .inc (.increment slot op.delta) >>= fun _ => pure ()) []
          (stepLocal slot op.delta >>= fun _ => pure ()) fun _ => [] :=
        runs_bind hinc fun _ => runs_pure () rfl
      simpa [stepLocal, Gen.emitIf] using hrun
  | true =>
      cases op.givesOldValue with
      | true =>
          have hrun : Runs host code rounds
              (Gen.give (.emit ⟨.load, some (.slot slot)⟩) >>= fun _ =>
                Gen.emitWith .inc (.increment slot op.delta) >>= fun _ => pure ()) []
              (Eval.load slot >>= fun old => stepLocal slot op.delta >>= fun _ => pure old)
              fun v => [v] := by
            refine runs_bind hload fun old => runs_bind (hinc.frame [old]) fun _ => ?_
            exact runs_pure old rfl
          simpa [stepLocal, load_load, Gen.emitIf] using hrun
      | false =>
          have hrun : Runs host code rounds
              (Gen.emitWith .inc (.increment slot op.delta) >>= fun _ =>
                Gen.give (.emit ⟨.load, some (.slot slot)⟩)) []
              (stepLocal slot op.delta >>= fun _ => Eval.load slot) fun v => [v] :=
            runs_bind hinc fun _ => hload
          refine runs_then (runs_pure () rfl) ?_
          simpa [stepLocal, store_load, Gen.emitIf] using hrun

/-- A field steps on the stack. The value that is wanted is put under the object. -/
theorem runs_incrementField (op : UpdateOp) (ty : Ty) {target : Gen Unit} {t : Eval σ Value}
    (ht : Runs host code rounds target [] t fun v => [v]) (name : String) (used : Bool) :
    Runs host code rounds (incrementField op ty target name used) []
      (do
        let object ← t
        let old ← Eval.getField object name
        let new ← Eval.arithmetic (if 0 < op.delta then .add else .sub) old (one ty)
        Eval.putField object name new
        return if op.givesOldValue then old else new)
      fun v => if used then [v] else [] := by
  have hget (o : Value) : Runs host code rounds (Gen.emitWith .getField (.name name)) [o]
      (Eval.getField o name) fun v => [v] := (does_getField host code name o).runs rfl
  have hstep (old : Value) (F : List Value) : Runs host code rounds
      (Gen.emit (if 0 < op.delta then .add else .sub)) ([one ty, old] ++ F)
      (Eval.arithmetic (if 0 < op.delta then .add else .sub) old (one ty))
      fun v => [v] ++ F := by
    refine Runs.frame ?_ F
    split
    · exact (does_arithmetic host code .add old (one ty)).runs rfl
    · exact (does_arithmetic host code .sub old (one ty)).runs rfl
  have hone (F : List Value) : Runs host code rounds (pushOne ty) F (pure () : Eval σ Unit)
      fun _ => one ty :: F := by
    have h : Runs host code rounds (pushOne ty) [] (pure () : Eval σ Unit) fun _ => [one ty] :=
      (runs_pushOne ty).map_pure ()
    exact h.frame F
  have hput (o v : Value) : Runs host code rounds (Gen.emitWith .putField (.name name)) [v, o]
      (Eval.putField o name v) fun _ => [] := (does_putField host code name o v).runs rfl
  have hsave (wanted : Bool) (v o : Value) (F : List Value) : Runs host code rounds
      (Gen.emitIf wanted ⟨.dupX1, none⟩) ([v, o] ++ F) (pure () : Eval σ Unit)
      fun _ => [v, o] ++ ((if wanted then [v] else []) ++ F) := by
    cases wanted
    · exact runs_pure () rfl
    · exact ((does_dupX1 v o).runs rfl).frame F
  rw [incrementField]
  refine runs_bind ht fun o => runs_then ((does_dup o).runs rfl) ?_
  refine runs_bind ((hget o).frame [o]) fun old => ?_
  refine runs_then (hsave (used && op.givesOldValue) old o []) (runs_then (hone _) ?_)
  refine runs_bind (hstep old _) fun new => ?_
  refine runs_then (hsave (used && !op.givesOldValue) new o _) ?_
  refine ((hput o new).frame _).map _ fun _ => ?_
  cases used <;> cases op.givesOldValue <;> rfl

theorem does_new (className : String) :
    Does host code ⟨.new, some (.name className)⟩ []
      (Eval.allocate className : Eval σ Value) fun v => [v] :=
  fun _ _ => rfl

/-- An instruction that replaces the value on top of the stack. -/
theorem does_replace {opcode : Opcode} {f : Value → Except ValueError Value}
    (hop : ∀ m : Machine σ, m.step host code ⟨opcode, none⟩ =
      m.withTop fun v m => m.pushResult (f v)) (v : Value) :
    Does host code ⟨opcode, none⟩ [v] (Eval.ofExcept (f v)) fun v => [v] := by
  intro m S
  rw [hop]
  exact agrees_pushResult (f v) m S

theorem runs_widening (source target : Ty) (v : Value) :
    Runs host code rounds
      (match widening? source target with
        | some opcode => Gen.emit opcode
        | none => Gen.fail (.noWidening source target)) [v]
      (Eval.widen source target v) fun v => [v] := by
  fun_cases widening? source target with
  | case1 => exact (does_replace (fun _ => rfl) v).runs rfl
  | case2 => exact (does_replace (fun _ => rfl) v).runs rfl
  | case3 => exact (does_replace (fun _ => rfl) v).runs rfl
  | case4 => exact runs_fail

theorem runs_operation {left right : Gen Unit} {l r : Eval σ Value}
    (hl : Runs host code rounds left [] l fun v => [v])
    (hr : Runs host code rounds right [] r fun v => [v]) (op : Arithmetic) :
    Runs host code rounds (do
      left
      right
      Gen.emit op.opcode) []
      (do
        let a ← l
        let b ← r
        Eval.arithmetic op a b)
      fun v => [v] := by
  refine runs_bind hl fun a => runs_bind (hr.frame [a]) fun b => ?_
  exact (does_arithmetic host code op a b).runs rfl

/-- The bits of a number are turned by an xor with minus one. -/
theorem runs_bitwiseNot (ty : Ty) (v : Value) :
    Runs host code rounds (applyUnary .bitwiseNot ty) [v]
      (Eval.arithmetic .xor v (if ty = .long then .long (-1) else .int (-1))) fun v => [v] := by
  have hpush : Runs host code rounds
      (Gen.emitWith .push (if ty = .long then .long (-1) else .int (-1))) [v]
      (pure () : Eval σ Unit) fun _ => [if ty = .long then .long (-1) else .int (-1), v] := by
    split
    · exact ((runs_push fun _ => rfl).map_pure ()).frame [v]
    · exact ((runs_push fun _ => rfl).map_pure ()).frame [v]
  exact runs_then hpush ((does_arithmetic host code .xor v _).runs rfl)

theorem runs_call {args : Gen Unit} {vs : Eval σ (List Value)} {argc : Nat}
    (hargs : Runs host code rounds args [] vs fun vs => vs.reverse)
    (hlength : Gives vs fun vs => vs.length = argc) (name : String) (returns : Bool) :
    Runs host code rounds (do
      args
      Gen.emitWith .invoke (.call name argc returns)) []
      (do Eval.call host name (← vs) returns)
      fun v => if returns then [v] else [] := by
  refine runs_bind_of hargs hlength fun vs hvs => ?_
  subst hvs
  exact (does_invoke host code name vs returns).runs rfl

/-! ## Expressions -/

/-- A sequence gives what its last part gives. -/
theorem Gives.bind {e : Eval σ α} {f : α → Eval σ β} {P : α → Prop} {Q : β → Prop}
    (he : Gives e P) (hf : ∀ a, P a → Gives (f a) Q) : Gives (e >>= f) Q := by
  intro m b m' h
  simp only [Bind.bind] at h
  cases hem : e m with
  | done a m₁ =>
      rw [hem] at h
      exact hf a (he m a m₁ hem) m₁ b m' h
  | raised _ _ _ | stopped _ _ | exhausted =>
      rw [hem] at h
      cases h

theorem gives_exprs (cmp : Comparing) (es : List Expr) :
    Gives (exprs cmp host es) fun vs => vs.length = es.length := by
  induction es with
  | nil =>
      intro m vs m' h
      obtain ⟨rfl, -⟩ := Result.done.inj h
      rfl
  | cons e rest ih =>
      refine Gives.bind (P := fun _ => True) (fun _ _ _ _ => trivial) fun v _ => ?_
      refine Gives.bind ih fun vs hvs m ws m' h => ?_
      obtain ⟨rfl, -⟩ := Result.done.inj h
      simp [hvs]

mutual

/-- The codes of an expression without void parts, whose value is wanted, run as it is
read. -/
theorem means_exprCode (e : Expr) (hs : e.Sound true) (ht : e.Types (· ≠ .void)) :
    Means host code rounds (exprCode e) (expr tested host e) := by
  match e with
  | .int _ v => exact means_ofValue (runs_push fun _ => rfl)
  | .long _ v => exact means_ofValue (runs_pushLong v)
  | .double _ v => exact means_ofValue (runs_pushDouble v)
  | .bool _ v => exact means_bool v
  | .null _ => exact means_ofValue (runs_push fun _ => rfl)
  | .slot _ slot => exact means_ofValue ((does_load host code slot).runs rfl)
  | .field _ target name =>
      have ih := means_exprCode target hs ht.2
      exact means_ofValue (runs_bind ih.value fun o => (does_getField host code name o).runs rfl)
  | .widen ty inner =>
      have ih := means_exprCode inner hs.2 ht.2
      exact means_ofValue (runs_bind ih.value fun v => runs_widening inner.ty ty v)
  | .assign _ (.slot slot) value used =>
      obtain ⟨rfl, hs⟩ := hs
      exact means_ofValue (runs_assignSlot (means_exprCode value hs ht.2).value slot true)
  | .assign _ (.field target name) value used =>
      obtain ⟨rfl, hst, hsv⟩ := hs
      obtain ⟨-, htt, htv⟩ := ht
      have iht := means_exprCode target hst htt
      have ihv := means_exprCode value hsv htv
      exact means_ofValue (runs_assignField iht.value ihv.value name true)
  | .binary _ op left right =>
      obtain ⟨hsl, hsr⟩ := hs
      obtain ⟨-, htl, htr⟩ := ht
      have ihl := means_exprCode left hsl htl
      have ihr := means_exprCode right hsr htr
      match op with
      | .logicalAnd =>
          refine means_ofBranch fun target onTrue => ?_
          rw [both_eq]
          exact tests_shortCircuit false ihl ihr target onTrue
      | .logicalOr => exact means_ofBranch (tests_shortCircuit true ihl ihr)
      | .add => exact means_ofValue (runs_operation ihl.value ihr.value .add)
      | .subtract => exact means_ofValue (runs_operation ihl.value ihr.value .sub)
      | .multiply => exact means_ofValue (runs_operation ihl.value ihr.value .mul)
      | .divide => exact means_ofValue (runs_operation ihl.value ihr.value .div)
      | .modulo => exact means_ofValue (runs_operation ihl.value ihr.value .rem)
      | .equal | .notEqual | .lessThan | .lessThanEqual | .greaterThan | .greaterThanEqual =>
          exact means_ofBranch (tests_compareBranch ihl.value ihr.value)
  | .unary _ op operand =>
      have ih := means_exprCode operand hs ht.2
      match op with
      | .logicalNot => exact means_ofBranch (tests_notBranch ih)
      | .minus =>
          refine means_ofValue (runs_bind ih.value fun v => ?_)
          exact (does_replace (fun _ => rfl) v).runs rfl
      | .plus => exact means_ofValue ih.value.thenNothing
      | .bitwiseNot => exact means_ofValue (runs_bind ih.value (runs_bitwiseNot operand.ty))
  | .increment _ op (.slot slot) used =>
      obtain rfl : used = true := hs
      exact means_ofValue (runs_incrementSlot op slot true)
  | .increment ty op (.field target name) used =>
      obtain ⟨rfl, hs⟩ := hs
      have ih := means_exprCode target hs ht.2
      exact means_ofValue (runs_incrementField op ty ih.value name true)
  | .call ty name args =>
      have hvoid : (ty != .void) = true := bne_iff_ne.mpr ht.1
      have hrun := runs_call (runs_argsCode args hs ht.2) (gives_exprs tested args) name
        (ty != .void)
      simp only [hvoid, if_true] at hrun
      simp only [exprCode, expr, hvoid]
      exact means_ofValue hrun
  | .new _ className => exact means_ofValue ((does_new className).runs rfl)
  | .error _ => exact hs.elim
termination_by structural e

/-- The values of arguments are left on the stack, the last one on top. -/
theorem runs_argsCode (es : List Expr) (hs : Expr.AllSound es)
    (ht : Expr.AllTypes (· ≠ .void) es) :
    Runs host code rounds (argsCode es) [] (exprs tested host es) fun vs => vs.reverse := by
  match es with
  | [] => exact runs_pure [] rfl
  | e :: rest =>
      refine runs_bind (means_exprCode e hs.1 ht.1).value fun v => ?_
      refine ((runs_argsCode rest hs.2 ht.2).frame [v]).map (v :: ·) fun vs => ?_
      exact List.reverse_cons
termination_by structural es

end

theorem runs_value {e : Expr} (hs : e.Sound true) (ht : e.Types (· ≠ .void))
    (hleaves : Typing.leavesValue e = (e.ty != .void)) :
    Runs host code rounds (value e) [] (expr tested host e).value
      fun v => if Typing.leavesValue e then [v] else [] := by
  have hvoid : e.ty ≠ .void := types_ty ht
  rw [hleaves, bne_iff_ne.mpr hvoid]
  exact (means_exprCode e hs ht).value

/-- An expression that is a statement leaves a value only if there is one to drop. -/
theorem runs_unused {e : Expr} (hs : e.Sound false)
    (ht : e.Types (· ≠ .void) ∨ ∃ name args, e = .call .void name args ∧
      Expr.AllTypes (· ≠ .void) args) :
    Runs host code rounds (value e) [] (expr tested host e).value
      fun v => if Typing.leavesValue e then [v] else [] := by
  obtain ht | ⟨name, args, rfl, ht⟩ := ht
  · match e with
    | .int .. | .long .. | .double .. | .bool .. | .null _ | .slot .. | .field .. | .widen .. | .new ..
    | .binary .. | .unary .. | .call .. =>
        exact runs_value hs ht rfl
    | .assign _ (.slot slot) value used =>
        obtain ⟨rfl, hs⟩ := hs
        exact runs_assignSlot (means_exprCode value hs ht.2).value slot false
    | .assign _ (.field target name) value used =>
        obtain ⟨rfl, hst, hsv⟩ := hs
        obtain ⟨-, htt, htv⟩ := ht
        exact runs_assignField (means_exprCode target hst htt).value
          (means_exprCode value hsv htv).value name false
    | .increment _ op (.slot slot) used =>
        obtain rfl : used = false := hs
        exact runs_incrementSlot op slot false
    | .increment ty op (.field target name) used =>
        obtain ⟨rfl, hs⟩ := hs
        exact runs_incrementField op ty (means_exprCode target hs ht.2).value name false
    | .error _ => exact hs.elim
  · exact runs_call (runs_argsCode args hs ht) (gives_exprs tested args) name false

end Simulation

end MethodCompiler
