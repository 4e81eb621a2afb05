import MethodCompiler.Proofs.ExpressionCode
import MethodCompiler.Proofs.Generation
import MethodCompiler.Proofs.Parts
import MethodCompiler.Proofs.Preservation

/-!
# Every expression of a method body

The code of an expression, for its value or for a jump on its truth, does what the
expression means, in every state of the machine and wherever it stands. This holds of the
expressions of a checked body and of all their parts, for these are all sound.

The state may be one that no run comes to. In particular a local may hold a NaN whatever its
type is, and there the truth of a comparison depends on which truth is tested for.
-/

namespace MethodCompiler

/-! ## Expressions of a tree -/

namespace Annotated

/-- All expressions of a method body. -/
def Program.exprs (p : Program) : List Expr :=
  (Stmt.allParts p.body).flatMap fun s => s.exprs.flatMap Expr.parts

/-- Whether the code of an expression leaves a value. A store or a step may not be asked
for its value, and a void call has none. -/
def Expr.leaves : Expr → Bool
  | .assign _ _ _ used | .increment _ _ _ used => used
  | e => e.ty != .void

mutual

theorem Expr.Sound.parts (e : Expr) {used : Bool} (h : e.Sound used) :
    ∀ e' ∈ e.parts, ∃ used', e'.Sound used' := by
  have hself : ∃ used', e.Sound used' := ⟨used, h⟩
  match e with
  | .int .. | .long .. | .double .. | .bool .. | .null _ | .slot .. | .new .. | .error _
  | .increment _ _ (.slot _) _ => exact List.forall_mem_singleton.mpr hself
  | .field _ target _ => exact List.forall_mem_cons.mpr ⟨hself, Expr.Sound.parts target h⟩
  | .widen _ inner => exact List.forall_mem_cons.mpr ⟨hself, Expr.Sound.parts inner h.2⟩
  | .assign _ (.slot _) value _ =>
      exact List.forall_mem_cons.mpr ⟨hself, Expr.Sound.parts value h.2⟩
  | .assign _ (.field target _) value _ =>
      exact List.forall_mem_cons.mpr ⟨hself, List.forall_mem_append.mpr
        ⟨Expr.Sound.parts target h.2.1, Expr.Sound.parts value h.2.2⟩⟩
  | .binary _ _ left right =>
      exact List.forall_mem_cons.mpr ⟨hself, List.forall_mem_append.mpr
        ⟨Expr.Sound.parts left h.1, Expr.Sound.parts right h.2⟩⟩
  | .unary _ _ operand => exact List.forall_mem_cons.mpr ⟨hself, Expr.Sound.parts operand h⟩
  | .increment _ _ (.field target _) _ =>
      exact List.forall_mem_cons.mpr ⟨hself, Expr.Sound.parts target h.2⟩
  | .call _ _ args => exact List.forall_mem_cons.mpr ⟨hself, Expr.AllSound.parts args h⟩
termination_by structural e

theorem Expr.AllSound.parts (es : List Expr) (h : Expr.AllSound es) :
    ∀ e' ∈ Expr.allParts es, ∃ used', e'.Sound used' := by
  match es with
  | [] =>
      intro e' he'
      cases he'
  | e :: rest =>
      exact List.forall_mem_append.mpr ⟨Expr.Sound.parts e h.1, Expr.AllSound.parts rest h.2⟩
termination_by structural es

end

end Annotated

/-- Every expression of a checked body is sound, with its value wanted or not. -/
theorem check_exprs_sound {settings : Settings} {p : Source.Program} {h : Annotated.Program}
    (hcheck : check settings p = .ok h) {e : Annotated.Expr} (he : e ∈ h.exprs) :
    ∃ used, e.Sound used := by
  obtain ⟨hi, hs⟩ := check_sound hcheck
  obtain ⟨s, hs', he⟩ := List.mem_flatMap.mp he
  obtain ⟨top, htop, he⟩ := List.mem_flatMap.mp he
  obtain ⟨used, hsound⟩ := (hs.parts s hs').exprs top htop
  exact Annotated.Expr.Sound.parts top hsound e he

/-! ## Truth and value -/

namespace Interpretation

open Annotated (Expr)

variable {σ α β : Type} {host : Host σ}

/-- In the plain meaning the truth of an expression does not depend on what is tested for,
and it is that of the value. -/
theorem plain_test (e : Expr) (b : Bool) : (expr plain host e).test b =
    (do return !(← (expr plain host e).value).isZero) := by
  have hbool : ∀ t : Eval σ Bool,
      (do return !(← (do return ofBool (← t) : Eval σ Value)).isZero) = t := by
    intro t
    rw [bind_assoc]
    conv => rhs; rw [← bind_pure t]
    refine congrArg _ (funext fun x => ?_)
    rw [pure_bind]
    cases x <;> rfl
  have htest : ∀ {t : Bool → Eval σ Bool}, (∀ b, t b = t false) →
      (Reading.ofTest t).test b = (do return !(← (Reading.ofTest t).value).isZero) := by
    intro t ht
    exact (ht b).trans (hbool (t false)).symm
  match e with
  | .int .. | .long .. | .double .. | .null _ | .slot .. | .field .. | .widen .. | .call .. | .new ..
  | .error _ | .assign _ (.slot _) _ _ | .assign _ (.field _ _) _ _ | .increment _ _ (.slot _) _
  | .increment _ _ (.field _ _) _ => rfl
  | .bool _ v => cases v <;> rfl
  | .binary _ op left right =>
      have hl := plain_test left
      have hr := plain_test right
      match op with
      | .add | .subtract | .multiply | .divide | .modulo => rfl
      | .logicalAnd =>
          refine htest fun b => ?_
          simp only [Reading.both, hr b, hr false]
      | .logicalOr =>
          refine htest fun b => ?_
          simp only [Reading.either, hr b, hr false]
      | .equal | .notEqual | .lessThan | .lessThanEqual | .greaterThan | .greaterThanEqual =>
          exact htest fun b => rfl
  | .unary _ op operand =>
      have ih := plain_test operand
      match op with
      | .minus | .plus | .bitwiseNot => rfl
      | .logicalNot =>
          rw [expr]
          refine htest fun b => ?_
          simp only [ih (!b), ih (!false)]
termination_by structural e

/-! ## NaN -/

theorem compareDoubles_nan {x y : Float} (h : x.isNaN ∨ y.isNaN) :
    Value.compareDoubles x y = none := by
  have hnan : ∀ u : Float.Model.UnpackedFloat, u.isNaN → u = .notANumber := by
    intro u hu
    cases u <;> first | rfl | cases hu
  have hcompare : x.toModel.unpack.compare y.toModel.unpack = none ∧
      y.toModel.unpack.compare x.toModel.unpack = none := by
    rcases h with h | h
    · rw [hnan _ h]
      cases y.toModel.unpack <;> exact ⟨rfl, rfl⟩
    · rw [hnan _ h]
      cases x.toModel.unpack <;> exact ⟨rfl, rfl⟩
  have hless : ∀ u v : Float, u.toModel.unpack.compare v.toModel.unpack = none → ¬ u < v := by
    intro u v h hlt
    have hlt : (u.toModel.unpack.compare v.toModel.unpack == some .lt) = true :=
      of_decide_eq_true hlt
    rw [h] at hlt
    cases hlt
  have heq : (x == y) = false := by
    show (x.toModel.unpack.compare y.toModel.unpack == some .eq) = false
    rw [hcompare.1]
    rfl
  rw [Value.compareDoubles, if_neg (hless x y hcompare.1), heq, if_neg (hless y x hcompare.2)]
  rfl

/-- Comparisons with NaN fail, except for being different. Only the order of operands that
are not doubles by their type, tested for being false, counts as true. -/
theorem tested_nan (ty : Ty) (wanted : Bool) (c : Comparison) {x y : Float}
    (h : x.isNaN ∨ y.isNaN) : tested ty wanted c (.double x) (.double y) =
      .ok (decide (c = .ne ∨ (ty ≠ .double ∧ wanted = false ∧ c ≠ .eq))) := by
  have hnone := compareDoubles_nan h
  by_cases hodd : ty ≠ .double ∧ wanted = false
  · cases c <;> simp [tested, unordered, hnone, hodd, compare_doubles, Comparison.holds]
  · cases c <;> simp [tested, unordered, hnone, hodd, compare_doubles, Comparison.holds]

end Interpretation

/-! ## Runs of the code -/

namespace Simulation

open Annotated (Expr)
open Lowering hiding stmt stmts groups catches catching
open Interpretation Machine

/-- A run from `c` follows an evaluation: if that is done, what follows is left open; what
is raised is thrown among the guards `gs`; and where it stops so does the run. The evaluation
does not give up. -/
def Simulates {σ α : Type} (host : Host σ) (code : Code) (gs : Guard) (c : Nat × Machine σ)
    (result : Result σ α) (K : α → Machine σ → Prop) : Prop :=
  match result with
  | .done a m => K a m
  | .raised v className m =>
    m.classOf? v = some className ∧ ∃ S, Comes host code c (flight code gs v className (m.on S))
  | .stopped why m => ∃ S, Comes host code c (.ended (.stopped why) (m.on S))
  | .exhausted => False

theorem simulates_of_ends {σ α : Type} {host : Host σ} {code : Code} {gs : Guard}
    {c : Nat × Machine σ} {x : Eval σ α} {m : Machine σ} {K : α → Machine σ → Prop}
    (h : Ends host code 0 gs c (x m) K) (hx : Settles x) :
    Simulates host code gs c (x m) K := by
  cases hresult : x m with
  | done a m' | raised v className m' | stopped why m' =>
      rw [hresult] at h
      exact h
  | exhausted => exact hx m hresult

/-- An expression without void parts whose value is left is one whose value is wanted. -/
theorem sound_of_leaves {e : Expr} {used : Bool} (hs : e.Sound used) (hl : e.leaves) :
    e.Sound true := by
  match e with
  | .assign _ (.slot _) _ _ | .assign _ (.field _ _) _ _ | .increment _ _ (.field _ _) _ =>
      exact ⟨hl, hs.2⟩
  | .increment _ _ (.slot _) _ => exact hl
  | .int .. | .long .. | .double .. | .bool .. | .null _ | .slot .. | .new .. | .field .. | .widen ..
  | .binary .. | .unary .. | .call .. => exact hs

theorem sound_of_not_leaves {e : Expr} {used : Bool} (hs : e.Sound used) (hl : e.leaves = false) :
    e.Sound false ∧ Typing.leavesValue e = false := by
  match e with
  | .assign _ (.slot _) _ _ | .assign _ (.field _ _) _ _ | .increment _ _ (.field _ _) _ =>
      exact ⟨⟨hl, hs.2⟩, rfl⟩
  | .increment _ _ (.slot _) _ => exact ⟨hl, rfl⟩
  | .int .. | .long .. | .double .. | .bool .. | .null _ | .slot .. | .new .. | .field .. | .widen ..
  | .binary .. | .unary .. | .call .. => exact ⟨hs, hl⟩

theorem types_of_leaves {e : Expr} (hl : e.leaves)
    (ht : e.Types (· ≠ .void) ∨
      ∃ name args, e = .call .void name args ∧ Expr.AllTypes (· ≠ .void) args) :
    e.Types (· ≠ .void) := by
  rcases ht with ht | ⟨name, args, rfl, -⟩
  · exact ht
  · cases hl

end Simulation

/-! ## Where the plain meaning fails -/

namespace Machine

/-- What a run comes to it comes to at once or after its next instruction. -/
theorem not_reaches_of_onward {σ : Type} {host : Host σ} {code : Code} {c d t : Nat × Machine σ}
    (hstep : Onward host code c d) (hne : c ≠ t) (hd : ¬ Reaches host code d t) :
    ¬ Reaches host code c t := by
  intro hr
  rcases hr.cases_head with heq | ⟨d', hstep', hr'⟩
  · exact hne heq
  · have hsame : Turn.onward d.1 d.2 = .onward d'.1 d'.2 := Eq.trans (Eq.symm hstep) hstep'
    obtain ⟨hpc, hm⟩ := Turn.onward.inj hsame
    rw [show d' = d from Prod.ext hpc.symm hm.symm] at hr'
    exact hd hr'

end Machine

/-- The code of the comparison with a stale slot. -/
def staleCode : Code :=
  { instructions := #[⟨.dconst0, none⟩, ⟨.dconst0, none⟩, ⟨.div, none⟩, ⟨.store, some (.slot 0)⟩,
      ⟨.load, some (.slot 0)⟩, ⟨.load, some (.slot 0)⟩, ⟨.ifCmpGe, some (.label 0)⟩,
      ⟨.invoke, some (.call "g" 0 false)⟩, ⟨.halt, none⟩]
    labels := #[some 8]
    maxLocals := 1 }

/-- The comparison of a stale slot with itself. -/
def staleComparison : Annotated.Expr :=
  .binary .boolean .lessThan (.slot .int 0) (.slot .int 0)

/-- A machine that can call `g`, before the run. -/
def staleStart : Machine Script :=
  Machine.ready { host := [("g", [.returns .null])] } staleCode

/-- The machine when the run comes to the comparison. -/
def staleMachine : Machine Script :=
  { staleStart with locals := #[.double (0.0 / 0.0)] }

theorem staleComparison_mem : staleComparison ∈ (staleSlotTree 0.0).exprs := by
  simp [Annotated.Program.exprs, staleSlotTree, Annotated.Stmt.allParts, Annotated.Stmt.parts,
    Annotated.Stmt.exprs, Annotated.Expr.parts, staleComparison]

theorem types_staleComparison :
    staleComparison.Types (fun ty => ty ≠ .any ∧ ty ≠ .void) := by
  simp [staleComparison, Annotated.Expr.Types]

theorem compare_nan (c : Comparison) :
    Value.compare c (.double (0.0 / 0.0)) (.double (0.0 / 0.0)) = .ok (c.holds none) := by
  have hnone : Value.compareDoubles (0.0 / 0.0) (0.0 / 0.0) = none := by decide +kernel
  rw [Interpretation.compare_doubles, hnone]

/-- The pieces of the jump on the comparison being false. -/
def stalePieces : List Lowering.Piece :=
  [.give (.emit ⟨.load, some (.slot 0)⟩), .give (.emit ⟨.load, some (.slot 0)⟩),
    .give (.emit ⟨.ifCmpGe, some (.label 0)⟩)]

theorem yields_stalePieces :
    (Lowering.branch staleComparison 0 false).Yields 0 () stalePieces 0 := rfl

theorem standing_stalePieces : Simulation.Standing staleCode [] 4 stalePieces :=
  ⟨⟨fun _ h => h, fun _ h => h, fun _ h => h, trivial⟩, ⟨rfl, rfl, rfl, trivial⟩⟩

open Simulation Interpretation Machine

/-- NaN is not less than itself, and the jump on this being false is not made. -/
theorem branch_departs_from_plain :
    check {} (staleSlot 0.0) = .ok (staleSlotTree 0.0) ∧
    generate 4294967295 (staleSlotTree 0.0) = .ok staleCode ∧
    staleComparison ∈ (staleSlotTree 0.0).exprs ∧
    staleComparison.Types (fun ty => ty ≠ .any ∧ ty ≠ .void) ∧
    Reaches Script.host staleCode (0, staleStart) (4, staleMachine) ∧
    (expr plain Script.host staleComparison).test false staleMachine = .done false staleMachine ∧
    staleCode.position 0 = some 8 ∧
    ∃ ps, (Lowering.branch staleComparison 0 false).Yields 0 () ps 0 ∧
      Standing staleCode [] 4 ps ∧
      ¬ Reaches Script.host staleCode (4, staleMachine) (8, staleMachine) := by
  have hstart : Reaches Script.host staleCode (0, staleStart) (4, staleMachine) :=
    .head (b := (1, _)) rfl (.head (b := (2, _)) rfl (.head (b := (3, _)) rfl (.single rfl)))
  have hplain : (expr plain Script.host staleComparison).test false staleMachine =
      .done false staleMachine := by
    show Eval.ofExcept (Value.compare .lt (.double (0.0 / 0.0)) (.double (0.0 / 0.0)))
      staleMachine = _
    rw [compare_nan]
    rfl
  -- The run goes from 4 through 5, 6 and 7 to 8, where `g` has been called.
  have hfirst : Onward Script.host staleCode (4, staleMachine)
      (5, staleMachine.on [.double (0.0 / 0.0)]) := rfl
  have hsecond : Onward Script.host staleCode (5, staleMachine.on [.double (0.0 / 0.0)])
      (6, staleMachine.on [.double (0.0 / 0.0), .double (0.0 / 0.0)]) := rfl
  have hbranch : Onward Script.host staleCode
      (6, staleMachine.on [.double (0.0 / 0.0), .double (0.0 / 0.0)]) (7, staleMachine) := by
    have hat : staleCode.instructions[6]? = some ⟨.ifCmpGe, some (.label 0)⟩ := rfl
    have hl : staleCode.position 0 = some 8 := rfl
    show (staleMachine.on [.double (0.0 / 0.0), .double (0.0 / 0.0)]).advance _ _ 6 = _
    rw [advance_branchIf (c := .ge) _ _ [] (fun _ => rfl) hat hl, compare_nan]
    rfl
  have hcalled : ∃ m, Onward Script.host staleCode (7, staleMachine) (8, m) ∧
      m.calls = #[⟨"g", []⟩] ∧ m.advance Script.host staleCode 8 = .ended .halted m :=
    ⟨_, rfl, rfl, rfl⟩
  obtain ⟨m, hcall, hcalls, hended⟩ := hcalled
  have hlast : ¬ Reaches Script.host staleCode (8, m) (8, staleMachine) := by
    intro hr
    rcases hr.cases_head with heq | ⟨d, hstep, -⟩
    · rw [(Prod.mk.inj heq).2] at hcalls
      cases hcalls
    · have hstep : m.advance Script.host staleCode 8 = .onward d.1 d.2 := hstep
      rw [hended] at hstep
      cases hstep
  have hseven := not_reaches_of_onward hcall (by simp) hlast
  have hsix := not_reaches_of_onward hbranch (by simp) hseven
  have hfive := not_reaches_of_onward hsecond (by simp) hsix
  exact ⟨check_staleSlot 0.0, by decide +kernel, staleComparison_mem, types_staleComparison, hstart,
    hplain, rfl, stalePieces, yields_stalePieces, standing_stalePieces,
    not_reaches_of_onward hfirst (by simp) hfive⟩

/-! ## Every expression of a checked body -/

open Annotated (Expr)

/-- The code of every expression of a checked body without void parts, a void call apart,
simulates its evaluation, and so does the code of a jump on its truth. In the plain meaning
that is the truth of its value; comparisons depart from it only where NaN comes in place of
what is no double by its type. -/
theorem expression_simulates {settings : Settings} {p : Source.Program} {h : Annotated.Program}
    (hcheck : check settings p = .ok h) {e : Expr} (he : e ∈ h.exprs)
    (ht : e.Types (· ≠ .void) ∨
      ∃ name args, e = .call .void name args ∧ Expr.AllTypes (· ≠ .void) args) :
    (Lowering.value e).Succeeds ∧ (∀ target onTrue, (Lowering.branch e target onTrue).Succeeds) ∧
    (∀ {σ : Type} (host : Host σ) (code : Code) (around : List Lowering.Guard) (pc n n' : Nat)
      (ps : List Lowering.Piece), Standing code around pc ps →
      ((Lowering.value e).Yields n () ps n' → ∀ m S,
        Simulates host code around.flatten (pc, m.on S) ((expr tested host e).value m) fun v m' =>
          Reaches host code (pc, m.on S) (pc + size (Lowering.layOut ps),
            m'.on (if e.leaves then v :: S else S))) ∧
      (∀ target onTrue dest, e.leaves → (Lowering.branch e target onTrue).Yields n () ps n' →
        code.position target = some dest → ∀ m S,
        Simulates host code around.flatten (pc, m.on S) ((expr tested host e).test onTrue m)
          fun truth m' => Lands host code (pc, m.on S) dest (pc + size (Lowering.layOut ps)) onTrue
            truth (m'.on S))) ∧
    (∀ {σ : Type} (host : Host σ) (onTrue : Bool), (expr plain host e).test onTrue =
      (do return !(← (expr plain host e).value).isZero)) ∧
    (∀ ty wanted c a b, unordered c a b = false →
      tested ty wanted c a b = plain ty wanted c a b) ∧
    (∀ ty wanted c (x y : Float), x.isNaN ∨ y.isNaN →
      tested ty wanted c (.double x) (.double y) =
        .ok (decide (c = .ne ∨ (ty ≠ .double ∧ wanted = false ∧ c ≠ .eq)))) := by
  obtain ⟨used, hs⟩ := check_exprs_sound hcheck he
  refine ⟨Lowering.succeeds_value hs, Lowering.succeeds_branch hs, ?_, fun host => plain_test e, ?_,
    fun ty wanted c x y => tested_nan ty wanted c⟩
  · intro σ host code around pc n n' ps hps
    obtain ⟨hvalue, htest⟩ : Settles (expr tested host e).value ∧
        ∀ b, Settles ((expr tested host e).test b) := settles_expr tested e
    constructor
    · intro hy m S
      refine simulates_of_ends ?_ hvalue
      cases hl : e.leaves with
      | true =>
          exact (means_exprCode e (sound_of_leaves hs hl) (types_of_leaves hl ht)).value hy hps m S
      | false =>
          obtain ⟨hs, hvalue⟩ := sound_of_not_leaves hs hl
          have hrun : Runs host code 0 (Lowering.value e) [] _ _ := runs_unused hs ht
          rw [hvalue] at hrun
          exact hrun hy hps m S
    · intro target onTrue dest hl hy hdest m S
      have hmeans : Means host code 0 (Lowering.exprCode e) (expr tested host e) :=
        means_exprCode e (sound_of_leaves hs hl) (types_of_leaves hl ht)
      exact simulates_of_ends (hmeans.branch target onTrue hy hps hdest m S) (htest onTrue)
  · intro ty wanted c a b hordered
    simp [tested, plain, hordered]

/-- The comparison counts as true, so the run goes on. -/
theorem expression_simulates_staleComparison :
    staleComparison ∈ (staleSlotTree 0.0).exprs ∧ staleComparison.Types (· ≠ .void) ∧
      (expr tested Script.host staleComparison).test false staleMachine =
        .done true staleMachine ∧
      Lands Script.host staleCode (4, staleMachine) 8 7 false true staleMachine := by
  have htypes : staleComparison.Types (· ≠ .void) :=
    types_staleComparison.mono fun ty hty => hty.2
  have htest : (expr tested Script.host staleComparison).test false staleMachine =
      .done true staleMachine := by
    have hnan : (0.0 / 0.0 : Float).isNaN := by decide +kernel
    show Eval.ofExcept (tested .int false .lt (.double (0.0 / 0.0)) (.double (0.0 / 0.0)))
      staleMachine = _
    rw [tested_nan _ _ _ (.inl hnan)]
    rfl
  obtain ⟨-, -, hruns, -⟩ :=
    expression_simulates (check_staleSlot 0.0) staleComparison_mem (.inl htypes)
  have hlands := (hruns Script.host staleCode [] 4 0 0 stalePieces standing_stalePieces).2 0 false 8
    rfl yields_stalePieces rfl staleMachine []
  rw [htest] at hlands
  exact ⟨staleComparison_mem, htypes, htest, hlands⟩

end MethodCompiler
