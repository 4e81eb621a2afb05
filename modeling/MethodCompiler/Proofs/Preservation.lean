import MethodCompiler.Proofs.Checking
import MethodCompiler.Proofs.Comparisons
import MethodCompiler.Proofs.DefiniteTypes
import MethodCompiler.Proofs.StatementRuns

/-!
# Code does what its tree means

A run of the code of a checked method body and the interpretation of its tree end in the
same way, with the same objects, the same log of calls and the same host, and if one of
them does not end, neither does the other.

There is one thing in which code departs from the plain meaning of a tree. A comparison by
order whose operands are not doubles by their type is tested for being false by its
opposite, and at run time the operands may be doubles all the same: a local without an
initial value holds whatever its slot held before, and a host may return anything. If one
of them is NaN, the opposite fails too, and the comparison counts as true.
-/

namespace MethodCompiler

namespace Machine

variable {σ : Type} {host : Host σ} {code : Code}

/-- A run that comes to its end does so within some limit and within every higher one. -/
theorem Comes.runFrom {c : Nat × Machine σ} {outcome : Outcome} {m' : Machine σ}
    (h : Comes host code c (.ended outcome m')) :
    ∃ N, ∀ limit steps, N ≤ steps → runFrom host code limit steps c.1 c.2 = (outcome, m') := by
  obtain ⟨c', hr, hend⟩ := h
  induction hr using Relation.ReflTransGen.head_induction_on with
  | refl =>
      refine ⟨1, fun limit steps hsteps => ?_⟩
      obtain ⟨k, rfl⟩ : ∃ k, steps = k + 1 := ⟨steps - 1, by omega⟩
      rw [Machine.runFrom, hend]
  | head hstep _ ih =>
      obtain ⟨N, hN⟩ := ih
      refine ⟨N + 1, fun limit steps hsteps => ?_⟩
      obtain ⟨k, rfl⟩ : ∃ k, steps = k + 1 := ⟨steps - 1, by omega⟩
      rw [Machine.runFrom, hstep]
      exact hN limit k (by omega)

/-- A run that halts within some limit does the same within every higher one. -/
theorem execute_of_halted {m : Machine σ} {limit : Nat}
    (h : (m.execute host limit code).1 = .halted) :
    ∃ N, ∀ limit', N ≤ limit' → m.execute host limit' code = m.execute host limit code := by
  obtain ⟨pc, m₁, hr, hrun | ⟨outcome, m₂, hadvance, hrun⟩⟩ :=
    runFrom_cases host code limit limit 0 (m.ready code)
  · rw [execute, hrun] at h
    cases h
  · obtain ⟨N, hN⟩ := Comes.runFrom ⟨(pc, m₁), hr, hadvance⟩
    refine ⟨N, fun limit' hle => ?_⟩
    rw [execute, execute, hrun]
    exact hN limit' limit' hle

/-- A run that lasts is stopped by any limit that it exceeds. -/
theorem Lasts.runFrom {n : Nat} {c : Nat × Machine σ} (h : Lasts host code n c) {steps : Nat}
    (hsteps : steps ≤ n) (limit : Nat) :
    (runFrom host code limit steps c.1 c.2).1 = .stopped (.stepLimit limit) := by
  induction n generalizing c steps with
  | zero =>
      obtain rfl : steps = 0 := by omega
      rfl
  | succ n ih =>
      cases steps with
      | zero => rfl
      | succ steps =>
          obtain ⟨c', hstep, hrest⟩ := h
          rw [Machine.runFrom, hstep]
          exact ih hrest (by omega)

end Machine

namespace Simulation

open Lowering hiding stmt stmts groups catches catching
open Interpretation Machine

variable {σ : Type} {host : Host σ} {code : Code}

/-- The code of a method body stands at its start, with nothing around it. -/
theorem standing_program {maxLabels : Nat} {p : Annotated.Program}
    (h : generate maxLabels p = .ok code) :
    code.maxLocals = p.maxSlots ∧ ∃ ps n', (program p).Yields 0 () ps n' ∧
      Standing code [] 0 ps := by
  obtain ⟨ds, hds, hcode, hlocals⟩ := generate_ok h
  obtain ⟨ps, n', hps, rfl⟩ := directives_eq_ok_iff.mp hds
  refine ⟨hlocals, ps, n', hps, hcode.laid, ?_⟩
  refine (own_sites [] ps hcode.laid (nested_program hps)).imp fun q s _ _ hown => ?_
  obtain ⟨inner, k, -, haround, hcatch, -⟩ := hown
  rw [Covered, covering_eq hcode, hcatch, Site.guards, haround]
  simp

/-- Nothing is around the statements of a method body. -/
def outermost : Context :=
  ⟨none, ⟨0, none, 0⟩, [], [], rfl, Nat.le_refl _⟩

/-- How a run of a whole method body agrees with the interpretation. -/
theorem ends_program {maxLabels : Nat} {p : Annotated.Program} {hi : Nat}
    (hgen : generate maxLabels p = .ok code) (hs : Annotated.Stmt.AllSound none 0 p.body hi)
    (ht : Annotated.Stmt.AllTypes (· ≠ .void) p.body) (rounds : Nat) (m : Machine σ) :
    Ends host code rounds [] (0, m.ready code)
      (stmts tested host rounds p.body
        { m with stack := [], locals := Array.replicate p.maxSlots .null }) fun _ m' =>
          Comes host code (0, m.ready code) (.ended .halted (m'.on [])) := by
  obtain ⟨hlocals, ps, n', hps, hst⟩ := standing_program hgen
  obtain ⟨body, hbody, rfl⟩ := yields_program.mp hps
  obtain ⟨hsb, hsh⟩ := standing_append.mp hst
  obtain ⟨⟨hhalt, -⟩, -⟩ := standing_emit.mp hsh
  have hready : m.ready code =
      ({ m with stack := [], locals := Array.replicate p.maxSlots .null } : Machine σ).on [] := by
    rw [ready, hlocals]
    rfl
  have hfollows : Follows host code rounds outermost (Lowering.stmts [] [] p.body)
      (stmts tested host rounds p.body) := follows_stmts outermost nofun p.body hs ht
  rw [hready]
  refine (hfollows hbody hsb _).imp fun flow m' hg => ?_
  cases flow with
  | normal =>
      refine Comes.of_reaches hg (.here ?_)
      rw [Nat.zero_add] at hhalt ⊢
      rw [advance, hhalt]
      rfl
  | brk id | cont id =>
      obtain ⟨f, hf, -⟩ := hg.allowed
      cases hf

end Simulation

open Interpretation

/-- The code of a checked method body without void parts, except for calls that are
statements of their own, does what its tree means: with any host, classes, objects and log
of calls to begin with, a run with a high enough limit ends as the interpretation does, in
the same state but for the stack. If the interpretation never ends, every limit is
exceeded. Where no comparison comes upon doubles without an order, the interpretation is the
plain one. -/
theorem execute_as_interpreted {settings : Settings} {p : Source.Program} {h : Annotated.Program}
    {code : Code} (hcheck : check settings p = .ok h)
    (htypes : Annotated.Stmt.AllTypes (· ≠ .void) h.body)
    (hgen : generate settings.maxLabels h = .ok code) {σ : Type} (host : Host σ) (m : Machine σ) :
    (∀ rounds outcome m', run tested host rounds h m = some (outcome, m') →
      ∃ N S, ∀ limit, N ≤ limit → m.execute host limit code = (outcome, m'.on S)) ∧
    ((∀ rounds, run tested host rounds h m = none) →
      ∀ limit, (m.execute host limit code).1 = .stopped (.stepLimit limit)) ∧
    ∀ rounds, (∀ x y m', run refusing host rounds h m ≠
        some (.stopped (.value (.incomparable (.double x) (.double y))), m')) →
      run tested host rounds h m = run plain host rounds h m := by
  obtain ⟨hi, hs⟩ := check_sound hcheck
  have hends : ∀ rounds, Simulation.Ends host code rounds [] _ _ _ :=
    fun rounds => Simulation.ends_program hgen hs htypes rounds m
  refine ⟨?_, ?_, fun rounds => run_tested_eq_plain⟩
  · intro rounds outcome m' hrun
    rw [run] at hrun
    have hend := hends rounds
    suffices hcomes : ∃ S, Machine.Comes host code (0, m.ready code) (.ended outcome (m'.on S)) by
      obtain ⟨S, hcomes⟩ := hcomes
      obtain ⟨N, hN⟩ := hcomes.runFrom
      exact ⟨N, S, fun limit hlimit => hN limit limit hlimit⟩
    cases hbody : stmts tested host rounds h.body
        { m with stack := [], locals := Array.replicate h.maxSlots .null } with
    | done flow m₁ =>
        rw [hbody] at hrun hend
        obtain ⟨rfl, rfl⟩ := Prod.mk.inj (Option.some.inj hrun)
        exact ⟨[], hend⟩
    | raised v className m₁ =>
        rw [hbody] at hrun hend
        obtain ⟨rfl, rfl⟩ := Prod.mk.inj (Option.some.inj hrun)
        exact hend.2
    | stopped why m₁ =>
        rw [hbody] at hrun hend
        obtain ⟨rfl, rfl⟩ := Prod.mk.inj (Option.some.inj hrun)
        exact hend
    | exhausted =>
        rw [hbody] at hrun
        cases hrun
  · intro hnone limit
    have hrun := hnone limit
    have hend := hends limit
    rw [run] at hrun
    cases hbody : stmts tested host limit h.body
        { m with stack := [], locals := Array.replicate h.maxSlots .null } with
    | exhausted =>
        rw [hbody] at hend
        exact Machine.Lasts.runFrom hend (Nat.le_refl _) limit
    | done _ _ | raised _ _ _ | stopped _ _ =>
        rw [hbody] at hrun
        cases hrun

/-- A loop that is left through a finally block in its second round. In the first round
what `f` throws is caught. -/
def retrying : Source.Program :=
  ⟨[.whileLoop 1 (.literal 1 (.boolean true))
    (.tryCatch 2 ⟨2, [.expression 3 (.call 3 "f" [] .void), .breakJump 4]⟩
      [⟨5, "Exception", "e", ⟨5, [.expression 6 (.call 6 "g" [.var 6 "e"] .void)]⟩⟩]
      (some ⟨7, [.expression 8 (.call 8 "h" [] .void)]⟩))]⟩

/-- The tree of the loop. -/
def retryingTree : Annotated.Program :=
  ⟨[.whileLoop ⟨0, true, false⟩ (.bool .boolean true)
    (.tryCatch [.expression (.call .void "f" []) false, .breakJump 0]
      [⟨"Exception", 0, [.expression (.call .void "g" [.slot (.reference "Exception") 0]) false]⟩]
      (some ⟨0, [.expression (.call .void "h" []) false]⟩))], 1⟩

/-- A host for the loop: `f` throws the first time it is called. -/
def retryingScript : Script :=
  [("f", [.throws "IOException", .returns .null]), ("g", [.returns .null]),
    ("h", [.returns .null])]

theorem execute_as_interpreted_retrying :
    check {} retrying = .ok retryingTree ∧
      ∃ code, generate 4294967295 retryingTree = .ok code ∧ ∃ N, ∀ limit, N ≤ limit →
        let result := ({ host := retryingScript } : Machine Script).execute Script.host limit code
        result.1 = .halted ∧
          result.2.calls = #[⟨"f", []⟩, ⟨"g", [.ref 0]⟩, ⟨"h", []⟩, ⟨"f", []⟩, ⟨"h", []⟩] := by
  have hcheck : check {} retrying = .ok retryingTree := by cbv
  have htypes : Annotated.Stmt.AllTypes (· ≠ .void) retryingTree.body := by
    simp [retryingTree, Annotated.Stmt.AllTypes, Annotated.Stmt.Types,
      Annotated.Stmt.ClausesTypes, Annotated.Expr.Types, Annotated.Expr.AllTypes]
  have hsome : (generate 4294967295 retryingTree).toOption.isSome := by decide +kernel
  have hmeans : (run tested Script.host 2 retryingTree { host := retryingScript }).map
      (fun r => (r.1, r.2.calls)) = some (.halted,
        #[⟨"f", []⟩, ⟨"g", [.ref 0]⟩, ⟨"h", []⟩, ⟨"f", []⟩, ⟨"h", []⟩]) := by
    decide +kernel
  refine ⟨hcheck, ?_⟩
  cases hcode : generate 4294967295 retryingTree with
  | error e => simp [hcode, Except.toOption] at hsome
  | ok code =>
      obtain ⟨⟨outcome, m'⟩, hrun, heq⟩ := Option.map_eq_some_iff.mp hmeans
      obtain ⟨rfl, hcalls⟩ := Prod.mk.inj heq
      obtain ⟨N, S, hN⟩ :=
        (execute_as_interpreted hcheck htypes hcode Script.host { host := retryingScript }).1
          2 _ m' hrun
      refine ⟨code, rfl, N, fun limit hlimit => ?_⟩
      rw [hN limit hlimit]
      exact ⟨rfl, hcalls⟩

/-- A number is declared without an initial value where the quotient of a double by itself
was before, and compared with itself. -/
def staleSlot (x : Float) : Source.Program :=
  ⟨[.block ⟨1, [.localDecl 1 "d" .double
      (some (.binary 1 .divide (.literal 1 (.double x)) (.literal 1 (.double x))))]⟩,
    .block ⟨2, [.localDecl 2 "y" .int none,
      .ifElse 3 (.binary 3 .lessThan (.var 3 "y") (.var 3 "y"))
        (.expression 4 (.call 4 "g" [] .void)) none]⟩]⟩

/-- The tree of the comparison. -/
def staleSlotTree (x : Float) : Annotated.Program :=
  ⟨[.block [.localInit 0 (.binary .double .divide (.double .double x) (.double .double x))],
    .block [.empty,
      .ifElse (.binary .boolean .lessThan (.slot .int 0) (.slot .int 0))
        (.expression (.call .void "g" []) false) none]], 1⟩

theorem check_staleSlot (x : Float) : check {} (staleSlot x) = .ok (staleSlotTree x) := by
  cbv

/-- NaN is not less than itself, and yet the code takes the branch. -/
theorem departs_at_stale_slot :
    check {} (staleSlot 0.0) = .ok (staleSlotTree 0.0) ∧
      Annotated.Stmt.AllTypes (fun t => t ≠ .any ∧ t ≠ .void) (staleSlotTree 0.0).body ∧
      ∃ code, generate 4294967295 (staleSlotTree 0.0) = .ok code ∧
        ∃ (m m' : Machine Script), run plain Script.host 0 (staleSlotTree 0.0) m = some (.halted, m') ∧
          ∀ N S, ¬ ∀ limit, N ≤ limit →
            m.execute Script.host limit code = (.halted, m'.on S) := by
  let m : Machine Script := { host := [("g", [.returns .null])] }
  have hplain : (run plain Script.host 0 (staleSlotTree 0.0) m).map (fun r => (r.1, r.2.calls)) =
      some (.halted, #[]) := by
    decide +kernel
  have hcalls : (generate 4294967295 (staleSlotTree 0.0)).toOption.map (fun code =>
      let result := m.execute Script.host 10 code
      (result.1, result.2.calls)) = some (.halted, #[⟨"g", []⟩]) := by
    decide +kernel
  refine ⟨check_staleSlot 0.0, ?_, ?_⟩
  · simp [staleSlotTree, Annotated.Stmt.AllTypes, Annotated.Stmt.Types, Annotated.Expr.Types,
      Annotated.Expr.AllTypes]
  cases hcode : generate 4294967295 (staleSlotTree 0.0) with
  | error e => simp [hcode, Except.toOption] at hcalls
  | ok code =>
      obtain ⟨⟨outcome, m'⟩, hrun, heq⟩ := Option.map_eq_some_iff.mp hplain
      obtain ⟨rfl, hnone⟩ := Prod.mk.inj heq
      rw [hcode] at hcalls
      obtain ⟨hhalted, hcalled⟩ := Prod.mk.inj (Option.some.inj hcalls)
      refine ⟨code, rfl, m, m', hrun, fun N S hN => ?_⟩
      obtain ⟨K, hK⟩ := Machine.execute_of_halted hhalted
      have heq := (hK (max N K) (le_max_right _ _)).symm.trans (hN (max N K) (le_max_left _ _))
      rw [heq] at hcalled
      exact absurd (hnone.symm.trans hcalled) (by decide)

end MethodCompiler
