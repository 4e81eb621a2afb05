import MethodCompiler.Proofs.Preservation
import MethodCompiler.Proofs.StatementViews

/-!
# Runs keep to the types

The views read off a checked tree fit its code as a whole (`Viewed`): each instruction leads to
what they say of the next one and of the labels it jumps to, and the rows that cover it lead to
handlers which ask for no more than is known. So a machine that is as they say when it meets an
instruction is as they say when it meets the next, and nothing that the types exclude can stop
it. That is said of one instruction by `typed_advance`, and of runs by `holds_of_reaches`.
-/

namespace MethodCompiler

open Lowering

variable {σ : Type} {code : Code} {sig : Signature} {views : List View}

/-- The views fit the code, and the handlers of its rows. -/
structure Viewed (code : Code) (sig : Signature) (views : List View) : Prop where
  length : views.length = code.instructions.size
  start : Admits (views[·]?) 0 ⟨[], []⟩
  steps : ∀ q < views.length, LeadsOn code sig (views[·]?) q
  catches : ∀ (q : Nat) (i : Instruction) (v : View), code.instructions[q]? = some i →
    i.opcode ≠ .goto → views[q]? = some v → ∀ row ∈ code.handlers, row.covers q →
    Admits (views[·]?) row.handler ⟨v.locals, [.reference]⟩

/-- Behind a call for a value there is a view, with a value on top of the stack that is
represented as a call of that name declares it. -/
theorem Viewed.declared (h : Viewed code sig views) {pc argc : Nat} {name : String}
    (hi : code.instructions[pc]? = some ⟨.invoke, some (.call name argc true)⟩) :
    ∃ v k, views[pc + 1]? = some v ∧ v.stack.head? = some k ∧ sig.returns name k := by
  obtain ⟨hlt, -⟩ := Array.getElem?_eq_some_iff.mp hi
  rw [← h.length] at hlt
  obtain ⟨next, target, -, hcalls, hnext, -⟩ :=
    h.steps pc hlt _ _ hi (List.getElem?_eq_getElem hlt)
  obtain ⟨w, hw, k, hk, hreturns⟩ := hcalls name argc rfl
  obtain ⟨v, hv, hle⟩ := hnext w hw
  exact ⟨v, k, hv, by rw [hle.stack]; exact hk, hreturns⟩

namespace Lowering

theorem Shown.self (vs ws : List View) : Shown ((vs ++ ws)[·]?) 0 vs := by
  intro k v hk
  obtain ⟨hlt, -⟩ := List.getElem?_eq_some_iff.mp hk
  show (vs ++ ws)[0 + k]? = some v
  rw [Nat.zero_add, List.getElem?_append_left hlt, hk]

/-- Where what is thrown at a position goes is the handler of a guard. -/
theorem position_of_covered {q : Nat} {gs : Guard} (hcov : Simulation.Covered code q gs)
    {row : Handler} (hrow : row ∈ code.handlers) (hq : row.covers q) :
    ∃ g ∈ gs, code.position g.2 = some row.handler := by
  have hmem : (row.catchType, some row.handler) ∈ gs.map fun g => (g.1, code.position g.2) := by
    rw [← hcov]
    exact List.mem_map_of_mem (List.mem_filter.mpr ⟨hrow, hq⟩)
  obtain ⟨g, hg, heq⟩ := List.mem_map.mp hmem
  exact ⟨g, hg, (Prod.mk.inj heq).2⟩

/-- The instruction at a position is that of the site there. -/
theorem instruction_of_site {ps : List Piece} (hcode : Assembled (layOut ps) code)
    (around : List Guard) {q : Nat} {s : Site} {i : Instruction}
    (hs : (sites around ps)[q]? = some s) (hi : code.instructions[q]? = some i) :
    s.instruction = i := by
  have hmap : (sites around ps).map (·.instruction) = code.instructions.toList :=
    (map_instruction_sites around ps).trans hcode.instructions.symm
  have hq : code.instructions.toList[q]? = some s.instruction := by
    rw [← hmap, List.getElem?_map, hs, Option.map_some]
  rw [Array.getElem?_toList, hi] at hq
  exact (Option.some.inj hq).symm

/-- Views fit the code of pieces that stand alone, if they lead on and fit the guards. -/
theorem viewed_of_sites {ps : List Piece} (hcode : Assembled (layOut ps) code)
    (hcov : ForSites (fun q s => Simulation.Covered code q s.guards) 0 (sites [] ps))
    (hstart : Admits (views[·]?) 0 ⟨[], []⟩)
    (hsteps : ∀ q < views.length, LeadsOn code sig (views[·]?) q)
    (hguards : List.Forall₂ (fun (s : Site) (v : View) => s.instruction.opcode ≠ .goto →
      ∀ g ∈ s.guards, AdmitsAt code (views[·]?) g.2 ⟨v.locals, [.reference]⟩) (sites [] ps) views) :
    Viewed code sig views where
  length := by
    rw [← hguards.length_eq, length_sites, size_eq_length, ← hcode.instructions, Array.length_toList]
  start := hstart
  steps := hsteps
  catches := by
    intro q i v hi hne hv row hrow hcovers
    obtain ⟨hlt, rfl⟩ := List.getElem?_eq_some_iff.mp hv
    have hlt' : q < (sites [] ps).length := by
      rw [hguards.length_eq]
      exact hlt
    have hsite := List.getElem?_eq_getElem hlt'
    have hcov := hcov.get hsite
    rw [Nat.zero_add] at hcov
    obtain ⟨g, hg, hpos⟩ := position_of_covered hcov hrow hcovers
    rw [← instruction_of_site hcode [] hsite hi] at hne
    exact hguards.get hlt' hlt hne g hg row.handler hpos

/-- The views of a method body fit its code. -/
theorem viewed_of_generate {maxLabels : Nat} {p : Annotated.Program} {hi : Nat}
    (hs : Annotated.Stmt.AllSound none 0 p.body hi)
    (ht : Annotated.Stmt.AllTyped sig true [] p.body)
    (hgen : generate maxLabels p = .ok code) : Viewed code sig p.views := by
  obtain ⟨-, ps, n', hps, hlaid, hcov⟩ := Simulation.standing_program hgen
  obtain ⟨ds, hds, hassembled, -⟩ := generate_ok hgen
  obtain ⟨ps', n'', hps', rfl⟩ := directives_eq_ok_iff.mp hds
  obtain rfl : ps = ps' := (Emission.mk.inj (Except.ok.inj (hps.symm.trans hps'))).2.1
  obtain ⟨body, hbody, rfl⟩ := yields_program.mp hps
  have hflow : Flows code sig [] [] (fun _ _ => False) ⟨[], []⟩ body _ _ :=
    carries_stmts p.body hs ht Suits.initially hbody
  rw [layOut_append, laid_append, ← hflow.length] at hlaid
  have hend : Admits (p.views[·]?) (0 + (Annotated.Stmt.allViews {} [] p.body).length)
      ⟨Annotated.Stmt.declareAll [] p.body, []⟩ :=
    ⟨_, by simp [Annotated.Program.views], .refl _⟩
  obtain ⟨hstart, -, hfits⟩ := hflow.fits 0 (p.views[·]?) hlaid.1 (Shown.self _ _) hend
  have hfit := hfits fun _ _ h => h.elim
  refine viewed_of_sites hassembled hcov hstart (fun q hq => ?_) ?_
  · rw [Annotated.Program.views, List.length_append, List.length_singleton] at hq
    obtain hlt | rfl := Nat.lt_succ_iff_lt_or_eq.mp hq
    · exact hfit.steps q (Nat.zero_le _) (by omega)
    · -- The last instruction is the halt, after which nothing has to be known.
      intro i v hi hv
      have hhalt := hlaid.2.1 _ rfl
      rw [Nat.zero_add, hi] at hhalt
      obtain rfl := Option.some.inj hhalt
      exact ⟨none, v, Instruction.leads_halt, declared_of_ne (by simp), by simp,
        by simp [Instruction.targets]⟩
  · rw [sites_append]
    refine List.rel_append hfit.guards (.cons (fun _ g hg => ?_) .nil)
    cases hg

end Lowering

/-! ## Runs -/

/-- All along a run the host returns to each call a value of the type that the call declares: it
is what lies on top of the stack in the view behind the call. -/
def Machine.ReturnsAlong (host : Host σ) (code : Code) (views : List View) (m : Machine σ) : Prop :=
  ∀ pc m', Reaches host code (0, m.ready code) (pc, m') → ∀ i after,
    code.instructions[pc]? = some i → views[pc + 1]? = some after → m'.Returns host i after

/-- A turn to a machine that is as the views say, or an end that types do not exclude. -/
def Turn.Typed (sig : Signature) (slots : Nat) (views : List View) : Turn σ → Prop
  | .onward pc m => ∃ v, views[pc]? = some v ∧ v.Holds sig.field slots m
  | .ended outcome _ => ∀ why, outcome = .stopped why → why.Expected

namespace Machine

/-- What asks for no more than is known holds. -/
theorem holds_of_admits {pc slots : Nat} {v : View} {m : Machine σ}
    (h : Admits (views[·]?) pc v) (hv : v.Holds sig.field slots m) :
    ∃ w, views[pc]? = some w ∧ w.Holds sig.field slots m := by
  obtain ⟨w, hw, hle⟩ := h
  exact ⟨w, hw, hv.below hle⟩

theorem step_goto_ne_raise (host : Host σ) (m : Machine σ) {i : Instruction}
    (hi : i.opcode = .goto) (thrown : Value) (m' : Machine σ) :
    m.step host code i ≠ .raise thrown m' := by
  obtain ⟨opcode, operand⟩ := i
  obtain rfl : opcode = .goto := hi
  simp only [step, branch]
  split
  · rw [goTo]
    split <;> simp
  · simp

theorem Returns.of_stack {host : Host σ} {m : Machine σ} {i : Instruction} {v w : View}
    (h : m.Returns host i v) (hstack : v.stack = w.stack) : m.Returns host i w := by
  intro name argc value state hi hcall
  rw [← hstack]
  exact h name argc value state hi hcall

/-- An object that is thrown comes to a handler that asks for no more than is known, or nothing
catches it. -/
theorem typed_unwind (hviews : Viewed code sig views) {pc slots : Nat} {i : Instruction}
    (hi : code.instructions[pc]? = some i) (hne : i.opcode ≠ .goto) {v : View}
    (hv : views[pc]? = some v) {m : Machine σ} {address : Nat}
    (hm : View.Holds sig.field slots ⟨v.locals, [.reference]⟩ { m with stack := [.ref address] }) :
    (∀ target m', m.unwind code pc (.ref address) = .ok (target, m') →
      ∃ w, views[target]? = some w ∧ w.Holds sig.field slots m') ∧
    ∀ why, m.unwind code pc (.ref address) = .error why → why.Expected := by
  have hlt : address < m.heap.size := by
    obtain ⟨hvalue, -⟩ := List.forall₂_cons.mp hm.stack
    obtain hnull | ⟨a, ha, href⟩ := hvalue
    · cases hnull
    · cases href
      exact ha
  have hclass : m.classOf? (.ref address) = some m.heap[address].className := by
    rw [classOf?, object?, Array.getElem?_eq_getElem hlt, Option.map_some]
  rw [unwind, hclass]
  simp only
  cases hrow : code.handlers.find? (m.takes pc m.heap[address].className) with
  | none => exact ⟨by simp, by rintro why ⟨⟩; trivial⟩
  | some row =>
      have htakes := List.find?_some hrow
      rw [takes, Bool.and_eq_true] at htakes
      refine ⟨?_, by simp⟩
      rintro target m' ⟨⟩
      exact holds_of_admits (hviews.catches pc i v hi hne hv row (List.mem_of_find?_eq_some hrow)
        htakes.1) hm

/-- A machine that is as the views say is so after its next instruction. -/
theorem typed_advance (hcode : code.WellFormed) (hviews : Viewed code sig views)
    {host : Host σ} {pc : Nat} {v : View} {m : Machine σ} (hv : views[pc]? = some v)
    (hm : v.Holds sig.field code.maxLocals m)
    (hreturns : ∀ i after, code.instructions[pc]? = some i → views[pc + 1]? = some after →
      m.Returns host i after) :
    (m.advance host code pc).Typed sig code.maxLocals views := by
  obtain ⟨hlt, -⟩ := List.getElem?_eq_some_iff.mp hv
  obtain ⟨i, hi⟩ : ∃ i, code.instructions[pc]? = some i :=
    ⟨_, Array.getElem?_eq_getElem (by rw [← hviews.length]; exact hlt)⟩
  have hmem := Array.mem_of_getElem? hi
  obtain ⟨next, target, hleads, -, hnext, htarget⟩ := hviews.steps pc hlt i v hi hv
  have hstep := hleads host m hm (hcode.shaped i hmem) (hcode.closed.targets i hmem) (by
    intro after hafter
    obtain ⟨w, hw, hle⟩ := hnext after hafter
    exact (hreturns i w hi hw).of_stack hle.stack)
  rw [advance, hi]
  simp only
  cases hs : m.step host code i with
  | next m' =>
      rw [hs] at hstep
      obtain ⟨w, hw, hholds⟩ := hstep
      exact holds_of_admits (hnext w hw) hholds
  | jump pc' m' =>
      rw [hs] at hstep
      obtain ⟨w, ⟨⟨l, hl, hpos⟩, rfl⟩, hholds⟩ := hstep
      exact holds_of_admits (htarget l hl pc' hpos) hholds
  | halt m' => exact fun why h => by cases h
  | stop why m' =>
      rw [hs] at hstep
      rintro why' ⟨⟩
      exact hstep
  | raise thrown m' =>
      have hne : i.opcode ≠ .goto := fun hgoto => step_goto_ne_raise host m hgoto thrown m' hs
      rw [hs] at hstep
      obtain ⟨⟨address, rfl⟩, hholds⟩ := hstep
      obtain ⟨hcaught, huncaught⟩ := typed_unwind hviews hi hne hv hholds
      simp only
      cases hu : m'.unwind code pc (.ref address) with
      | ok caught => exact hcaught caught.1 caught.2 hu
      | error why =>
          rintro why' ⟨⟩
          exact huncaught why hu

/-- Wherever a run comes, the machine is as the views say. -/
theorem holds_of_reaches (hcode : code.WellFormed) (hviews : Viewed code sig views)
    {host : Host σ} {m : Machine σ} (hheap : m.heap = #[])
    (hhost : m.ReturnsAlong host code views) {c : Nat × Machine σ}
    (hreach : Reaches host code (0, m.ready code) c) :
    ∃ v, views[c.1]? = some v ∧ v.Holds sig.field code.maxLocals c.2 := by
  induction hreach with
  | refl =>
      refine holds_of_admits hviews.start ⟨Array.size_replicate, by simp, .nil, fun o ho => ?_⟩
      rw [ready, hheap] at ho
      cases Array.not_mem_empty _ ho
  | @tail b c hreach honward ih =>
      obtain ⟨v, hv, hm⟩ := ih
      have hnext := typed_advance hcode hviews hv hm (hhost b.1 b.2 hreach)
      rw [Onward] at honward
      rw [honward] at hnext
      exact hnext

end Machine

/-- Take a body that conforms to a signature. The types in its tree can be relied on, and there is
a view for each instruction of its code, in which the value that a call returns is represented
as the call declares it. In every run on a new machine to which calls return such values, the
views hold: values on the stack, fields and the locals in scope are represented as their types
say, at every instruction but one kind. At the jump of a break or continue that has run copies
of finally bodies, only the locals in scope at the outermost try that has such a body are known
to be, because the copies use the slots of the others for locals of their own. No such run stops
but at the step limit, at a field that was never stored into, at a call that nobody answers, or
because nothing catches an object. -/
theorem typed_runs {settings : Settings} {p : Source.Program} {h : Annotated.Program}
    {code : Code} {sig : Signature} (hcheck : check settings p = .ok h)
    (hp : Source.Stmt.AllConform sig true p.body)
    (hcode : generate settings.maxLabels h = .ok code) :
    Annotated.Stmt.AllTyped sig true [] h.body ∧
      h.views.length = code.instructions.size ∧
      (∀ pc name argc, code.instructions[pc]? = some ⟨.invoke, some (.call name argc true)⟩ →
        ∃ v k, h.views[pc + 1]? = some v ∧ v.stack.head? = some k ∧ sig.returns name k) ∧
      ∀ (σ : Type) (host : Host σ) (m : Machine σ), m.heap = #[] →
        m.ReturnsAlong host code h.views →
        (∀ pc m', Machine.Reaches host code (0, m.ready code) (pc, m') →
          ∃ v, h.views[pc]? = some v ∧ v.Holds sig.field code.maxLocals m') ∧
        ∀ limit why, (m.execute host limit code).1 = .stopped why → why.Expected := by
  obtain ⟨hi, hsound⟩ := check_sound hcheck
  have htyped := check_typed hcheck hp
  have hviews := viewed_of_generate hsound htyped hcode
  have hcompile : compile settings p = .ok code := by
    rw [compile, hcheck]
    exact hcode
  have hwell := wellFormed_of_compile hcompile
  refine ⟨htyped, hviews.length, fun pc name argc => hviews.declared, fun σ host m hheap hhost => ?_⟩
  have hreach : ∀ pc m', Machine.Reaches host code (0, m.ready code) (pc, m') →
      ∃ v, h.views[pc]? = some v ∧ v.Holds sig.field code.maxLocals m' :=
    fun pc m' => Machine.holds_of_reaches hwell hviews hheap hhost
  refine ⟨hreach, fun limit why hstopped => ?_⟩
  obtain ⟨pc, m', hr, hrun | ⟨outcome, m'', hended, hrun⟩⟩ :=
    Machine.runFrom_cases host code limit limit 0 (m.ready code)
  · rw [Machine.execute, hrun] at hstopped
    obtain rfl := Outcome.stopped.inj hstopped
    trivial
  · rw [Machine.execute, hrun] at hstopped
    obtain ⟨v, hv, hm⟩ := hreach pc m' hr
    have hlast := Machine.typed_advance hwell hviews hv hm (hhost pc m' hr)
    rw [hended] at hlast
    exact hlast why hstopped

/-- A slot holds a double in the block of a try and an object in its clause, and is set aside in
the finally body, which a break leaves through. -/
def reusing : Source.Program :=
  ⟨[.localDecl 1 "box" (.reference "Box") (some (.new 1 "Box")),
    .forLoop 2 [.localDecl 2 "i" .int (some (.literal 2 (.int 0)))]
      (some (.binary 2 .lessThan (.var 2 "i") (.literal 2 (.int 3))))
      [.expression 2 (.update 2 .postIncrement (.var 2 "i"))]
      (.tryCatch 3 ⟨3, [.localDecl 3 "d" .double (some (.var 3 "i")),
          .ifElse 4 (.call 4 "found" [.var 4 "d"] .boolean) (.breakJump 4) none,
          .expression 5 (.assignment 5 (.field 5 (.var 5 "box") "size" .double) (.var 5 "d"))]⟩
        [⟨6, "Fault", "f", ⟨6, [.expression 6 (.assignment 6
          (.field 6 (.var 6 "box") "fault" (.reference "Fault")) (.var 6 "f"))]⟩⟩]
        (some ⟨7, [.localDecl 7 "n" .long (some (.var 7 "i")),
          .expression 8 (.call 8 "log" [.var 8 "n"] .void)]⟩)),
    .localDecl 9 "b" .boolean (some (.literal 9 (.boolean true))),
    .throw 10 (.field 10 (.var 10 "box") "fault" (.reference "Fault"))]⟩

/-- What the body says of its fields and calls. -/
def reusingSignature : Signature :=
  ⟨fun name => if name = "size" then .double else .reference,
    fun name k => name = "found" ∧ k = .int⟩

/-- A host that throws when it is first asked, then says no, and then yes. -/
def undecided : Host Nat :=
  ⟨fun n name _ =>
    if name = "found" then
      if n = 0 then some (.throws "Fault", 1)
      else some (.returns (.int (if n = 1 then 0 else 1)), n + 1)
    else some (.returns .null, n)⟩

theorem conforms_reusing : Source.Stmt.AllConform reusingSignature true reusing.body := by
  simp [reusing, reusingSignature, Source.Stmt.AllConform, Source.Stmt.Conforms,
    Source.Stmt.ClausesConform, Source.Expr.Conforms, Source.Expr.AllConform,
    Source.Expr.isVoidCall, Ty.kind?]

/-- The host returns an int wherever it is asked. -/
theorem undecided_returns {m : Machine Nat} {i : Instruction} {after : View}
    (h : ∀ name argc, i = ⟨.invoke, some (.call name argc true)⟩ →
      name = "found" ∧ after.stack.head? = some .int) : m.Returns undecided i after := by
  intro name argc value state hi hcall k hk
  obtain ⟨rfl, hint⟩ := h name argc hi
  rw [Option.mem_def, hint] at hk
  obtain rfl := Option.some.inj hk
  simp only [undecided, if_pos] at hcall
  split at hcall
  · cases hcall
  · obtain ⟨hvalue, -⟩ := Prod.mk.inj (Option.some.inj hcall)
    exact ⟨_, (Reply.returns.inj hvalue).symm⟩

theorem typed_runs_reusing :
    Source.Stmt.AllConform reusingSignature true reusing.body ∧
      ∃ h code, check {} reusing = .ok h ∧ generate 4294967295 h = .ok code ∧
        0 < code.handlers.length ∧ Annotated.Stmt.AllTyped reusingSignature true [] h.body ∧
        h.views.length = code.instructions.size ∧
        (∀ pc m', Machine.Reaches undecided code
            (0, ({ host := 0 } : Machine Nat).ready code) (pc, m') →
          ∃ v, h.views[pc]? = some v ∧ v.Holds reusingSignature.field code.maxLocals m') ∧
        ∀ limit why, (({ host := 0 } : Machine Nat).execute undecided limit code).1 =
          .stopped why → why.Expected := by
  have hrows : ((check {} reusing).toOption.bind fun h => (generate 4294967295 h).toOption.map
      fun code => decide (0 < code.handlers.length)) = some true := by
    decide +kernel
  refine ⟨conforms_reusing, ?_⟩
  cases hcheck : check {} reusing with
  | error e => simp [hcheck, Except.toOption] at hrows
  | ok h =>
      rw [hcheck, Except.toOption, Option.bind_some] at hrows
      cases hcode : generate 4294967295 h with
      | error e => simp [hcode, Except.toOption] at hrows
      | ok code =>
          rw [hcode] at hrows
          obtain ⟨htyped, hlength, hcalls, hruns⟩ := typed_runs hcheck conforms_reusing hcode
          obtain ⟨hholds, hstops⟩ := hruns Nat undecided { host := 0 } rfl (by
            intro pc m' hr i after hi hafter
            refine undecided_returns ?_
            rintro name argc rfl
            obtain ⟨v, k, hv, hk, rfl, rfl⟩ := hcalls pc name argc hi
            obtain rfl := Option.some.inj (hafter.symm.trans hv)
            exact ⟨rfl, hk⟩)
          exact ⟨h, code, rfl, hcode, of_decide_eq_true (Option.some.inj hrows), htyped, hlength,
            hholds, hstops⟩

/-- A break leaves a try whose finally body declares a local of its own. -/
def overwriting (x : Float) : Source.Program :=
  ⟨[.whileLoop 1 (.literal 1 (.boolean true)) (.tryCatch 2
      ⟨2, [.localDecl 2 "x" .int (some (.literal 2 (.int 1))),
        .localDecl 3 "y" .int (some (.literal 3 (.int 2))), .breakJump 4]⟩ []
      (some ⟨5, [.localDecl 5 "d" .double (some (.literal 5 (.double x)))]⟩))]⟩

/-- What is declared where the break stands. -/
def overwritten : List Annotated.Stmt :=
  [.localInit 0 (.int .int 1), .localInit 1 (.int .int 2)]

/-- The tree of the break. -/
def overwritingTree (x : Float) : Annotated.Program :=
  ⟨[.whileLoop ⟨0, true, false⟩ (.bool .boolean true) (.tryCatch
      (overwritten ++ [.breakJump 0]) [] (some ⟨0, [.localInit 1 (.double .double x)]⟩))], 2⟩

/-- Where a run is that goes on for so many instructions. -/
def Machine.follow {σ : Type} (host : Host σ) (code : Code) :
    Nat → Nat × Machine σ → Option (Nat × Machine σ)
  | 0, c => some c
  | n + 1, c =>
      match c.2.advance host code c.1 with
      | .onward pc m => follow host code n (pc, m)
      | .ended _ _ => none

theorem Machine.reaches_of_follow {σ : Type} {host : Host σ} {code : Code} {n : Nat}
    {c c' : Nat × Machine σ} (h : follow host code n c = some c') : Reaches host code c c' := by
  induction n generalizing c with
  | zero => exact Option.some.inj h ▸ .refl
  | succ n ih =>
      rw [follow] at h
      split at h
      · next hadvance => exact .head (show Onward host code c (_, _) from hadvance) (ih h)
      · cases h

/-- The jump of the break is reached with a double in the slot of an int in scope: the finally
body that was run before it keeps its own local there. -/
theorem double_in_slot_of_int :
    Source.Stmt.AllConform reusingSignature true (overwriting 2.0).body ∧
      check {} (overwriting 2.0) = .ok (overwritingTree 2.0) ∧
      ∃ code, generate 4294967295 (overwritingTree 2.0) = .ok code ∧
        code.instructions[6]? = some ⟨.goto, some (.label 2)⟩ ∧
        ∃ m', Machine.Reaches undecided code
            (0, ({ host := 0 } : Machine Nat).ready code) (6, m') ∧
          ¬ View.Holds reusingSignature.field code.maxLocals
            ⟨Annotated.Stmt.declareAll [] overwritten, []⟩ m' := by
  let start (code : Code) : Nat × Machine Nat := (0, ({ host := 0 } : Machine Nat).ready code)
  have hrun : ((generate 4294967295 (overwritingTree 2.0)).toOption.bind fun code =>
      (Machine.follow undecided code 6 (start code)).map fun c =>
        (code.instructions[6]?, c.1, c.2.locals[1]?)) =
      some (some ⟨.goto, some (.label 2)⟩, 6, some (.double 2.0)) := by
    decide +kernel
  refine ⟨?_, ?_, ?_⟩
  · simp [overwriting, Source.Stmt.AllConform, Source.Stmt.Conforms,
      Source.Stmt.ClausesConform, Source.Expr.Conforms]
  · generalize (2.0 : Float) = x
    cbv
  cases hcode : generate 4294967295 (overwritingTree 2.0) with
  | error e => simp [hcode, Except.toOption] at hrun
  | ok code =>
      rw [hcode] at hrun
      obtain ⟨⟨pc, m'⟩, hfollow, heq⟩ := Option.map_eq_some_iff.mp hrun
      simp only [Prod.mk.injEq] at heq
      obtain ⟨hgoto, rfl, hdouble⟩ := heq
      refine ⟨code, rfl, hgoto, m', Machine.reaches_of_follow hfollow, fun hm => ?_⟩
      obtain ⟨w, hw, hint⟩ := hm.locals 1 .int rfl
      obtain rfl := Option.some.inj (hdouble.symm.trans hw)
      obtain ⟨n, hn⟩ := hint
      cases hn

end MethodCompiler
