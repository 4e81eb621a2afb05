import MethodCompiler.Proofs.Compilation
import MethodCompiler.Proofs.Grounding
import MethodCompiler.Proofs.Shapes

/-!
# Runs of closed code

Compiled code ends with a halt, refers to nothing outside it, and gives every opcode the
operand that it wants. A machine whose references lead to objects then never has a reason
to stop that lies in the code: it neither leaves the code nor finds a label without place,
a slot that is not there or an operand it cannot use.

That is said of one step by `safe_step`, for every opcode, and of a run by `safe_of_reaches`.
-/

namespace MethodCompiler

/-- Code that ends with a halt, refers to nothing outside it, and whose instructions have
the operands they want. -/
structure Code.WellFormed (code : Code) : Prop where
  last : code.instructions.back? = some ⟨.halt, none⟩
  closed : code.Closed
  shaped : ∀ i ∈ code.instructions, i.Shaped code.maxLocals

/-- The reasons to stop that lie in the code, or in a reference that leads nowhere. -/
def Stop.Malformed : Stop → Prop
  | .badOperand .. | .ranOff _ | .unplacedLabel _ | .defect _ => True
  | .stackUnderflow | .value _ | .fieldUnset _ | .unknownCall _ | .cannotThrow _ | .stepLimit _
  | .uncaught _ => False

variable {σ : Type}

/-- A step that stays inside the code and keeps the number of locals, or ends for a reason
that does not lie in the code. -/
def Step.Safe (code : Code) (i : Instruction) (slots : Nat) : Step σ → Prop
  | .next m => i.opcode ≠ .halt ∧ m.locals.size = slots
  | .jump pc m => pc < code.instructions.size ∧ m.locals.size = slots
  | .raise _ m => m.locals.size = slots
  | .halt _ => True
  | .stop why _ => ¬ why.Malformed

namespace Machine

section Parts

variable {m : Machine σ} {code : Code} {i : Instruction} {slots : Nat}

theorem safe_withTop {k : Value → Machine σ → Step σ}
    (hk : ∀ v rest, m.stack = v :: rest → (k v { m with stack := rest }).Safe code i slots) :
    (m.withTop k).Safe code i slots := by
  rw [withTop]
  split
  · exact id
  · next v rest hstack => exact hk v rest hstack

theorem safe_unary {f : Value → Except ValueError Value} (hi : i.opcode ≠ .halt)
    (hm : m.locals.size = slots) :
    (m.withTop fun v m => m.pushResult (f v)).Safe code i slots := by
  refine safe_withTop fun v rest _ => ?_
  cases f v with
  | ok w => exact ⟨hi, hm⟩
  | error e => exact id

theorem safe_goTo {l : Label} (hl : ∃ pc < code.instructions.size, code.position l = some pc)
    (hm : m.locals.size = slots) : (m.goTo code l).Safe code i slots := by
  obtain ⟨pc, hpc, hpos⟩ := hl
  rw [goTo, hpos]
  exact ⟨hpc, hm⟩

section Jumps

variable (htargets : ∀ l ∈ i.targets, ∃ pc < code.instructions.size, code.position l = some pc)
  (hm : m.locals.size = slots)

include htargets hm

theorem safe_branch (hop : ∃ l, i.operand = some (.label l)) :
    (m.branch code i).Safe code i slots := by
  obtain ⟨l, hop⟩ := hop
  rw [branch, hop]
  exact safe_goTo (htargets l (by simp [Instruction.targets, hop])) hm

theorem safe_branchIfZero {zero : Bool} (hi : i.opcode ≠ .halt)
    (hop : ∃ l, i.operand = some (.label l)) : (m.branchIfZero code i zero).Safe code i slots := by
  refine safe_withTop fun v rest _ => ?_
  split
  · exact safe_branch htargets hm hop
  · exact ⟨hi, hm⟩

theorem safe_branchIf {c : Comparison} (hi : i.opcode ≠ .halt)
    (hop : ∃ l, i.operand = some (.label l)) : (m.branchIf code i c).Safe code i slots := by
  refine safe_withTop fun right rest _ => safe_withTop fun left rest' _ => ?_
  split
  · exact safe_branch htargets hm hop
  · exact ⟨hi, hm⟩
  · exact id

/-- A key in the range of a table is the index of a target. -/
theorem safe_switchByTable {t : TableSwitch} (hop : i.operand = some (.table t))
    (hsize : (t.targets.size : Int) = t.high.toInt - t.low.toInt + 1) :
    (m.switchByTable code i).Safe code i slots := by
  rw [switchByTable, hop]
  refine safe_withTop fun v rest _ => ?_
  split
  · next key _ =>
      simp only
      split
      · next hkey =>
          rw [Int32.le_iff_toInt_le, Int32.le_iff_toInt_le] at hkey
          have hindex : (key.toInt - t.low.toInt).toNat < t.targets.size := by omega
          rw [Array.getElem?_eq_getElem hindex]
          refine safe_goTo (htargets _ ?_) hm
          rw [Instruction.targets, hop]
          exact List.mem_cons_of_mem _ (Array.mem_toList_iff.mpr (Array.getElem_mem hindex))
      · exact safe_goTo (htargets _ (by simp [Instruction.targets, hop])) hm
  · exact id

theorem safe_switchByLookup {t : LookupSwitch} (hop : i.operand = some (.lookup t)) :
    (m.switchByLookup code i).Safe code i slots := by
  rw [switchByLookup, hop]
  refine safe_withTop fun v rest _ => ?_
  split
  · simp only
    split
    · next k l hl =>
        refine safe_goTo (htargets l ?_) hm
        rw [Array.findRev?_eq_find?_reverse] at hl
        have hmem : (k, l) ∈ t.pairs := Array.mem_reverse.mp (Array.mem_of_find?_eq_some hl)
        rw [Instruction.targets, hop]
        exact List.mem_cons_of_mem _ (List.mem_map_of_mem (Array.mem_toList_iff.mpr hmem))
    · exact safe_goTo (htargets _ (by simp [Instruction.targets, hop])) hm
  · exact id

end Jumps

theorem safe_arithmetic {op : Arithmetic} (hi : i.opcode ≠ .halt) (hm : m.locals.size = slots) :
    (m.arithmetic op).Safe code i slots := by
  refine safe_withTop fun right rest _ => safe_withTop fun left rest' _ => ?_
  split
  · exact ⟨hi, hm⟩
  · exact hm
  · exact id

theorem safe_pushConstant (hi : i.opcode ≠ .halt) (hm : m.locals.size = slots)
    (hop : ∃ operand, i.operand = some operand ∧
      ((∃ v, operand = .int v) ∨ (∃ v, operand = .long v) ∨ ∃ v, operand = .double v)) :
    (m.pushConstant i).Safe code i slots := by
  obtain ⟨operand, hop, ⟨v, rfl⟩ | ⟨v, rfl⟩ | ⟨v, rfl⟩⟩ := hop <;> rw [pushConstant, hop] <;>
    exact ⟨hi, hm⟩

theorem safe_load (hi : i.opcode ≠ .halt) (hm : m.locals.size = slots)
    (hop : ∃ slot < slots, i.operand = some (.slot slot)) : (m.load i).Safe code i slots := by
  obtain ⟨slot, hslot, hop⟩ := hop
  rw [load, hop]
  simp only
  rw [Array.getElem?_eq_getElem (by omega)]
  exact ⟨hi, hm⟩

theorem safe_store (hi : i.opcode ≠ .halt) (hm : m.locals.size = slots)
    (hop : ∃ slot < slots, i.operand = some (.slot slot)) : (m.store i).Safe code i slots := by
  obtain ⟨slot, hslot, hop⟩ := hop
  rw [store, hop]
  refine safe_withTop fun v rest _ => ?_
  simp only
  rw [if_pos (by omega)]
  exact ⟨hi, by simp [hm]⟩

theorem safe_increment (hi : i.opcode ≠ .halt) (hm : m.locals.size = slots)
    (hop : ∃ slot < slots, ∃ delta, i.operand = some (.increment slot delta)) :
    (m.increment i).Safe code i slots := by
  obtain ⟨slot, hslot, delta, hop⟩ := hop
  rw [increment, hop]
  simp only
  rw [Array.getElem?_eq_getElem (by omega)]
  simp only
  split
  · exact ⟨hi, by simp [hm]⟩
  · exact id

theorem safe_getField (hgrounded : m.Grounded) (hi : i.opcode ≠ .halt)
    (hm : m.locals.size = slots) (hop : ∃ name, i.operand = some (.name name)) :
    (m.getField i).Safe code i slots := by
  obtain ⟨name, hop⟩ := hop
  rw [getField, hop]
  refine safe_withTop fun v rest hstack => ?_
  have hv : v.Within m.heap.size := hgrounded.stack v (by simp [hstack])
  cases v with
  | ref address =>
      have hlt : address < m.heap.size := hv
      simp only
      rw [Array.getElem?_eq_getElem hlt]
      simp only
      split
      · exact ⟨hi, hm⟩
      · exact id
  | _ => exact hm

theorem safe_putField (hgrounded : m.Grounded) (hi : i.opcode ≠ .halt)
    (hm : m.locals.size = slots) (hop : ∃ name, i.operand = some (.name name)) :
    (m.putField i).Safe code i slots := by
  obtain ⟨name, hop⟩ := hop
  rw [putField, hop]
  refine safe_withTop fun v rest hstack => safe_withTop fun target rest' hstack' => ?_
  simp only at hstack'
  have htarget : target.Within m.heap.size := hgrounded.stack target (by simp [hstack, hstack'])
  cases target with
  | ref address =>
      have hlt : address < m.heap.size := htarget
      simp only
      rw [if_pos hlt]
      exact ⟨hi, hm⟩
  | _ => exact hm

theorem safe_invoke {host : Host σ} (hi : i.opcode ≠ .halt) (hm : m.locals.size = slots)
    (hop : ∃ name argc returns, i.operand = some (.call name argc returns)) :
    (m.invoke host i).Safe code i slots := by
  obtain ⟨name, argc, returns, hop⟩ := hop
  rw [invoke, hop]
  simp only
  split
  · exact id
  · rw [call]
    split
    · cases returns <;> exact ⟨hi, hm⟩
    · exact hm
    · cases returns
      · exact ⟨hi, hm⟩
      · exact id

end Parts

/-- A step of shaped code in a machine without loose references is safe. -/
theorem safe_step {m : Machine σ} {code : Code} {i : Instruction} (host : Host σ)
    (hgrounded : m.Grounded) (hm : m.locals.size = code.maxLocals)
    (hshaped : i.Shaped code.maxLocals)
    (htargets : ∀ l ∈ i.targets, ∃ pc < code.instructions.size, code.position l = some pc) :
    (m.step host code i).Safe code i code.maxLocals := by
  by_cases hi : i.opcode = .halt
  · rw [step, hi]
    exact trivial
  obtain ⟨opcode, operand⟩ := i
  cases opcode with
  | halt => exact absurd rfl hi
  | nop | pushNull | lconst0 | lconst1 | dconst0 | dconst1 => exact ⟨hi, hm⟩
  | push => exact safe_pushConstant hi hm hshaped
  | load => exact safe_load hi hm hshaped
  | store => exact safe_store hi hm hshaped
  | inc => exact safe_increment hi hm hshaped
  | pop | dup =>
      simp only [step]
      exact safe_withTop fun _ _ _ => ⟨hi, hm⟩
  | dupX1 =>
      simp only [step]
      exact safe_withTop fun _ _ _ => safe_withTop fun _ _ _ => ⟨hi, hm⟩
  | add | sub | mul | div | rem | xor => exact safe_arithmetic hi hm
  | neg | i2l | i2d | l2d => exact safe_unary hi hm
  | goto => exact safe_branch htargets hm hshaped
  | ifEq | ifNe => exact safe_branchIfZero htargets hm hi hshaped
  | ifCmpEq | ifCmpNe | ifCmpLt | ifCmpGe | ifCmpGt | ifCmpLe =>
      exact safe_branchIf htargets hm hi hshaped
  | tableSwitch =>
      obtain ⟨t, hop, hsize⟩ := hshaped
      exact safe_switchByTable htargets hm hop hsize
  | lookupSwitch =>
      obtain ⟨t, hop, -⟩ := hshaped
      exact safe_switchByLookup htargets hm hop
  | new =>
      obtain ⟨name, rfl⟩ : ∃ name, operand = some (.name name) := hshaped
      exact ⟨hi, hm⟩
  | getField => exact safe_getField hgrounded hi hm hshaped
  | putField => exact safe_putField hgrounded hi hm hshaped
  | invoke => exact safe_invoke hi hm hshaped
  | throw =>
      simp only [step]
      refine safe_withTop fun v rest _ => ?_
      cases v <;> exact hm

/-! ## Runs -/

/-- A machine at an instruction of the code, with as many locals as the code has. -/
structure Inside (code : Code) (pc : Nat) (m : Machine σ) : Prop where
  lt : pc < code.instructions.size
  locals : m.locals.size = code.maxLocals

/-- Behind an instruction that is no halt there is another one. -/
theorem succ_lt_of_ne_halt {code : Code} (hcode : code.WellFormed) {pc : Nat} {i : Instruction}
    (hi : code.instructions[pc]? = some i) (hne : i.opcode ≠ .halt) :
    pc + 1 < code.instructions.size := by
  obtain ⟨hlt, -⟩ := Array.getElem?_eq_some_iff.mp hi
  by_contra hge
  have hlast := hcode.last
  rw [Array.back?_eq_getElem?, show code.instructions.size - 1 = pc by omega, hi] at hlast
  obtain rfl := Option.some.inj hlast
  exact hne rfl

end Machine

/-- A turn that stays inside the code, or ends for a reason that does not lie in it. -/
def Turn.Safe (code : Code) : Turn σ → Prop
  | .onward pc m => m.Inside code pc
  | .ended outcome _ => ∀ why, outcome = .stopped why → ¬ why.Malformed

namespace Machine

theorem safe_advance {m : Machine σ} {code : Code} {pc : Nat} (host : Host σ)
    (hcode : code.WellFormed) (hgrounded : m.Grounded) (hin : m.Inside code pc) :
    (m.advance host code pc).Safe code := by
  have hlt := hin.lt
  obtain ⟨i, hi⟩ : ∃ i, code.instructions[pc]? = some i := ⟨_, Array.getElem?_eq_getElem hlt⟩
  have hmem : i ∈ code.instructions := Array.mem_of_getElem? hi
  have hsafe := safe_step host hgrounded hin.locals (hcode.shaped i hmem)
    (hcode.closed.targets i hmem)
  simp only [advance, hi]
  cases hstep : m.step host code i with
  | next m' =>
      rw [hstep] at hsafe
      exact ⟨succ_lt_of_ne_halt hcode hi hsafe.1, hsafe.2⟩
  | jump pc' m' =>
      rw [hstep] at hsafe
      exact ⟨hsafe.1, hsafe.2⟩
  | halt m' => exact fun _ heq => by cases heq
  | stop why m' =>
      rw [hstep] at hsafe
      rintro _ heq
      obtain rfl := Outcome.stopped.inj heq
      exact hsafe
  | raise thrown m' =>
      rw [hstep] at hsafe
      simp only [unwind]
      cases m'.classOf? thrown with
      | none =>
          rintro _ heq
          obtain rfl := Outcome.stopped.inj heq
          exact id
      | some className =>
          simp only
          cases hrow : code.handlers.find? (m'.takes pc className) with
          | none =>
              rintro _ heq
              obtain rfl := Outcome.stopped.inj heq
              exact id
          | some row =>
              exact ⟨(hcode.closed.rows row (List.mem_of_find?_eq_some hrow)).2.2, hsafe⟩

theorem inside_of_reaches {m : Machine σ} {host : Host σ} {code : Code} (hcode : code.WellFormed)
    (hm : m.Grounded) (hhost : m.AnswersAlong host code) {c : Nat × Machine σ}
    (hreach : Reaches host code (0, m.ready code) c) : c.2.Inside code c.1 := by
  induction hreach with
  | refl =>
      refine ⟨?_, by simp [ready]⟩
      have hlast := hcode.last
      rw [Array.back?_eq_getElem?] at hlast
      obtain ⟨hlt, -⟩ := Array.getElem?_eq_some_iff.mp hlast
      show 0 < code.instructions.size
      omega
  | tail hreach honward ih =>
      have hgrounded := (follows_of_reaches hm hhost hreach).grounded
      have hnext := safe_advance host hcode hgrounded ih
      rw [Onward] at honward
      rw [honward] at hnext
      exact hnext

end Machine

/-! ## Compiled code -/

/-- A directive of the right shape and size emits an instruction of the right shape. -/
theorem Directive.Shaped.instruction {slots : Nat} {d : Directive} (h : d.Shaped slots)
    (hsized : d.Sized) {i : Instruction} (hi : d.instruction? = some i) : i.Shaped slots := by
  cases d with
  | create l | place l | handler start stop target catchType => cases hi
  | emit i' =>
      obtain rfl := Option.some.inj hi
      exact h
  | table default low high targets =>
      obtain rfl := Option.some.inj hi
      exact ⟨_, rfl, hsized⟩
  | lookup default count pairs =>
      obtain rfl := Option.some.inj hi
      exact ⟨_, rfl, h⟩

theorem wellFormed_of_compile {settings : Settings} {p : Source.Program} {code : Code}
    (h : compile settings p = .ok code) : code.WellFormed := by
  rw [compile] at h
  cases hcheck : check settings p with
  | error e =>
      rw [hcheck] at h
      cases h
  | ok tree =>
      rw [hcheck] at h
      have hcode : generate settings.maxLabels tree = .ok code := h
      obtain ⟨hi, hsound⟩ := check_sound hcheck
      obtain ⟨ds, n', hds, htidy⟩ := directives_of_sound hsound
      obtain ⟨ds', hds', hassembled, hlocals⟩ := generate_ok hcode
      obtain rfl := Except.ok.inj (hds.symm.trans hds')
      obtain ⟨ps, _, hyields, heq⟩ := Lowering.directives_eq_ok_iff.mp hds
      refine ⟨?_, hassembled.closed htidy, fun i hi => ?_⟩
      · rw [← Array.getLast?_toList, hassembled.instructions, List.filterMap_append]
        simp [Directive.instruction?]
      · rw [← Array.mem_toList_iff, hassembled.instructions] at hi
        obtain ⟨d, hd, hdi⟩ := List.mem_filterMap.mp hi
        have hshaped := Lowering.shaped_program (check_slots hcheck) hyields
        rw [Lowering.AllShaped, ← heq, ← hlocals] at hshaped
        exact (hshaped d hd).instruction (htidy.sized d hd) hdi

/-- Compiled code is well-formed. No run of it that starts without loose references and in
which calls return none ends for a reason that lies in the code. -/
theorem closed_runs {settings : Settings} {p : Source.Program} {code : Code}
    (h : compile settings p = .ok code) :
    code.WellFormed ∧ ∀ (σ : Type) (host : Host σ) (m : Machine σ), m.Grounded →
      m.AnswersAlong host code → ∀ limit why,
        (m.execute host limit code).1 = .stopped why → ¬ why.Malformed := by
  have hcode := wellFormed_of_compile h
  refine ⟨hcode, fun σ host m hm hhost limit why hstopped => ?_⟩
  obtain ⟨pc, m', hreach, hrun | ⟨outcome, m'', hended, hrun⟩⟩ :=
    Machine.runFrom_cases host code limit limit 0 (m.ready code)
  · rw [Machine.execute, hrun] at hstopped
    obtain rfl := Outcome.stopped.inj hstopped
    exact id
  · rw [Machine.execute, hrun] at hstopped
    have hgrounded := (Machine.follows_of_reaches hm hhost hreach).grounded
    have hin := Machine.inside_of_reaches hcode hm hhost hreach
    have hlast := Machine.safe_advance host hcode hgrounded hin
    rw [hended] at hlast
    exact hlast why hstopped

/-- A dense and a sparse switch in a loop that is left through a finally body. -/
def switching : Source.Program :=
  ⟨[.localDecl 1 "box" (.reference "Box") (some (.new 1 "Box")),
    .forLoop 2 [.localDecl 2 "i" .int (some (.literal 2 (.int 0)))] none
      [.expression 2 (.update 2 .preIncrement (.var 2 "i"))]
      (.tryCatch 3 ⟨3, [
          .switch 4 (.var 4 "i") [⟨[.case (.literal 4 (.int 0)), .case (.literal 4 (.int 1)),
              .case (.literal 4 (.int 2))], [.breakJump 5]⟩,
            ⟨[.default], [.expression 6 (.assignment 6 (.field 6 (.var 6 "box") "next"
              (.reference "Box")) (.var 6 "box"))]⟩],
          .switch 7 (.var 7 "i") [⟨[.case (.literal 7 (.int 900)), .case (.literal 7 (.int (-4)))],
            [.throw 8 (.var 8 "box")]⟩]]⟩ []
        (some ⟨9, [.expression 9 (.call 9 "log" [.var 9 "i"] .void)]⟩))]⟩

theorem closed_runs_switching :
    ∃ code, compile {} switching = .ok code ∧
      code.count .tableSwitch = 1 ∧ code.count .lookupSwitch = 1 ∧ code.WellFormed ∧
      ∀ limit why, (({ host := () } : Machine Unit).execute Machine.echo limit code).1 = .stopped why →
        ¬ why.Malformed := by
  have hcounts : (compile {} switching).toOption.map
      (fun code => (code.count .tableSwitch, code.count .lookupSwitch)) = some (1, 1) := by
    decide +kernel
  cases h : compile {} switching with
  | error e => simp [h, Except.toOption] at hcounts
  | ok code =>
      rw [h] at hcounts
      obtain ⟨htable, hlookup⟩ := Prod.mk.inj (Option.some.inj hcounts)
      obtain ⟨hcode, hruns⟩ := closed_runs h
      refine ⟨code, rfl, htable, hlookup, hcode, ?_⟩
      exact hruns Unit Machine.echo { host := () } ⟨by simp, by simp, by simp, by simp⟩
        fun _ _ _ hgrounded i _ => Machine.echo_answers hgrounded i

end MethodCompiler
