import Mathlib.Logic.Relation
import MethodCompiler.Machine.Run

/-!
# What instructions do

An instruction takes some values off the stack and puts some on, and how many does not
depend on the values. It writes at most the slot it names, and only if it goes on to the
next instruction. `effect_step` says so of every step: if there are enough values, the
step does not stop for want of them, and the height afterwards is known. Only what is
thrown leaves the height open, and a handler starts with the thrown value alone.

A run is then a chain of turns, and `Reaches` is the closure of going onward. Read off the
code alone, `Leads` says which positions may follow one another. A run follows it, so what
every step along `Leads` keeps is kept by every run.
-/

namespace MethodCompiler

namespace Instruction

/-- How many values an instruction takes off the stack. -/
def pops (i : Instruction) : Nat :=
  match i.opcode with
  | .push | .pushNull | .lconst0 | .lconst1 | .dconst0 | .dconst1 | .load | .inc | .goto | .new
  | .nop | .halt => 0
  | .store | .pop | .dup | .neg | .i2l | .i2d | .l2d | .ifEq | .ifNe | .tableSwitch
  | .lookupSwitch | .getField | .throw => 1
  | .dupX1 | .add | .sub | .mul | .div | .rem | .xor | .ifCmpEq | .ifCmpNe | .ifCmpLt | .ifCmpGe
  | .ifCmpGt | .ifCmpLe | .putField => 2
  | .invoke =>
    match i.operand with
    | some (.call _ argc _) => argc
    | _ => 0

/-- How many values it then puts on the stack. -/
def pushes (i : Instruction) : Nat :=
  match i.opcode with
  | .push | .pushNull | .lconst0 | .lconst1 | .dconst0 | .dconst1 | .load | .new | .neg | .i2l
  | .i2d | .l2d | .getField | .add | .sub | .mul | .div | .rem | .xor => 1
  | .dup => 2
  | .dupX1 => 3
  | .invoke =>
    match i.operand with
    | some (.call _ _ returns) => if returns then 1 else 0
    | _ => 0
  | _ => 0

/-- The slot that an instruction writes. -/
def writes (i : Instruction) : Option Nat :=
  match i.opcode, i.operand with
  | .store, some (.slot slot) | .inc, some (.increment slot _) => some slot
  | _, _ => none

/-- Whether the next instruction may follow. -/
def fallsThrough (i : Instruction) : Bool :=
  match i.opcode with
  | .goto | .tableSwitch | .lookupSwitch | .throw | .halt => false
  | _ => true

end Instruction

variable {σ : Type}

/-- A machine is another one without some of the values on top of its stack, but for what it has
in common with its host. -/
structure Machine.Took (m₀ : Machine σ) (n : Nat) (m : Machine σ) : Prop where
  locals : m.locals = m₀.locals
  height : m.stack.length + n = m₀.stack.length

/-- What a step of the instruction may do to a machine. -/
def Step.Effect (code : Code) (i : Instruction) (m₀ : Machine σ) : Step σ → Prop
  | .next m => i.fallsThrough ∧
    (∀ slot, i.writes ≠ some slot → m.locals[slot]? = m₀.locals[slot]?) ∧
    m.stack.length + i.pops = m₀.stack.length + i.pushes
  | .jump pc m => (∃ l ∈ i.targets, code.position l = some pc) ∧ m₀.Took i.pops m
  | .raise _ m => i.opcode ≠ .goto ∧ m.locals = m₀.locals
  | .halt _ => i.opcode = .halt
  | .stop why _ => why = .stackUnderflow → m₀.stack.length < i.pops

namespace Machine

section Parts

variable {m₀ m : Machine σ} {code : Code} {i : Instruction} {n : Nat}

theorem Took.none (m : Machine σ) : m.Took 0 m :=
  ⟨rfl, rfl⟩

theorem effect_next (hf : i.fallsThrough) (hp : i.pushes = 0) (hm : m₀.Took i.pops m) :
    (Step.next m).Effect code i m₀ :=
  ⟨hf, fun _ _ => by rw [hm.locals], by rw [hm.height, hp]; rfl⟩

theorem effect_withTop {k : Value → Machine σ → Step σ} (hm : m₀.Took n m) (hn : n < i.pops)
    (hk : ∀ v m', m₀.Took (n + 1) m' → (k v m').Effect code i m₀) :
    (m.withTop k).Effect code i m₀ := by
  have hheight := hm.height
  rw [withTop]
  split
  · next hstack =>
      rw [hstack, List.length_nil] at hheight
      exact fun _ => by omega
  · next v rest hstack =>
      rw [hstack, List.length_cons] at hheight
      exact hk v _ ⟨hm.locals, by rw [← hheight, Nat.add_assoc, Nat.add_comm 1]⟩

theorem effect_push {v : Value} (hf : i.fallsThrough) (hp : i.pushes = 1)
    (hm : m₀.Took i.pops m) : (m.push v).Effect code i m₀ := by
  refine ⟨hf, fun _ _ => by rw [hm.locals], ?_⟩
  rw [hp, ← hm.height, List.length_cons]
  omega

theorem effect_pushResult {r : Except ValueError Value} (hf : i.fallsThrough)
    (hp : i.pushes = 1) (hm : m₀.Took i.pops m) : (m.pushResult r).Effect code i m₀ := by
  cases r with
  | ok v => exact effect_push hf hp hm
  | error e => exact nofun

theorem effect_goTo {l : Label} (hl : l ∈ i.targets) (hm : m₀.Took i.pops m) :
    (m.goTo code l).Effect code i m₀ := by
  rw [goTo]
  split
  · next pc hpc => exact ⟨⟨l, hl, hpc⟩, hm⟩
  · exact nofun

theorem effect_branch (hm : m₀.Took i.pops m) : (m.branch code i).Effect code i m₀ := by
  rw [branch]
  split
  · next l hl => exact effect_goTo (by simp [Instruction.targets, hl]) hm
  · exact nofun

theorem effect_withInt {k : Int32 → Machine σ → Step σ} (hp : i.pops = 1)
    (hk : ∀ key m', m.Took i.pops m' → (k key m').Effect code i m) :
    (m.withInt k).Effect code i m := by
  refine effect_withTop (.none m) (by omega) fun v m' hm' => ?_
  split
  · next key _ => exact hk key m' (hp ▸ hm')
  · exact nofun

theorem effect_arithmetic {op : Arithmetic} (hpops : i.pops = 2) (hpushes : i.pushes = 1)
    (hf : i.fallsThrough) (hi : i.opcode ≠ .goto) : (m.arithmetic op).Effect code i m := by
  refine effect_withTop (.none m) (by omega) fun right m₁ h₁ =>
    effect_withTop h₁ (by omega) fun left m₂ h₂ => ?_
  split
  · exact effect_push hf hpushes (hpops ▸ h₂)
  · exact ⟨hi, h₂.locals⟩
  · exact nofun

theorem effect_branchIfZero {zero : Bool} (hpops : i.pops = 1) (hpushes : i.pushes = 0)
    (hf : i.fallsThrough) : (m.branchIfZero code i zero).Effect code i m := by
  refine effect_withTop (.none m) (by omega) fun v m₁ h₁ => ?_
  split
  · exact effect_branch (hpops ▸ h₁)
  · exact effect_next hf hpushes (hpops ▸ h₁)

theorem effect_branchIf {c : Comparison} (hpops : i.pops = 2) (hpushes : i.pushes = 0)
    (hf : i.fallsThrough) : (m.branchIf code i c).Effect code i m := by
  refine effect_withTop (.none m) (by omega) fun right m₁ h₁ =>
    effect_withTop h₁ (by omega) fun left m₂ h₂ => ?_
  split
  · exact effect_branch (hpops ▸ h₂)
  · exact effect_next hf hpushes (hpops ▸ h₂)
  · exact nofun

theorem effect_call {host : Host σ} {name : String} {args : List Value} {returns : Bool}
    (hf : i.fallsThrough) (hi : i.opcode ≠ .goto) (hpushes : i.pushes = if returns then 1 else 0)
    (hm : m₀.Took i.pops m) : (m.call host name args returns).Effect code i m₀ := by
  rw [call]
  split
  · cases returns
    · exact effect_next hf hpushes ⟨hm.locals, hm.height⟩
    · exact effect_push hf hpushes ⟨hm.locals, hm.height⟩
  · exact ⟨hi, hm.locals⟩
  · cases returns
    · exact effect_next hf hpushes ⟨hm.locals, hm.height⟩
    · exact nofun

theorem effect_pushConstant (hpops : i.pops = 0) (hpushes : i.pushes = 1) (hf : i.fallsThrough) :
    (m.pushConstant i).Effect code i m := by
  have hpush : ∀ v, (m.push v).Effect code i m := fun v =>
    effect_push hf hpushes (hpops ▸ .none m)
  rw [pushConstant]
  split
  · exact hpush _
  · exact hpush _
  · exact hpush _
  · exact nofun

theorem effect_load (hpops : i.pops = 0) (hpushes : i.pushes = 1) (hf : i.fallsThrough) :
    (m.load i).Effect code i m := by
  rw [load]
  split
  · split
    · exact effect_push hf hpushes (hpops ▸ .none m)
    · exact nofun
  · exact nofun

/-- A slot that is written is the one the instruction names. -/
theorem effect_write {slot : Nat} {v : Value} (hf : i.fallsThrough) (hpushes : i.pushes = 0)
    (hw : i.writes = some slot) (hm : m₀.Took i.pops m) :
    (Step.next { m with locals := m.locals.setIfInBounds slot v }).Effect code i m₀ := by
  refine ⟨hf, fun slot' hne => ?_, by rw [hm.height, hpushes]; rfl⟩
  have hslot : slot ≠ slot' := by
    rintro rfl
    exact hne hw
  rw [← hm.locals]
  exact Array.getElem?_setIfInBounds_ne hslot

theorem effect_store {operand : Option Operand} :
    (m.store ⟨.store, operand⟩).Effect code ⟨.store, operand⟩ m := by
  rw [store]
  split
  · next slot hslot =>
      obtain rfl : operand = some (.slot slot) := hslot
      refine effect_withTop (.none m) Nat.one_pos fun v m₁ h₁ => ?_
      split
      · exact effect_write rfl rfl rfl h₁
      · exact nofun
  · exact nofun

theorem effect_increment {operand : Option Operand} :
    (m.increment ⟨.inc, operand⟩).Effect code ⟨.inc, operand⟩ m := by
  rw [increment]
  split
  · next slot delta hslot =>
      obtain rfl : operand = some (.increment slot delta) := hslot
      split
      · exact nofun
      · split
        · exact effect_write rfl rfl rfl (.none m)
        · exact nofun
  · exact nofun

theorem effect_switchByTable (hpops : i.pops = 1) :
    (m.switchByTable code i).Effect code i m := by
  rw [switchByTable]
  split
  · next t ht =>
      refine effect_withInt hpops fun key m' hm' => ?_
      split
      · simp only
        split
        · next l hl =>
            refine effect_goTo ?_ hm'
            rw [Instruction.targets, ht]
            exact List.mem_cons_of_mem _ (Array.mem_toList_iff.mpr (Array.mem_of_getElem? hl))
        · exact nofun
      · exact effect_goTo (by simp [Instruction.targets, ht]) hm'
  · exact nofun

theorem effect_switchByLookup (hpops : i.pops = 1) :
    (m.switchByLookup code i).Effect code i m := by
  rw [switchByLookup]
  split
  · next t ht =>
      refine effect_withInt hpops fun key m' hm' => ?_
      split
      · next k l hl =>
          refine effect_goTo ?_ hm'
          rw [Array.findRev?_eq_find?_reverse] at hl
          have hmem : (k, l) ∈ t.pairs := Array.mem_reverse.mp (Array.mem_of_find?_eq_some hl)
          rw [Instruction.targets, ht]
          exact List.mem_cons_of_mem _ (List.mem_map_of_mem (Array.mem_toList_iff.mpr hmem))
      · exact effect_goTo (by simp [Instruction.targets, ht]) hm'
  · exact nofun

theorem effect_create (hpops : i.pops = 0) (hpushes : i.pushes = 1) (hf : i.fallsThrough) :
    (m.create i).Effect code i m := by
  rw [create]
  split
  · exact effect_push hf hpushes (hpops ▸ ⟨rfl, rfl⟩)
  · exact nofun

theorem effect_getField (hpops : i.pops = 1) (hpushes : i.pushes = 1) (hf : i.fallsThrough)
    (hi : i.opcode ≠ .goto) : (m.getField i).Effect code i m := by
  rw [getField]
  split
  · refine effect_withTop (.none m) (by omega) fun v m₁ h₁ => ?_
    split
    · split
      · exact nofun
      · split
        · exact effect_push hf hpushes (hpops ▸ h₁)
        · exact nofun
    · exact ⟨hi, h₁.locals⟩
  · exact nofun

theorem effect_putField (hpops : i.pops = 2) (hpushes : i.pushes = 0) (hf : i.fallsThrough)
    (hi : i.opcode ≠ .goto) : (m.putField i).Effect code i m := by
  rw [putField]
  split
  · refine effect_withTop (.none m) (by omega) fun v m₁ h₁ =>
      effect_withTop h₁ (by omega) fun target m₂ h₂ => ?_
    split
    · split
      · exact effect_next hf hpushes (hpops ▸ ⟨h₂.locals, h₂.height⟩)
      · exact nofun
    · exact ⟨hi, h₂.locals⟩
  · exact nofun

theorem effect_invoke {host : Host σ} {operand : Option Operand} :
    (m.invoke host ⟨.invoke, operand⟩).Effect code ⟨.invoke, operand⟩ m := by
  rw [invoke]
  split
  · next name argc returns hop =>
      simp only at hop
      subst hop
      split
      · next hlt => exact fun _ => hlt
      · next hle =>
          refine effect_call rfl (by simp) rfl ⟨rfl, ?_⟩
          simp only [List.length_drop, Instruction.pops]
          omega
  · exact nofun

end Parts

/-- Every step leaves the stack as high as its instruction says, leads where it says and writes
the slot that it names. It does not stop for want of values if there are enough. -/
theorem effect_step (m : Machine σ) (host : Host σ) (code : Code) (i : Instruction) :
    (m.step host code i).Effect code i m := by
  obtain ⟨opcode, operand⟩ := i
  have hnone : m.Took 0 m := .none m
  cases opcode with
  | halt => exact rfl
  | nop => exact effect_next rfl rfl hnone
  | push => exact effect_pushConstant rfl rfl rfl
  | pushNull | lconst0 | lconst1 | dconst0 | dconst1 => exact effect_push rfl rfl hnone
  | load => exact effect_load rfl rfl rfl
  | store => exact effect_store
  | inc => exact effect_increment
  | pop =>
      simp only [step]
      exact effect_withTop hnone Nat.one_pos fun v m₁ h₁ => effect_next rfl rfl h₁
  | dup =>
      simp only [step]
      refine effect_withTop hnone Nat.one_pos fun v m₁ h₁ => ?_
      exact ⟨rfl, fun _ _ => by rw [h₁.locals], congrArg (· + 2) h₁.height⟩
  | dupX1 =>
      simp only [step]
      refine effect_withTop hnone Nat.two_pos fun b m₁ h₁ =>
        effect_withTop h₁ Nat.one_lt_two fun a m₂ h₂ => ?_
      exact ⟨rfl, fun _ _ => by rw [h₂.locals], congrArg (· + 3) h₂.height⟩
  | add | sub | mul | div | rem | xor => exact effect_arithmetic rfl rfl rfl (by simp)
  | neg | i2l | i2d | l2d =>
      simp only [step]
      exact effect_withTop hnone Nat.one_pos fun v m₁ h₁ => effect_pushResult rfl rfl h₁
  | goto => exact effect_branch hnone
  | ifEq | ifNe => exact effect_branchIfZero rfl rfl rfl
  | ifCmpEq | ifCmpNe | ifCmpLt | ifCmpGe | ifCmpGt | ifCmpLe => exact effect_branchIf rfl rfl rfl
  | tableSwitch => exact effect_switchByTable rfl
  | lookupSwitch => exact effect_switchByLookup rfl
  | new => exact effect_create rfl rfl rfl
  | getField => exact effect_getField rfl rfl rfl (by simp)
  | putField => exact effect_putField rfl rfl rfl (by simp)
  | invoke => exact effect_invoke
  | throw =>
      simp only [step]
      refine effect_withTop hnone Nat.one_pos fun v m₁ h₁ => ?_
      split
      · exact ⟨by simp, h₁.locals⟩
      · exact ⟨by simp, h₁.locals⟩

end Machine

/-! ## Runs -/

/-- One position of the code may follow another: the next one, the position of a label that
the instruction jumps to, or a handler. A goto throws nothing. -/
def Code.Leads (code : Code) (pc next : Nat) : Prop :=
  ∃ i, code.instructions[pc]? = some i ∧ ((i.fallsThrough ∧ next = pc + 1) ∨
    (∃ l ∈ i.targets, code.position l = some next) ∨
    (i.opcode ≠ .goto ∧ ∃ row ∈ code.handlers, row.covers pc ∧ row.handler = next))

namespace Machine

/-- The next instruction of a run that is at one. -/
def Onward (host : Host σ) (code : Code) (a b : Nat × Machine σ) : Prop :=
  a.2.advance host code a.1 = .onward b.1 b.2

/-- What is caught goes to a handler of the position, with the locals as they are and alone on
the stack. -/
theorem unwind_ok {m m' : Machine σ} {code : Code} {pc target : Nat} {v : Value}
    (h : m.unwind code pc v = .ok (target, m')) :
    (∃ row ∈ code.handlers, row.covers pc ∧ row.handler = target) ∧ m'.locals = m.locals ∧
      m'.stack = [v] := by
  rw [unwind] at h
  split at h
  · cases h
  · next className _ =>
      split at h
      · next row hrow =>
          obtain ⟨rfl, rfl⟩ := Prod.mk.inj (Except.ok.inj h)
          have htakes := List.find?_some hrow
          rw [takes, Bool.and_eq_true] at htakes
          exact ⟨⟨row, List.mem_of_find?_eq_some hrow, htakes.1, rfl⟩, rfl, rfl⟩
      · cases h

/-- A run goes on with the next instruction, after a jump, or in a handler. -/
theorem Onward.cases {host : Host σ} {code : Code} {pc pc' : Nat} {m m' : Machine σ}
    (h : Onward host code (pc, m) (pc', m')) : ∃ i, code.instructions[pc]? = some i ∧
      ((pc' = pc + 1 ∧ m.step host code i = .next m') ∨ m.step host code i = .jump pc' m' ∨
        ∃ v m₁, m.step host code i = .raise v m₁ ∧ m₁.unwind code pc v = .ok (pc', m')) := by
  have h : m.advance host code pc = .onward pc' m' := h
  rw [advance] at h
  split at h
  · cases h
  · next i hi =>
      refine ⟨i, hi, ?_⟩
      split at h
      · next hstep =>
          obtain ⟨rfl, rfl⟩ := Turn.onward.inj h
          exact .inl ⟨rfl, hstep⟩
      · next hstep =>
          obtain ⟨rfl, rfl⟩ := Turn.onward.inj h
          exact .inr (.inl hstep)
      · cases h
      · cases h
      · next v m₁ hstep =>
          split at h
          · next hunwind =>
              obtain ⟨rfl, rfl⟩ := Turn.onward.inj h
              exact .inr (.inr ⟨v, m₁, hstep, hunwind⟩)
          · cases h

/-- A run goes where the code leads and changes no slot but the one that is written. -/
theorem Onward.leads {host : Host σ} {code : Code} {pc pc' : Nat} {m m' : Machine σ}
    (h : Onward host code (pc, m) (pc', m')) : code.Leads pc pc' ∧
      ∀ slot, (∀ i, code.instructions[pc]? = some i → i.writes ≠ some slot) →
        m'.locals[slot]? = m.locals[slot]? := by
  obtain ⟨i, hi, ⟨rfl, hstep⟩ | hstep | ⟨v, m₁, hstep, hunwind⟩⟩ := h.cases
  · have heffect := hstep ▸ effect_step m host code i
    exact ⟨⟨i, hi, .inl ⟨heffect.1, rfl⟩⟩, fun slot hw => heffect.2.1 slot (hw i hi)⟩
  · have heffect := hstep ▸ effect_step m host code i
    exact ⟨⟨i, hi, .inr (.inl heffect.1)⟩, fun slot _ => by rw [heffect.2.locals]⟩
  · have heffect := hstep ▸ effect_step m host code i
    obtain ⟨hrow, hlocals, -⟩ := unwind_ok hunwind
    exact ⟨⟨i, hi, .inr (.inr ⟨heffect.1, hrow⟩)⟩, fun slot _ => by rw [hlocals, heffect.2]⟩

/-- A run that is at one instruction comes to another. -/
abbrev Reaches (host : Host σ) (code : Code) : Nat × Machine σ → Nat × Machine σ → Prop :=
  Relation.ReflTransGen (Onward host code)

/-- A run that ends does so at an instruction that it comes to. -/
theorem runFrom_cases (host : Host σ) (code : Code) (limit steps pc : Nat) (m : Machine σ) :
    ∃ pc' m', Reaches host code (pc, m) (pc', m') ∧
      (runFrom host code limit steps pc m = (.stopped (.stepLimit limit), m') ∨
        ∃ outcome m'', m'.advance host code pc' = .ended outcome m'' ∧
          runFrom host code limit steps pc m = (outcome, m'')) := by
  induction steps generalizing pc m with
  | zero => exact ⟨pc, m, .refl, .inl rfl⟩
  | succ steps ih =>
      rw [runFrom]
      split
      · next pc₁ m₁ hadvance =>
          obtain ⟨pc', m', hreach, hrun⟩ := ih pc₁ m₁
          have hfirst : Onward host code (pc, m) (pc₁, m₁) := hadvance
          exact ⟨pc', m', .head hfirst hreach, hrun⟩
      · next outcome m₁ hadvance => exact ⟨pc, m, .refl, .inr ⟨outcome, m₁, hadvance, rfl⟩⟩

end Machine

end MethodCompiler
