import Mathlib.Data.List.Forall2
import MethodCompiler.Proofs.ClosedRuns

/-!
# What is known of a machine

A static type fixes how values are represented: as an int, a long, a double or a
reference, which is null or leads to an object. Of a machine at a point of the code one may
know how some of its locals are represented, and how the values on its stack are. Such a
`View` is about the part of the locals that is in use: a slot that has been left, or not yet
been stored into, is not looked at.

`Instruction.Leads` says of an instruction what becomes of a view. Each opcode has its lemma:
operands that are represented as it expects give a result that is represented as it says, and
nothing stops the step but a field that was never stored into or a call that nobody answers.
-/

namespace MethodCompiler

variable {σ : Type}

/-- The ways to represent a value. -/
inductive Kind where
  | int | long | double | reference
deriving DecidableEq, Repr

/-- How the values of a type are represented. A boolean is an int. There are no values of
type void, and those of all types have nothing in common. -/
def Ty.kind? : Ty → Option Kind
  | .int | .boolean => some .int
  | .long => some .long
  | .double => some .double
  | .null | .reference _ => some .reference
  | .void | .any => none

/-- A value is represented so, where there are `n` objects. -/
def Value.Is (n : Nat) : Kind → Value → Prop
  | .int, v => ∃ x, v = .int x
  | .long, v => ∃ x, v = .long x
  | .double, v => ∃ x, v = .double x
  | .reference, v => v = .null ∨ ∃ address < n, v = .ref address

theorem Value.Is.mono {n n' : Nat} {k : Kind} {v : Value} (h : v.Is n k) (hn : n ≤ n') :
    v.Is n' k := by
  cases k with
  | int | long | double => exact h
  | reference =>
      obtain rfl | ⟨address, hlt, rfl⟩ := h
      · exact .inl rfl
      · exact .inr ⟨address, Nat.lt_of_lt_of_le hlt hn, rfl⟩

/-- What is known of the locals in use: how each of them is represented, or nothing. -/
abbrev Locals := List (Option Kind)

/-- The locals known in `L` are known in `L'`, and to be the same. -/
def Locals.Below (L L' : Locals) : Prop :=
  ∀ (slot : Nat) (k : Kind), L[slot]? = some (some k) → L'[slot]? = some (some k)

namespace Locals

theorem Below.refl (L : Locals) : Below L L :=
  fun _ _ h => h

theorem Below.trans {L L' L'' : Locals} (h : Below L L') (h' : Below L' L'') : Below L L'' :=
  fun slot k hk => h' slot k (h slot k hk)

theorem below_append (L more : Locals) : Below L (L ++ more) := by
  intro slot k h
  obtain ⟨hlt, -⟩ := List.getElem?_eq_some_iff.mp h
  rwa [List.getElem?_append_left hlt]

/-- A slot that is reserved and not yet stored into is not known. -/
theorem reserved_below (L : Locals) : Below (L ++ [none]) L := by
  intro slot k h
  obtain hlt | hge := Nat.lt_or_ge slot L.length
  · rwa [List.getElem?_append_left hlt] at h
  · rw [List.getElem?_append_right hge, List.getElem?_singleton] at h
    split at h <;> cases h

end Locals

/-- What is known of a machine. -/
structure View where
  locals : Locals
  /-- the top first -/
  stack : List Kind
deriving DecidableEq, Repr

/-- What is known in `v` is known in `w`. -/
structure View.Below (v w : View) : Prop where
  locals : Locals.Below v.locals w.locals
  stack : v.stack = w.stack

theorem View.Below.refl (v : View) : v.Below v :=
  ⟨.refl _, rfl⟩

theorem View.Below.trans {u v w : View} (h : u.Below v) (h' : v.Below w) : u.Below w :=
  ⟨h.locals.trans h'.locals, h.stack.trans h'.stack⟩

/-- A machine with so many slots is as the view says, and the fields of its objects are
represented as `fields` says of their names. -/
structure View.Holds (fields : String → Kind) (slots : Nat) (v : View) (m : Machine σ) : Prop where
  size : m.locals.size = slots
  locals : ∀ (slot : Nat) (k : Kind), v.locals[slot]? = some (some k) →
    ∃ w : Value, m.locals[slot]? = some w ∧ w.Is m.heap.size k
  stack : List.Forall₂ (Value.Is m.heap.size) v.stack m.stack
  fields : ∀ o ∈ m.heap, ∀ f ∈ o.fields, f.2.Is m.heap.size (fields f.1)

/-! ## What can change -/

namespace View.Holds

variable {fields : String → Kind} {slots : Nat} {m : Machine σ} {v w : View} {L L' : Locals}
  {S : List Kind} {k : Kind} {value : Value}

theorem below (h : w.Holds fields slots m) (hv : v.Below w) : v.Holds fields slots m where
  size := h.size
  locals := fun slot k hk => h.locals slot k (hv.locals slot k hk)
  stack := by
    rw [hv.stack]
    exact h.stack
  fields := h.fields

theorem stacked (h : View.Holds fields slots ⟨L, S⟩ m) {S' : List Kind} {stack : List Value}
    (hstack : List.Forall₂ (Value.Is m.heap.size) S' stack) :
    View.Holds fields slots ⟨L, S'⟩ { m with stack := stack } :=
  ⟨h.size, h.locals, hstack, h.fields⟩

theorem push (h : View.Holds fields slots ⟨L, S⟩ m) (hvalue : value.Is m.heap.size k) :
    View.Holds fields slots ⟨L, k :: S⟩ { m with stack := value :: m.stack } :=
  h.stacked (.cons hvalue h.stack)

theorem tail (h : View.Holds fields slots ⟨L, k :: S⟩ m) :
    ∃ value rest, m.stack = value :: rest ∧ value.Is m.heap.size k ∧
      View.Holds fields slots ⟨L, S⟩ { m with stack := rest } := by
  obtain ⟨value, rest, hvalue, hrest, hstack⟩ := List.forall₂_cons_left_iff.mp h.stack
  exact ⟨value, rest, hstack, hvalue, h.stacked hrest⟩

/-- The slot that is stored into is known afterwards, and the others as before. -/
theorem setLocal (h : View.Holds fields slots ⟨L, S⟩ m) (hvalue : value.Is m.heap.size k)
    {slot : Nat} (hslot : slot < slots)
    (hL : ∀ (s : Nat) (k' : Kind), L'[s]? = some (some k') → (s = slot → k' = k) ∧
      (s ≠ slot → L[s]? = some (some k'))) :
    View.Holds fields slots ⟨L', S⟩ { m with locals := m.locals.setIfInBounds slot value } where
  size := by rw [Array.size_setIfInBounds, h.size]
  locals := by
    intro s k' hk
    obtain ⟨hsame, hother⟩ := hL s k' hk
    show ∃ w, (m.locals.setIfInBounds slot value)[s]? = some w ∧ _
    by_cases hs : s = slot
    · obtain rfl := hsame hs
      subst hs
      refine ⟨value, ?_, hvalue⟩
      rw [Array.getElem?_setIfInBounds_self_of_lt (by rw [h.size]; exact hslot)]
    · obtain ⟨w, hw, his⟩ := h.locals s k' (hother hs)
      refine ⟨w, ?_, his⟩
      rw [Array.getElem?_setIfInBounds_ne (Ne.symm hs), hw]
  stack := h.stack
  fields := h.fields

/-- The log of calls and the host are nothing that is known. -/
theorem called (h : v.Holds fields slots m) (calls : Array Call) (state : σ) :
    v.Holds fields slots { m with calls := calls, host := state } :=
  ⟨h.size, h.locals, h.stack, h.fields⟩

theorem allocate (h : v.Holds fields slots m) (className : String) :
    v.Holds fields slots (m.allocate className).2 ∧
      (m.allocate className).1.Is (m.allocate className).2.heap.size .reference := by
  have hsize : (m.heap.push ⟨className, []⟩).size = m.heap.size + 1 := Array.size_push _
  have hmore : ∀ (k : Kind) (value : Value), value.Is m.heap.size k →
      value.Is (m.heap.push ⟨className, []⟩).size k := fun k value hv => hv.mono (by omega)
  refine ⟨⟨h.size, fun slot k hk => ?_, h.stack.imp hmore, fun o ho f hf => ?_⟩, .inr ?_⟩
  · obtain ⟨w, hw, his⟩ := h.locals slot k hk
    exact ⟨w, hw, hmore k w his⟩
  · obtain ho | rfl := Array.mem_push.mp ho
    · exact hmore _ _ (h.fields o ho f hf)
    · cases hf
  · refine ⟨m.heap.size, ?_, rfl⟩
    show m.heap.size < (m.heap.push _).size
    omega

theorem setField {name : String} (h : v.Holds fields slots m)
    (hvalue : value.Is m.heap.size (fields name)) (address : Nat) :
    v.Holds fields slots { m with
      heap := m.heap.modify address fun o => { o with fields := Assoc.insert name value o.fields } } := by
  have hfields : ∀ o ∈ m.heap.modify address
      (fun o => { o with fields := Assoc.insert name value o.fields }),
      ∀ f ∈ o.fields, f.2.Is m.heap.size (fields f.1) := by
    intro o ho f hf
    obtain ⟨a, ha⟩ := Array.mem_iff_getElem?.mp ho
    rw [Array.getElem?_modify] at ha
    split at ha
    · obtain ⟨o', ho', rfl⟩ := Option.map_eq_some_iff.mp ha
      obtain rfl | hf := Assoc.mem_insert hf
      · exact hvalue
      · exact h.fields o' (Array.mem_of_getElem? ho') f hf
    · exact h.fields o (Array.mem_of_getElem? ha) f hf
  refine ⟨h.size, ?_, ?_, ?_⟩ <;> simp only [Array.size_modify]
  · exact h.locals
  · exact h.stack
  · exact hfields

end View.Holds

/-! ## Steps -/

/-- What may stop a run of code that is right in itself: a field is read that was never stored
into, nobody answers a call, nothing catches an object, or the limit is reached. -/
def Stop.Expected : Stop → Prop
  | .fieldUnset _ | .unknownCall _ | .uncaught _ | .stepLimit _ => True
  | .badOperand .. | .stackUnderflow | .value _ | .cannotThrow _ | .ranOff _ | .unplacedLabel _
  | .defect _ => False

/-- A step to a machine with a view in `next`, or by a jump to one in `jump`. What it throws
is an object, of which the locals `L` are known. -/
def Step.Leads (fields : String → Kind) (slots : Nat) (L : Locals) (next : View → Prop)
    (jump : Nat → View → Prop) : Step σ → Prop
  | .next m => ∃ v, next v ∧ v.Holds fields slots m
  | .jump pc m => ∃ v, jump pc v ∧ v.Holds fields slots m
  | .raise thrown m => (∃ address, thrown = .ref address) ∧
      View.Holds fields slots ⟨L, [.reference]⟩ { m with stack := [thrown] }
  | .halt _ => True
  | .stop why _ => why.Expected

namespace Machine

section Parts

variable {fields : String → Kind} {slots : Nat} {m : Machine σ} {code : Code} {L : Locals}
  {S : List Kind} {k : Kind} {next : View → Prop} {jump : Nat → View → Prop} {v : View}

theorem leads_withTop {f : Value → Machine σ → Step σ}
    (h : View.Holds fields slots ⟨L, k :: S⟩ m)
    (hf : ∀ value rest, value.Is m.heap.size k →
      View.Holds fields slots ⟨L, S⟩ { m with stack := rest } →
      (f value { m with stack := rest }).Leads fields slots L next jump) :
    (m.withTop f).Leads fields slots L next jump := by
  obtain ⟨value, rest, hstack, hvalue, hrest⟩ := h.tail
  rw [withTop, hstack]
  exact hf value rest hvalue hrest

theorem leads_push {value : Value} (h : View.Holds fields slots ⟨L, S⟩ m)
    (hvalue : value.Is m.heap.size k) (hnext : next ⟨L, k :: S⟩) :
    (m.push value).Leads fields slots L next jump :=
  ⟨_, hnext, h.push hvalue⟩

theorem leads_raiseNew (h : View.Holds fields slots ⟨L, S⟩ m) (className : String) :
    (m.raiseNew className).Leads fields slots L next jump := by
  obtain ⟨hm, hvalue⟩ := h.allocate className
  exact ⟨⟨_, rfl⟩, hm.stacked (.cons hvalue .nil)⟩

theorem leads_goTo {l : Label} (h : v.Holds fields slots m)
    (hplaced : ∃ pc < code.instructions.size, code.position l = some pc)
    (hjump : ∀ pc, code.position l = some pc → jump pc v) :
    (m.goTo code l).Leads fields slots L next jump := by
  obtain ⟨pc, -, hpc⟩ := hplaced
  rw [goTo, hpc]
  exact ⟨v, hjump pc hpc, h⟩

end Parts

/-- What the host returns to an instruction, if it is a call for a value, is represented as the
value on top of the stack in the view afterwards. -/
def Returns (host : Host σ) (i : Instruction) (after : View) (m : Machine σ) : Prop :=
  ∀ name argc value state, i = ⟨.invoke, some (.call name argc true)⟩ →
    host.call m.host name (m.stack.take argc).reverse = some (.returns value, state) →
    ∀ k ∈ after.stack.head?, value.Is m.heap.size k

end Machine

/-- Whatever machine has the view `v` when the instruction is met, it has the view `next`
before the instruction behind it, if that may follow, and `target` after a jump. -/
def Instruction.Leads (code : Code) (fields : String → Kind) (slots : Nat) (i : Instruction)
    (v : View) (next : Option View) (target : View) : Prop :=
  ∀ ⦃σ : Type⦄ (host : Host σ) (m : Machine σ), v.Holds fields slots m → i.Shaped slots →
    (∀ l ∈ i.targets, ∃ pc < code.instructions.size, code.position l = some pc) →
    (∀ after ∈ next, m.Returns host i after) →
    (m.step host code i).Leads fields slots v.locals (· ∈ next)
      (fun pc w => (∃ l ∈ i.targets, code.position l = some pc) ∧ w = target)

namespace Instruction

variable {code : Code} {fields : String → Kind} {slots : Nat} {L L' : Locals} {S : List Kind}
  {k : Kind} {target : View}

/-! ### Values on the stack -/

/-- An instruction that puts a constant on the stack. -/
theorem leads_constant {i : Instruction} {value : Value}
    (hi : ∀ {σ : Type} (host : Host σ) (m : Machine σ), m.step host code i = m.push value)
    (hvalue : ∀ n, value.Is n k) :
    i.Leads code fields slots ⟨L, S⟩ (some ⟨L, k :: S⟩) target := by
  intro σ host m hm _ _ _
  rw [hi]
  exact Machine.leads_push hm (hvalue _) rfl

theorem leads_pop :
    Leads code fields slots ⟨.pop, none⟩ ⟨L, k :: S⟩ (some ⟨L, S⟩) target := by
  intro σ host m hm _ _ _
  exact Machine.leads_withTop hm fun _ _ _ hrest => ⟨_, rfl, hrest⟩

theorem leads_dup :
    Leads code fields slots ⟨.dup, none⟩ ⟨L, k :: S⟩ (some ⟨L, k :: k :: S⟩) target := by
  intro σ host m hm _ _ _
  simp only [Machine.step]
  refine Machine.leads_withTop hm fun value rest hvalue hrest => ⟨_, rfl, ?_⟩
  exact (hrest.push hvalue).push hvalue

theorem leads_dupX1 {k' : Kind} : Leads code fields slots ⟨.dupX1, none⟩ ⟨L, k :: k' :: S⟩
    (some ⟨L, k :: k' :: k :: S⟩) target := by
  intro σ host m hm _ _ _
  simp only [Machine.step]
  refine Machine.leads_withTop hm fun b rest hb hrest => ?_
  refine Machine.leads_withTop hrest fun a rest' ha hrest' => ⟨_, rfl, ?_⟩
  exact ((hrest'.push hb).push ha).push hb

/-! ### Locals -/

theorem leads_load {slot : Nat} (hslot : L[slot]? = some (some k)) :
    Leads code fields slots ⟨.load, some (.slot slot)⟩ ⟨L, S⟩ (some ⟨L, k :: S⟩) target := by
  intro σ host m hm _ _ _
  obtain ⟨value, hvalue, his⟩ := hm.locals slot k hslot
  simp only [Machine.step, Machine.load, hvalue]
  exact Machine.leads_push hm his rfl

theorem leads_store {slot : Nat}
    (hL : ∀ (s : Nat) (k' : Kind), L'[s]? = some (some k') → (s = slot → k' = k) ∧
      (s ≠ slot → L[s]? = some (some k'))) :
    Leads code fields slots ⟨.store, some (.slot slot)⟩ ⟨L, k :: S⟩ (some ⟨L', S⟩) target := by
  intro σ host m hm hshaped _ _
  obtain ⟨slot', hlt, hslot⟩ := hshaped
  obtain rfl : slot = slot' := by simpa using hslot
  simp only [Machine.step, Machine.store]
  refine Machine.leads_withTop hm fun value rest hvalue hrest => ?_
  simp only
  rw [if_pos (by rw [hrest.size]; exact hlt)]
  exact ⟨_, rfl, hrest.setLocal hvalue hlt hL⟩

/-- A local that is known is assigned a value like the one before. -/
theorem leads_assign {slot : Nat} (hslot : L[slot]? = some (some k)) :
    Leads code fields slots ⟨.store, some (.slot slot)⟩ ⟨L, k :: S⟩ (some ⟨L, S⟩) target := by
  refine leads_store fun s k' hk => ⟨?_, fun _ => hk⟩
  rintro rfl
  exact Option.some.inj (Option.some.inj (hk.symm.trans hslot))

/-- The first local that is not in use is stored into. -/
theorem leads_declare {slot : Nat} (hslot : slot = L.length) :
    Leads code fields slots ⟨.store, some (.slot slot)⟩ ⟨L, k :: S⟩ (some ⟨L ++ [some k], S⟩)
      target := by
  subst hslot
  refine leads_store fun s k' hk => ⟨?_, fun hne => ?_⟩
  · rintro rfl
    rw [List.getElem?_append_right (Nat.le_refl _)] at hk
    simpa using hk.symm
  · obtain hlt | hge := Nat.lt_or_ge s L.length
    · rwa [List.getElem?_append_left hlt] at hk
    · rw [List.getElem?_append_right hge, List.getElem?_singleton, if_neg (by omega)] at hk
      cases hk

theorem leads_inc {slot : Nat} {delta : Int32} (hslot : L[slot]? = some (some k))
    (hk : k ≠ .reference) :
    Leads code fields slots ⟨.inc, some (.increment slot delta)⟩ ⟨L, S⟩ (some ⟨L, S⟩) target := by
  intro σ host m hm _ _ _
  obtain ⟨old, hold, his⟩ := hm.locals slot k hslot
  obtain ⟨value, hvalue, hnew⟩ : ∃ value, old.increment delta = .ok value ∧
      value.Is m.heap.size k := by
    cases k with
    | reference => exact absurd rfl hk
    | _ =>
        obtain ⟨x, rfl⟩ := his
        exact ⟨_, rfl, _, rfl⟩
  obtain ⟨hlt, -⟩ := Array.getElem?_eq_some_iff.mp hold
  simp only [Machine.step, Machine.increment, hold, hvalue]
  refine ⟨_, rfl, hm.setLocal hnew (by rw [← hm.size]; exact hlt) fun s k' hk' => ⟨?_, fun _ => hk'⟩⟩
  rintro rfl
  exact Option.some.inj (Option.some.inj (hk'.symm.trans hslot))

/-! ### Operations -/

theorem leads_arithmetic (op : Arithmetic) (hk : k ≠ .reference)
    (hxor : op = .xor → k ≠ .double) :
    Leads code fields slots ⟨op.opcode, none⟩ ⟨L, k :: k :: S⟩ (some ⟨L, k :: S⟩) target := by
  intro σ host m hm _ _ _
  have hstep : m.step host code ⟨op.opcode, none⟩ = m.arithmetic op := by cases op <;> rfl
  rw [hstep]
  refine Machine.leads_withTop hm fun right rest hright hrest => ?_
  refine Machine.leads_withTop hrest fun left rest' hleft hrest' => ?_
  have hresult : (∃ value, Value.arithmetic op left right = .ok (some value) ∧
      value.Is m.heap.size k) ∨ Value.arithmetic op left right = .ok none := by
    cases k with
    | int =>
        obtain ⟨x, rfl⟩ := hleft
        obtain ⟨y, rfl⟩ := hright
        simp only [Value.arithmetic]
        cases Value.intArithmetic op x y with
        | none => exact .inr rfl
        | some z => exact .inl ⟨_, rfl, z, rfl⟩
    | long =>
        obtain ⟨x, rfl⟩ := hleft
        obtain ⟨y, rfl⟩ := hright
        simp only [Value.arithmetic]
        cases Value.longArithmetic op x y with
        | none => exact .inr rfl
        | some z => exact .inl ⟨_, rfl, z, rfl⟩
    | double =>
        obtain ⟨x, rfl⟩ := hleft
        obtain ⟨y, rfl⟩ := hright
        cases op with
        | xor => exact absurd rfl (hxor rfl)
        | _ => exact .inl ⟨_, rfl, _, rfl⟩
    | reference => exact absurd rfl hk
  obtain ⟨value, hvalue, his⟩ | hnone := hresult
  · simp only [hvalue]
    exact Machine.leads_push hrest' his rfl
  · simp only [hnone]
    exact Machine.leads_raiseNew hrest' _

/-- An instruction that puts the result of an operation in the place of its operand. -/
theorem leads_unary {opcode : Opcode} {k' : Kind} {f : Value → Except ValueError Value}
    (hi : ∀ {σ : Type} (host : Host σ) (m : Machine σ),
      m.step host code ⟨opcode, none⟩ = m.withTop fun v m => m.pushResult (f v))
    (hf : ∀ n (value : Value), value.Is n k → ∃ result, f value = .ok result ∧ result.Is n k') :
    Leads code fields slots ⟨opcode, none⟩ ⟨L, k :: S⟩ (some ⟨L, k' :: S⟩) target := by
  intro σ host m hm _ _ _
  rw [hi]
  refine Machine.leads_withTop hm fun value rest hvalue hrest => ?_
  obtain ⟨result, hresult, his⟩ := hf _ value hvalue
  simp only [hresult]
  exact Machine.leads_push hrest his rfl

theorem leads_neg (hk : k ≠ .reference) :
    Leads code fields slots ⟨.neg, none⟩ ⟨L, k :: S⟩ (some ⟨L, k :: S⟩) target := by
  refine leads_unary (fun _ _ => rfl) fun n value hvalue => ?_
  cases k with
  | reference => exact absurd rfl hk
  | _ =>
      obtain ⟨x, rfl⟩ := hvalue
      exact ⟨_, rfl, _, rfl⟩

/-! ### Jumps -/

theorem leads_goto {l : Label} {v : View} :
    Leads code fields slots ⟨.goto, some (.label l)⟩ v none v := by
  intro σ host m hm _ hplaced _
  have hl : l ∈ targets ⟨.goto, some (.label l)⟩ := List.mem_singleton_self l
  exact Machine.leads_goTo hm (hplaced l hl) fun pc hpc => ⟨⟨l, hl, hpc⟩, rfl⟩

theorem leads_branchIfZero {opcode : Opcode} {zero : Bool} {l : Label}
    (hi : ∀ {σ : Type} (host : Host σ) (m : Machine σ), m.step host code ⟨opcode, some (.label l)⟩ =
      m.branchIfZero code ⟨opcode, some (.label l)⟩ zero) :
    Leads code fields slots ⟨opcode, some (.label l)⟩ ⟨L, k :: S⟩ (some ⟨L, S⟩) ⟨L, S⟩ := by
  intro σ host m hm _ hplaced _
  have hl : l ∈ targets ⟨opcode, some (.label l)⟩ := List.mem_singleton_self l
  rw [hi]
  refine Machine.leads_withTop hm fun value rest _ hrest => ?_
  split
  · exact Machine.leads_goTo hrest (hplaced l hl) fun pc hpc => ⟨⟨l, hl, hpc⟩, rfl⟩
  · exact ⟨_, rfl, hrest⟩

/-- Values that are represented alike compare; references only for being the same. -/
theorem compare_ok {n : Nat} {c : Comparison} {left right : Value} (hleft : left.Is n k)
    (hright : right.Is n k) (hc : k = .reference → c = .eq ∨ c = .ne) :
    ∃ b, Value.compare c left right = .ok b := by
  cases k with
  | reference =>
      have hsame : ∀ same, ∃ b, Value.compareReferences c same = .ok b := by
        obtain rfl | rfl := hc rfl
        · exact fun same => ⟨same, rfl⟩
        · exact fun same => ⟨!same, rfl⟩
      obtain rfl | ⟨x, -, rfl⟩ := hleft <;> obtain rfl | ⟨y, -, rfl⟩ := hright <;> exact hsame _
  | _ =>
      obtain ⟨x, rfl⟩ := hleft
      obtain ⟨y, rfl⟩ := hright
      exact ⟨_, rfl⟩

theorem leads_branchIf {opcode : Opcode} {c : Comparison} {l : Label}
    (hi : ∀ {σ : Type} (host : Host σ) (m : Machine σ), m.step host code ⟨opcode, some (.label l)⟩ =
      m.branchIf code ⟨opcode, some (.label l)⟩ c)
    (hc : k = .reference → c = .eq ∨ c = .ne) :
    Leads code fields slots ⟨opcode, some (.label l)⟩ ⟨L, k :: k :: S⟩ (some ⟨L, S⟩) ⟨L, S⟩ := by
  intro σ host m hm _ hplaced _
  have hl : l ∈ targets ⟨opcode, some (.label l)⟩ := List.mem_singleton_self l
  rw [hi]
  refine Machine.leads_withTop hm fun right rest hright hrest => ?_
  refine Machine.leads_withTop hrest fun left rest' hleft hrest' => ?_
  obtain ⟨b, hb⟩ := compare_ok hleft hright hc
  simp only [hb]
  cases b with
  | true => exact Machine.leads_goTo hrest' (hplaced l hl) fun pc hpc => ⟨⟨l, hl, hpc⟩, rfl⟩
  | false => exact ⟨_, rfl, hrest'⟩

theorem leads_tableSwitch {t : TableSwitch} :
    Leads code fields slots ⟨.tableSwitch, some (.table t)⟩ ⟨L, .int :: S⟩ none ⟨L, S⟩ := by
  intro σ host m hm hshaped hplaced _
  obtain ⟨t', ht, hsize⟩ := hshaped
  obtain rfl : t = t' := by simpa using ht
  have hgo : ∀ l ∈ targets ⟨.tableSwitch, some (.table t)⟩, ∀ {m' : Machine σ},
      View.Holds fields slots ⟨L, S⟩ m' → (m'.goTo code l).Leads fields slots L (· ∈ none)
        (fun pc w => (∃ l ∈ targets ⟨.tableSwitch, some (.table t)⟩,
          code.position l = some pc) ∧ w = ⟨L, S⟩) :=
    fun l hl m' hm' =>
      Machine.leads_goTo hm' (hplaced l hl) fun pc hpc => ⟨⟨l, hl, hpc⟩, rfl⟩
  simp only [Machine.step, Machine.switchByTable, Machine.withInt]
  refine Machine.leads_withTop hm fun value rest hvalue hrest => ?_
  obtain ⟨key, rfl⟩ := hvalue
  simp only [Value.int?]
  split
  · next hkey =>
      rw [Int32.le_iff_toInt_le, Int32.le_iff_toInt_le] at hkey
      have hindex : (key.toInt - t.low.toInt).toNat < t.targets.size := by omega
      rw [Array.getElem?_eq_getElem hindex]
      refine hgo _ ?_ hrest
      exact List.mem_cons_of_mem _ (Array.mem_toList_iff.mpr (Array.getElem_mem hindex))
  · exact hgo _ List.mem_cons_self hrest

theorem leads_lookupSwitch {t : LookupSwitch} :
    Leads code fields slots ⟨.lookupSwitch, some (.lookup t)⟩ ⟨L, .int :: S⟩ none ⟨L, S⟩ := by
  intro σ host m hm _ hplaced _
  simp only [Machine.step, Machine.switchByLookup, Machine.withInt]
  refine Machine.leads_withTop hm fun value rest hvalue hrest => ?_
  obtain ⟨key, rfl⟩ := hvalue
  simp only [Value.int?]
  split
  · next l hl =>
      rw [Array.findRev?_eq_find?_reverse] at hl
      have hmem := Array.mem_reverse.mp (Array.mem_of_find?_eq_some hl)
      have hl' : l ∈ targets ⟨.lookupSwitch, some (.lookup t)⟩ :=
        List.mem_cons_of_mem _ (List.mem_map_of_mem (Array.mem_toList_iff.mpr hmem))
      exact Machine.leads_goTo hrest (hplaced l hl') fun pc hpc => ⟨⟨l, hl', hpc⟩, rfl⟩
  · have hl : t.default ∈ targets ⟨.lookupSwitch, some (.lookup t)⟩ := List.mem_cons_self
    exact Machine.leads_goTo hrest (hplaced _ hl) fun pc hpc => ⟨⟨_, hl, hpc⟩, rfl⟩

/-! ### Objects and calls -/

theorem leads_new {className : String} : Leads code fields slots ⟨.new, some (.name className)⟩
    ⟨L, S⟩ (some ⟨L, .reference :: S⟩) target := by
  intro σ host m hm _ _ _
  obtain ⟨hm', hvalue⟩ := hm.allocate className
  exact Machine.leads_push hm' hvalue rfl

theorem leads_getField {name : String} : Leads code fields slots ⟨.getField, some (.name name)⟩
    ⟨L, .reference :: S⟩ (some ⟨L, fields name :: S⟩) target := by
  intro σ host m hm _ _ _
  simp only [Machine.step, Machine.getField]
  refine Machine.leads_withTop hm fun value rest hvalue hrest => ?_
  obtain rfl | ⟨address, hlt, rfl⟩ := hvalue
  · exact Machine.leads_raiseNew hrest _
  · have ho : m.heap[address]? = some m.heap[address] := Array.getElem?_eq_getElem hlt
    simp only [ho]
    cases hfield : m.heap[address].fields.lookup name with
    | none => exact trivial
    | some found =>
        have hmem := Assoc.mem_of_lookup hfield
        exact Machine.leads_push hrest (hrest.fields _ (Array.mem_of_getElem? ho) _ hmem) rfl

theorem leads_putField {name : String} : Leads code fields slots ⟨.putField, some (.name name)⟩
    ⟨L, fields name :: .reference :: S⟩ (some ⟨L, S⟩) target := by
  intro σ host m hm _ _ _
  simp only [Machine.step, Machine.putField]
  refine Machine.leads_withTop hm fun value rest hvalue hrest => ?_
  refine Machine.leads_withTop hrest fun object rest' hobject hrest' => ?_
  obtain rfl | ⟨address, hlt, rfl⟩ := hobject
  · exact Machine.leads_raiseNew hrest' _
  · simp only
    rw [if_pos hlt]
    exact ⟨_, rfl, hrest'.setField hvalue address⟩

/-- A call takes its arguments off the stack. What it returns is for the host to answer for. -/
theorem leads_invoke {name : String} {argc : Nat} {returns : Bool} {args result : List Kind}
    (hargs : args.length = argc) (hresult : if returns then result = [k] else result = []) :
    Leads code fields slots ⟨.invoke, some (.call name argc returns)⟩ ⟨L, args ++ S⟩
      (some ⟨L, result ++ S⟩) target := by
  intro σ host m hm _ _ hreturns
  have hlength := hm.stack.length_eq
  rw [List.length_append, hargs] at hlength
  have hrest : View.Holds fields slots ⟨L, S⟩ { m with stack := m.stack.drop argc } := by
    refine hm.stacked ?_
    have hdrop := List.forall₂_drop argc hm.stack
    rwa [← hargs, List.drop_left, hargs] at hdrop
  simp only [Machine.step, Machine.invoke]
  rw [if_neg (by omega), Machine.call]
  split
  · next value state hreply =>
      cases returns with
      | false =>
          obtain rfl : result = [] := hresult
          exact ⟨_, rfl, hrest.called _ _⟩
      | true =>
          obtain rfl : result = [k] := hresult
          refine Machine.leads_push (hrest.called _ _) ?_ rfl
          exact hreturns _ rfl name argc value state rfl hreply k rfl
  · exact Machine.leads_raiseNew (hrest.called _ _) _
  · cases returns with
    | false =>
        obtain rfl : result = [] := hresult
        exact ⟨_, rfl, hrest.called _ _⟩
    | true => exact trivial

theorem leads_throw : Leads code fields slots ⟨.throw, none⟩ ⟨L, .reference :: S⟩ none target := by
  intro σ host m hm _ _ _
  simp only [Machine.step, Machine.throwTop]
  refine Machine.leads_withTop hm fun value rest hvalue hrest => ?_
  obtain rfl | ⟨address, hlt, rfl⟩ := hvalue
  · exact Machine.leads_raiseNew hrest _
  · exact ⟨⟨address, rfl⟩, hrest.stacked (.cons (.inr ⟨address, hlt, rfl⟩) .nil)⟩

theorem leads_halt {v : View} : Leads code fields slots ⟨.halt, none⟩ v none target :=
  fun _ _ _ _ _ _ _ => trivial

end Instruction

end MethodCompiler
