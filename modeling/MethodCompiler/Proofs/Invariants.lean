import MethodCompiler.Proofs.Effects

/-!
# What instructions keep

Code may be put together by hand, so an instruction may find any operand, any stack and any
locals, and it may stop half way. Still it changes a machine in few ways only: it replaces the
stack or a local by values that it found or computed, stores such a value into a field, creates
an object, or has a call logged and answered. What all of these changes keep, instructions keep
(`Lasting`), and so does a turn of a run.

`keeps_step` says so of one instruction, however it ends, and `keeps_advance` of a turn, together
with the fact that neither complains about a limit.
-/

namespace MethodCompiler

variable {σ : Type}

/-- Whether a run stops because of its limit. -/
def Stop.isLimit : Stop → Bool
  | .stepLimit _ => true
  | .badOperand .. | .stackUnderflow | .value _ | .fieldUnset _ | .unknownCall _ | .cannotThrow _
  | .ranOff _ | .unplacedLabel _ | .uncaught _ | .defect _ => false

/-- A value that refers to one of the first `n` objects, if it refers to any. -/
def Value.Within (n : Nat) : Value → Prop
  | .ref address => address < n
  | _ => True

theorem Value.Within.mono {v : Value} {n n' : Nat} (h : v.Within n) (hn : n ≤ n') : v.Within n' := by
  cases v with
  | ref address => exact Nat.lt_of_lt_of_le h hn
  | _ => trivial

/-! Numbers refer to nothing, and the operations on numbers only give numbers. -/

theorem Value.within_of_arithmetic {op : Arithmetic} {left right v : Value} {n : Nat}
    (h : Value.arithmetic op left right = .ok (some v)) : v.Within n := by
  rw [Value.arithmetic.eq_def] at h
  split at h
  · obtain ⟨z, -, rfl⟩ := Option.map_eq_some_iff.mp (Except.ok.inj h)
    trivial
  · obtain ⟨z, -, rfl⟩ := Option.map_eq_some_iff.mp (Except.ok.inj h)
    trivial
  · split at h
    · obtain rfl := Option.some.inj (Except.ok.inj h)
      trivial
    · cases h
  · cases h

theorem Value.within_of_negate {old v : Value} {n : Nat} (h : old.negate = .ok v) :
    v.Within n := by
  cases old <;> cases h <;> trivial

theorem Value.within_of_increment {delta : Int32} {old v : Value} {n : Nat}
    (h : old.increment delta = .ok v) : v.Within n := by
  cases old <;> cases h <;> trivial

theorem Value.within_of_intToLong {old v : Value} {n : Nat} (h : old.intToLong = .ok v) :
    v.Within n := by
  cases old <;> cases h
  trivial

theorem Value.within_of_intToDouble {old v : Value} {n : Nat} (h : old.intToDouble = .ok v) :
    v.Within n := by
  cases old <;> cases h
  trivial

theorem Value.within_of_longToDouble {old v : Value} {n : Nat} (h : old.longToDouble = .ok v) :
    v.Within n := by
  cases old <;> cases h
  trivial

namespace Machine

/-- A property of machines that outlasts the changes which instructions make, as long as they only
use values of another property. It depends on the number of objects, numbers have it, and so
does everything that the machine has stored. -/
structure Lasting (P : Machine σ → Prop) (V : Nat → Value → Prop) : Prop where
  number : ∀ {n : Nat} {v : Value}, v.Within 0 → V n v
  stack : ∀ {m : Machine σ}, P m → ∀ v ∈ m.stack, V m.heap.size v
  locals : ∀ {m : Machine σ}, P m → ∀ v ∈ m.locals, V m.heap.size v
  fields : ∀ {m : Machine σ}, P m → ∀ o ∈ m.heap, ∀ f ∈ o.fields, V m.heap.size f.2
  stacked : ∀ {m : Machine σ} {stack : List Value}, P m → (∀ v ∈ stack, V m.heap.size v) →
    P { m with stack := stack }
  setLocal : ∀ {m : Machine σ} {v : Value}, P m → V m.heap.size v → ∀ slot : Nat,
    P { m with locals := m.locals.setIfInBounds slot v }
  answered : ∀ {m : Machine σ}, P m → ∀ state : σ, P { m with host := state }
  called : ∀ {m : Machine σ} {name : String} {args : List Value}, P m →
    (∀ v ∈ args, V m.heap.size v) → P { m with calls := m.calls.push ⟨name, args⟩ }
  allocate : ∀ {m : Machine σ}, P m → ∀ className : String,
    P (m.allocate className).2 ∧
      V (m.allocate className).2.heap.size (m.allocate className).1
  setField : ∀ {m : Machine σ} {v : Value}, P m → V m.heap.size v → ∀ (address : Nat)
    (name : String), P { m with
      heap := m.heap.modify address fun o => { o with fields := Assoc.insert name v o.fields } }

theorem Lasting.tail {P : Machine σ → Prop} {V : Nat → Value → Prop} (lasting : Lasting P V)
    {m : Machine σ} (h : P m) {v : Value} {rest : List Value} (hs : m.stack = v :: rest) :
    V m.heap.size v ∧ P { m with stack := rest } := by
  have hstack := lasting.stack h
  rw [hs] at hstack
  exact ⟨hstack v List.mem_cons_self,
    lasting.stacked h fun w hw => hstack w (List.mem_cons_of_mem _ hw)⟩

end Machine

/-- A step after which the machine has the property, however the step ended, and which no limit
stops; what it throws is one of the values. -/
def Step.Keeps (P : Machine σ → Prop) (V : Nat → Value → Prop) : Step σ → Prop
  | .next m | .jump _ m | .halt m => P m
  | .stop why m => why.isLimit = false ∧ P m
  | .raise thrown m => P m ∧ V m.heap.size thrown

/-- A turn after which the machine has the property, and which no limit ends. -/
def Turn.Keeps (P : Machine σ → Prop) : Turn σ → Prop
  | .onward _ m => P m
  | .ended outcome m => (∀ limit, outcome ≠ .stopped (.stepLimit limit)) ∧ P m

namespace Machine

section Parts

variable {P : Machine σ → Prop} {V : Nat → Value → Prop} (lasting : Lasting P V)
  {m : Machine σ} {code : Code}

include lasting

theorem keeps_withTop {k : Value → Machine σ → Step σ} (h : P m)
    (hk : ∀ v rest, V m.heap.size v → P { m with stack := rest } →
      (k v { m with stack := rest }).Keeps P V) : (m.withTop k).Keeps P V := by
  rw [withTop]
  split
  · exact ⟨rfl, h⟩
  · next v rest hstack => exact hk v rest (lasting.tail h hstack).1 (lasting.tail h hstack).2

theorem keeps_push (h : P m) {v : Value} (hv : V m.heap.size v) : (m.push v).Keeps P V :=
  lasting.stacked h (List.forall_mem_cons.mpr ⟨hv, lasting.stack h⟩)

theorem keeps_unary {f : Value → Except ValueError Value} (h : P m)
    (hf : ∀ old v, f old = .ok v → v.Within 0) :
    (m.withTop fun v m => m.pushResult (f v)).Keeps P V := by
  refine keeps_withTop lasting h fun old rest _ h' => ?_
  cases hv : f old with
  | ok v => exact keeps_push lasting h' (lasting.number (hf old v hv))
  | error e => exact ⟨rfl, h'⟩

omit lasting in
theorem keeps_goTo (h : P m) (l : Label) : (m.goTo code l).Keeps P V := by
  rw [goTo]
  split
  · exact h
  · exact ⟨rfl, h⟩

omit lasting in
theorem keeps_branch (h : P m) (i : Instruction) : (m.branch code i).Keeps P V := by
  rw [branch]
  split
  · exact keeps_goTo h _
  · exact ⟨rfl, h⟩

theorem keeps_pushConstant (h : P m) (i : Instruction) : (m.pushConstant i).Keeps P V := by
  rw [pushConstant]
  split
  · exact keeps_push lasting h (lasting.number trivial)
  · exact keeps_push lasting h (lasting.number trivial)
  · exact keeps_push lasting h (lasting.number trivial)
  · exact ⟨rfl, h⟩

theorem keeps_load (h : P m) (i : Instruction) : (m.load i).Keeps P V := by
  rw [load]
  split
  · split
    · next v hv => exact keeps_push lasting h (lasting.locals h v (Array.mem_of_getElem? hv))
    · exact ⟨rfl, h⟩
  · exact ⟨rfl, h⟩

theorem keeps_store (h : P m) (i : Instruction) : (m.store i).Keeps P V := by
  rw [store]
  split
  · refine keeps_withTop lasting h fun v rest hv h' => ?_
    split
    · exact lasting.setLocal h' hv _
    · exact ⟨rfl, h'⟩
  · exact ⟨rfl, h⟩

theorem keeps_increment (h : P m) (i : Instruction) : (m.increment i).Keeps P V := by
  rw [increment]
  split
  · split
    · exact ⟨rfl, h⟩
    · split
      · next v hv => exact lasting.setLocal h (lasting.number (Value.within_of_increment hv)) _
      · exact ⟨rfl, h⟩
  · exact ⟨rfl, h⟩

theorem keeps_arithmetic (h : P m) (op : Arithmetic) : (m.arithmetic op).Keeps P V := by
  refine keeps_withTop lasting h fun right rest _ h' => ?_
  refine keeps_withTop lasting h' fun left rest' _ h'' => ?_
  split
  · next v hv => exact keeps_push lasting h'' (lasting.number (Value.within_of_arithmetic hv))
  · exact lasting.allocate h'' _
  · exact ⟨rfl, h''⟩

theorem keeps_branchIfZero (h : P m) (i : Instruction) (zero : Bool) :
    (m.branchIfZero code i zero).Keeps P V := by
  refine keeps_withTop lasting h fun v rest _ h' => ?_
  split
  · exact keeps_branch h' i
  · exact h'

theorem keeps_branchIf (h : P m) (i : Instruction) (c : Comparison) :
    (m.branchIf code i c).Keeps P V := by
  refine keeps_withTop lasting h fun right rest _ h' => ?_
  refine keeps_withTop lasting h' fun left rest' _ h'' => ?_
  split
  · exact keeps_branch h'' i
  · exact h''
  · exact ⟨rfl, h''⟩

theorem keeps_withInt {k : Int32 → Machine σ → Step σ} (h : P m)
    (hk : ∀ key rest, P { m with stack := rest } → (k key { m with stack := rest }).Keeps P V) :
    (m.withInt k).Keeps P V := by
  refine keeps_withTop lasting h fun v rest _ h' => ?_
  split
  · exact hk _ rest h'
  · exact ⟨rfl, h'⟩

theorem keeps_switchByTable (h : P m) (i : Instruction) : (m.switchByTable code i).Keeps P V := by
  rw [switchByTable]
  split
  · refine keeps_withInt lasting h fun key rest h' => ?_
    split
    · simp only
      split
      · exact keeps_goTo h' _
      · exact ⟨rfl, h'⟩
    · exact keeps_goTo h' _
  · exact ⟨rfl, h⟩

theorem keeps_switchByLookup (h : P m) (i : Instruction) :
    (m.switchByLookup code i).Keeps P V := by
  rw [switchByLookup]
  split
  · refine keeps_withInt lasting h fun key rest h' => ?_
    split <;> exact keeps_goTo h' _
  · exact ⟨rfl, h⟩

theorem keeps_create (h : P m) (i : Instruction) : (m.create i).Keeps P V := by
  rw [create]
  split
  · exact keeps_push lasting (lasting.allocate h _).1 (lasting.allocate h _).2
  · exact ⟨rfl, h⟩

theorem keeps_getField (h : P m) (i : Instruction) : (m.getField i).Keeps P V := by
  rw [getField]
  split
  · refine keeps_withTop lasting h fun target rest _ h' => ?_
    split
    · split
      · exact ⟨rfl, h'⟩
      · next o ho =>
          split
          · next v hv =>
              have hmem := Assoc.mem_of_lookup hv
              exact keeps_push lasting h' (lasting.fields h' o (Array.mem_of_getElem? ho) _ hmem)
          · exact ⟨rfl, h'⟩
    · exact lasting.allocate h' _
  · exact ⟨rfl, h⟩

theorem keeps_putField (h : P m) (i : Instruction) : (m.putField i).Keeps P V := by
  rw [putField]
  split
  · refine keeps_withTop lasting h fun v rest hv h' => ?_
    refine keeps_withTop lasting h' fun target rest' _ h'' => ?_
    split
    · split
      · exact lasting.setField h'' hv _ _
      · exact ⟨rfl, h''⟩
    · exact lasting.allocate h'' _
  · exact ⟨rfl, h⟩

/-- The call is in the log before the host is asked. What the host returns is for the host to
answer for. -/
theorem keeps_call {host : Host σ} {name : String} {args : List Value} (h : P m)
    (hargs : ∀ v ∈ args, V m.heap.size v) (returns : Bool)
    (hanswer : ∀ v state, host.call m.host name args = some (.returns v, state) →
      V m.heap.size v) : (m.call host name args returns).Keeps P V := by
  have hcalled : P { m with calls := m.calls.push ⟨name, args⟩ } := lasting.called h hargs
  rw [call]
  split
  · next v state hreply =>
      cases returns with
      | false => exact lasting.answered hcalled state
      | true => exact keeps_push lasting (lasting.answered hcalled state) (hanswer v state hreply)
  · next className state _ => exact lasting.allocate (lasting.answered hcalled state) className
  · cases returns with
    | false => exact hcalled
    | true => exact ⟨rfl, hcalled⟩

theorem keeps_invoke {host : Host σ} {i : Instruction} (h : P m)
    (hanswer : ∀ name argc returns v state, i.operand = some (.call name argc returns) →
      host.call m.host name (m.stack.take argc).reverse = some (.returns v, state) →
      V m.heap.size v) : (m.invoke host i).Keeps P V := by
  rw [invoke]
  split
  · next name argc returns hop =>
      split
      · exact ⟨rfl, h⟩
      · have hstack := lasting.stack h
        refine keeps_call lasting (lasting.stacked h fun v hv => ?_) (fun v hv => ?_) returns
          fun v state => hanswer name argc returns v state hop
        · exact hstack v (List.mem_of_mem_drop hv)
        · exact hstack v (List.mem_of_mem_take (List.mem_reverse.mp hv))
  · exact ⟨rfl, h⟩

theorem keeps_throwTop (h : P m) : m.throwTop.Keeps P V := by
  refine keeps_withTop lasting h fun v rest hv h' => ?_
  split
  · exact lasting.allocate h' _
  · exact ⟨h', hv⟩

/-- What lasts holds after an instruction, if the host returns one of the values to it. -/
theorem keeps_step {host : Host σ} {i : Instruction} (code : Code) (h : P m)
    (hanswer : ∀ name argc returns v state, i = ⟨.invoke, some (.call name argc returns)⟩ →
      host.call m.host name (m.stack.take argc).reverse = some (.returns v, state) →
      V m.heap.size v) : (m.step host code i).Keeps P V := by
  obtain ⟨opcode, operand⟩ := i
  cases opcode with
  | halt | nop => exact h
  | push => exact keeps_pushConstant lasting h _
  | pushNull | lconst0 | lconst1 | dconst0 | dconst1 =>
      exact keeps_push lasting h (lasting.number trivial)
  | load => exact keeps_load lasting h _
  | store => exact keeps_store lasting h _
  | inc => exact keeps_increment lasting h _
  | pop => exact keeps_withTop lasting h fun _ _ _ h' => h'
  | dup =>
      simp only [step]
      refine keeps_withTop lasting h fun v rest hv h' => lasting.stacked h' ?_
      exact List.forall_mem_cons.mpr ⟨hv, List.forall_mem_cons.mpr ⟨hv, lasting.stack h'⟩⟩
  | dupX1 =>
      simp only [step]
      refine keeps_withTop lasting h fun b rest hb h' => ?_
      refine keeps_withTop lasting h' fun a rest' ha h'' => lasting.stacked h'' ?_
      exact List.forall_mem_cons.mpr ⟨hb, List.forall_mem_cons.mpr ⟨ha,
        List.forall_mem_cons.mpr ⟨hb, lasting.stack h''⟩⟩⟩
  | add | sub | mul | div | rem | xor => exact keeps_arithmetic lasting h _
  | neg => exact keeps_unary lasting h fun _ _ => Value.within_of_negate
  | i2l => exact keeps_unary lasting h fun _ _ => Value.within_of_intToLong
  | i2d => exact keeps_unary lasting h fun _ _ => Value.within_of_intToDouble
  | l2d => exact keeps_unary lasting h fun _ _ => Value.within_of_longToDouble
  | goto => exact keeps_branch h _
  | ifEq | ifNe => exact keeps_branchIfZero lasting h _ _
  | ifCmpEq | ifCmpNe | ifCmpLt | ifCmpGe | ifCmpGt | ifCmpLe => exact keeps_branchIf lasting h _ _
  | tableSwitch => exact keeps_switchByTable lasting h _
  | lookupSwitch => exact keeps_switchByLookup lasting h _
  | new => exact keeps_create lasting h _
  | getField => exact keeps_getField lasting h _
  | putField => exact keeps_putField lasting h _
  | invoke =>
      refine keeps_invoke lasting h fun name argc returns v state hop =>
        hanswer name argc returns v state ?_
      exact congrArg (Instruction.mk .invoke) hop
  | throw => exact keeps_throwTop lasting h

theorem keeps_advance {host : Host σ} {pc : Nat} (h : P m)
    (hanswer : ∀ i, code.instructions[pc]? = some i → ∀ name argc returns v state,
      i = ⟨.invoke, some (.call name argc returns)⟩ →
      host.call m.host name (m.stack.take argc).reverse = some (.returns v, state) →
      V m.heap.size v) : (m.advance host code pc).Keeps P := by
  rw [advance]
  split
  · exact ⟨by rintro limit ⟨⟩, h⟩
  · next i hi =>
      have hstep := keeps_step lasting code h (hanswer i hi)
      cases hs : m.step host code i with
      | next m' | jump target m' =>
          rw [hs] at hstep
          exact hstep
      | halt m' =>
          rw [hs] at hstep
          exact ⟨by rintro limit ⟨⟩, hstep⟩
      | stop why m' =>
          rw [hs] at hstep
          refine ⟨?_, hstep.2⟩
          rintro limit ⟨⟩
          exact Bool.noConfusion hstep.1
      | raise thrown m' =>
          rw [hs] at hstep
          obtain ⟨hm', hthrown⟩ := hstep
          simp only [unwind]
          cases m'.classOf? thrown with
          | none => exact ⟨by rintro limit ⟨⟩, hm'⟩
          | some className =>
              simp only
              cases code.handlers.find? (m'.takes pc className) with
              | none => exact ⟨by rintro limit ⟨⟩, hm'⟩
              | some row => exact lasting.stacked hm' (List.forall_mem_singleton.mpr hthrown)

end Parts

end Machine

end MethodCompiler
