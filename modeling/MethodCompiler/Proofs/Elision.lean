import MethodCompiler.Proofs.Relocation

/-!
# Updates whose value nobody wants

An assignment or a step of a place has a value, and its code is shorter if nobody wants it: no
copy is kept on the stack. Code that keeps the copy and then drops it does the same to the
machine, on every stack, and it fails in the same way. What matters is the tail of the code,
after the object and the value have been computed. If the stack is high enough for it, the tail
behaves like a part of a tree that gives a value, and the copy is this value; if not, both
codes find too little on the stack.

A local steps in place and a field steps on the stack. On a number of the right type both come
to the same, at the ends of its range and for doubles too: to add minus one is to subtract one.
-/

namespace MethodCompiler

/-! ## Doubles -/

namespace Double

open Float.Model (UnpackedFloat Format)

theorem add_neg_eq_sub (format : Format) (x y : UnpackedFloat) :
    UnpackedFloat.add format x y.neg = UnpackedFloat.sub format x y := by
  cases x with
  | notANumber | infinity _ | zero _ => cases y <;> rfl
  | finite s m e hm =>
      cases y with
      | notANumber | infinity _ | zero _ => rfl
      | finite s' m' e' hm' =>
          have happly (k : Int) : (-s').apply k = -s'.apply k := by
            cases s' with
            | positive => rfl
            | negative => exact (Int.neg_neg k).symm
          dsimp only [UnpackedFloat.add, UnpackedFloat.sub, UnpackedFloat.neg]
          rw [happly, Int.sub_eq_add_neg]

theorem ofInt_one : Float.ofInt 1 = 1.0 :=
  eq_of_toBits_eq (by decide +kernel)

/-- To add minus one is to subtract one. -/
theorem add_ofInt_neg_one (x : Float) : x + Float.ofInt (-1) = x - 1.0 := by
  have hone : (1.0 : Float).toBits = 0x3FF0000000000000 := by decide +kernel
  have hminusOne : (Float.ofInt (-1)).toBits = 0xBFF0000000000000 := by decide +kernel
  have hneg : (Float.ofInt (-1)).toModel.unpack = (1.0 : Float).toModel.unpack.neg := by
    rw [Float.Model.unpack, show (Float.ofInt (-1)).toModel.toBits = _ from hminusOne,
      Float.Model.unpack, show (1.0 : Float).toModel.toBits = _ from hone]
    rfl
  have hadd : x + Float.ofInt (-1) = Float.ofModel (Float.Model.pack
      (UnpackedFloat.add Format.binary64 x.toModel.unpack (Float.ofInt (-1)).toModel.unpack)) :=
    rfl
  rw [hadd, hneg, add_neg_eq_sub]
  rfl

end Double

/-! ## Updates -/

namespace Annotated

/-- The expression stores into a place. -/
def Expr.isUpdate : Expr → Bool
  | .assign .. | .increment .. => true
  | _ => false

/-- The same update with its value wanted or not. -/
def Expr.wanting (used : Bool) : Expr → Expr
  | .assign ty place value _ => .assign ty place value used
  | .increment ty op place _ => .increment ty op place used
  | e => e

theorem Expr.Sound.wanting {e : Expr} {used : Bool} (h : e.Sound used) (he : e.isUpdate)
    (wanted : Bool) : (e.wanting wanted).Sound wanted := by
  match e with
  | .assign _ (.slot _) _ _ | .assign _ (.field _ _) _ _ | .increment _ _ (.field _ _) _ =>
      exact ⟨rfl, h.2⟩
  | .increment _ _ (.slot _) _ => exact rfl
  | .int .. | .long .. | .double .. | .bool .. | .null _ | .slot .. | .field .. | .widen ..
  | .new .. | .binary .. | .unary .. | .call .. | .error _ => cases he

end Annotated

variable {σ : Type}

namespace Simulation

open Annotated (Expr Place)
open Lowering hiding stmt stmts groups catches catching
open Interpretation Machine Eval

/-! ## Effects on a stack that is high enough -/

/-- What a part of a tree gives, left on a stack. -/
def leftOn {α : Type} (leave : α → List Value) (S : List Value) : Result σ α → Result σ Unit
  | .done a m => .done () (m.on (leave a ++ S))
  | .raised v className m => .raised v className (m.on [])
  | .stopped why m => .stopped why (m.on [])
  | .exhausted => .exhausted

/-- On a stack that starts with `take`, an effect is that of a part of a tree. -/
def Behaves {α : Type} (effect : Eval σ Unit) (take : List Value) (e : Eval σ α)
    (leave : α → List Value) : Prop :=
  ∀ m S, effect (m.on (take ++ S)) = leftOn leave S (e m)

section Behaves

variable {α β : Type} {effect effect' : Eval σ Unit} {take : List Value} {e : Eval σ α}
  {leave : α → List Value} {host : Host σ}

theorem behaves_pure (a : α) (h : leave a = take) :
    Behaves (pure () : Eval σ Unit) take (pure a) leave := by
  intro m S
  show Result.done () (m.on (take ++ S)) = .done () (m.on (leave a ++ S))
  rw [h]

theorem Does.behaves {i : Instruction} (h : Does host {} i take e leave) :
    Behaves (perform host i) take e leave := by
  intro m S
  have hagrees := h m S
  rw [perform]
  cases hstep : (m.on (take ++ S)).step host {} i with
  | next m' =>
      rw [hstep] at hagrees
      cases he : e m with
      | done a m'' =>
          rw [he] at hagrees
          obtain rfl : m' = _ := hagrees
          rfl
      | raised _ _ _ | stopped _ _ | exhausted =>
          rw [he] at hagrees
          exact hagrees.elim
  | raise v m' =>
      rw [hstep] at hagrees
      cases he : e m with
      | raised v' className m'' =>
          rw [he] at hagrees
          obtain ⟨rfl, rfl, hclass⟩ := hagrees
          simp only [classOf?_on, hclass]
          rfl
      | done _ _ | stopped _ _ | exhausted =>
          rw [he] at hagrees
          exact hagrees.elim
  | stop why m' =>
      rw [hstep] at hagrees
      cases he : e m with
      | stopped why' m'' =>
          rw [he] at hagrees
          obtain ⟨rfl, rfl⟩ := hagrees
          rfl
      | done _ _ | raised _ _ _ | exhausted =>
          rw [he] at hagrees
          exact hagrees.elim
  | jump target m' | halt m' =>
      rw [hstep] at hagrees
      exact hagrees.elim

theorem Behaves.bind {g : α → Eval σ β} {leave' : β → List Value}
    (h : Behaves effect take e leave) (h' : ∀ a, Behaves effect' (leave a) (g a) leave') :
    Behaves (effect >>= fun _ => effect') take (e >>= g) leave' := by
  intro m S
  simp only [Bind.bind]
  rw [h m S]
  cases he : e m with
  | done a m' => exact h' a m' S
  | raised _ _ _ | stopped _ _ | exhausted => rfl

/-- A part that only moves values about has no counterpart in the tree. -/
theorem Behaves.then {mid : List Value}
    (h : Behaves effect take (pure () : Eval σ Unit) fun _ => mid)
    (h' : Behaves effect' mid e leave) : Behaves (effect >>= fun _ => effect') take e leave := by
  have hboth := h.bind fun _ => h'
  rwa [pure_bind] at hboth

/-- What lies below stays. -/
theorem Behaves.frame (h : Behaves effect take e leave) (F : List Value) :
    Behaves effect (take ++ F) e fun a => leave a ++ F := by
  intro m S
  rw [List.append_assoc, h m (F ++ S)]
  cases e m with
  | done a m' =>
      simp only [leftOn]
      rw [List.append_assoc]
  | raised _ _ _ | stopped _ _ | exhausted => rfl

/-- What a part gives may be put in another form. -/
theorem Behaves.map (h : Behaves effect take e leave) (f : α → β) {leave' : β → List Value}
    (hleave : ∀ a, leave' (f a) = leave a) :
    Behaves effect take (e >>= fun a => pure (f a)) leave' := by
  intro m S
  rw [h m S]
  simp only [Bind.bind]
  cases e m with
  | done a m' =>
      show Result.done () (m'.on (leave a ++ S)) = .done () (m'.on (leave' (f a) ++ S))
      rw [hleave]
  | raised _ _ _ | stopped _ _ | exhausted => rfl

/-- If nothing is left, what a part gives does not matter. -/
theorem Behaves.of_discard {L : List Value}
    (h : Behaves effect take (e >>= fun _ => pure ()) fun _ => L) :
    Behaves effect take e fun _ => L := by
  intro m S
  rw [h m S]
  simp only [Bind.bind]
  cases e m <;> rfl

/-- A value that is left and then dropped might as well not have been left. -/
theorem Behaves.elide {effect : Bool → Eval σ Unit} {e : Eval σ Value}
    (h : ∀ used, Behaves (effect used) take e fun v => if used then [v] else []) (m : Machine σ)
    (S : List Value) :
    (effect true >>= fun _ => perform host ⟨.pop, none⟩) (m.on (take ++ S)) =
      effect false (m.on (take ++ S)) := by
  rw [h false m S]
  simp only [Bind.bind]
  rw [h true m S]
  cases e m <;> rfl

end Behaves

/-! ## The tails of updates -/

/-- The instruction that pushes the number one in a type. -/
def oneInstruction : Ty → Instruction
  | .long => ⟨.lconst1, none⟩
  | .double => ⟨.dconst1, none⟩
  | _ => ⟨.push, some (.int 1)⟩

theorem pushOne_eq (ty : Ty) : pushOne ty = Gen.give (.emit (oneInstruction ty)) := by
  cases ty <;> rfl

section Tails

variable (host : Host σ)

/-- Stores into a local and keeps a copy if it is wanted. -/
def storeTail (slot : Nat) (used : Bool) : Eval σ Unit := do
  performIf host used ⟨.dup, none⟩
  perform host ⟨.store, some (.slot slot)⟩

/-- Stores into a field and keeps a copy if it is wanted. -/
def putTail (name : String) (used : Bool) : Eval σ Unit := do
  performIf host used ⟨.dupX1, none⟩
  perform host ⟨.putField, some (.name name)⟩

/-- Steps a local in place, with the old or the new value read if it is wanted. -/
def stepSlot (op : UpdateOp) (slot : Nat) (used : Bool) : Eval σ Unit := do
  performIf host (used && op.givesOldValue) ⟨.load, some (.slot slot)⟩
  perform host ⟨.inc, some (.increment slot op.delta)⟩
  performIf host (used && !op.givesOldValue) ⟨.load, some (.slot slot)⟩

/-- Steps a field on the stack, with a copy kept of the old or the new value if it is wanted. -/
def stepField (op : UpdateOp) (ty : Ty) (name : String) (used : Bool) : Eval σ Unit := do
  perform host ⟨.dup, none⟩
  perform host ⟨.getField, some (.name name)⟩
  performIf host (used && op.givesOldValue) ⟨.dupX1, none⟩
  perform host (oneInstruction ty)
  perform host ⟨if 0 < op.delta then .add else .sub, none⟩
  performIf host (used && !op.givesOldValue) ⟨.dupX1, none⟩
  perform host ⟨.putField, some (.name name)⟩

/-- What a step of a local gives. -/
def slotStep (op : UpdateOp) (slot : Nat) : Eval σ Value := do
  let old ← load slot
  let new ← ofExcept (old.increment op.delta)
  store slot new
  return if op.givesOldValue then old else new

/-- What a step of a field of an object gives. -/
def fieldStep (op : UpdateOp) (ty : Ty) (name : String) (object : Value) : Eval σ Value := do
  let old ← getField object name
  let new ← arithmetic (if 0 < op.delta then .add else .sub) old (one ty)
  putField object name new
  return if op.givesOldValue then old else new

theorem behaves_storeTail (slot : Nat) (v : Value) (used : Bool) :
    Behaves (storeTail host slot used) [v] (do store slot v; return v)
      fun v => if used then [v] else [] := by
  have hstore := (does_store host {} slot v).behaves
  cases used with
  | false => exact (behaves_pure () rfl).then (hstore.map (fun _ => v) fun _ => rfl)
  | true => exact (does_dup v).behaves.then ((hstore.frame [v]).map (fun _ => v) fun _ => rfl)

theorem behaves_putTail (name : String) (v object : Value) (used : Bool) :
    Behaves (putTail host name used) [v, object] (do putField object name v; return v)
      fun v => if used then [v] else [] := by
  have hput := (does_putField host {} name object v).behaves
  cases used with
  | false => exact (behaves_pure () rfl).then (hput.map (fun _ => v) fun _ => rfl)
  | true =>
      exact (does_dupX1 v object).behaves.then ((hput.frame [v]).map (fun _ => v) fun _ => rfl)

theorem behaves_stepSlot (op : UpdateOp) (slot : Nat) (used : Bool) :
    Behaves (stepSlot host op slot used) [] (slotStep op slot : Eval σ Value)
      fun v => if used then [v] else [] := by
  have hload := (does_load host {} slot).behaves
  have hinc := (does_increment host {} slot op.delta).behaves
  rw [stepSlot, slotStep]
  cases used with
  | false =>
      have hend : Behaves (pure () : Eval σ Unit) [] (pure () : Eval σ Unit) fun _ => [] :=
        behaves_pure () rfl
      have hstep := hinc.bind fun _ => hend
      refine Behaves.of_discard (hend.then ?_)
      simpa [stepLocal, performIf] using hstep
  | true =>
      cases op.givesOldValue with
      | true =>
          have hend (old : Value) : Behaves (pure () : Eval σ Unit) [old] (pure old)
              fun v => [v] := behaves_pure old rfl
          have hstep := hload.bind fun old => (hinc.frame [old]).bind fun _ => hend old
          simpa [stepLocal, load_load, performIf] using hstep
      | false =>
          have hstep := hinc.bind fun _ => hload
          refine (behaves_pure () rfl).then ?_
          simpa [stepLocal, store_load, performIf] using hstep

theorem behaves_saving (wanted : Bool) (v object : Value) (F : List Value) :
    Behaves (performIf host wanted ⟨.dupX1, none⟩) ([v, object] ++ F) (pure () : Eval σ Unit)
      fun _ => [v, object] ++ ((if wanted then [v] else []) ++ F) := by
  cases wanted with
  | false => exact behaves_pure () rfl
  | true => exact (does_dupX1 v object).behaves.frame F

theorem behaves_stepField (op : UpdateOp) (ty : Ty) (name : String) (object : Value)
    (used : Bool) :
    Behaves (stepField host op ty name used) [object] (fieldStep op ty name object)
      fun v => if used then [v] else [] := by
  have hone (F : List Value) : Behaves (perform host (oneInstruction ty)) F
      (pure () : Eval σ Unit) fun _ => one ty :: F := by
    have h : Behaves (perform host (oneInstruction ty)) [] (pure () : Eval σ Unit)
        fun _ => [one ty] := by
      intro m S
      cases ty <;> rfl
    exact h.frame F
  have hstep (old : Value) (F : List Value) :
      Behaves (perform host ⟨if 0 < op.delta then .add else .sub, none⟩) ([one ty, old] ++ F)
        (arithmetic (if 0 < op.delta then .add else .sub) old (one ty)) fun v => [v] ++ F := by
    refine Behaves.frame ?_ F
    split
    · exact (does_arithmetic host {} .add old (one ty)).behaves
    · exact (does_arithmetic host {} .sub old (one ty)).behaves
  refine (does_dup object).behaves.then ?_
  refine ((does_getField host {} name object).behaves.frame [object]).bind fun old => ?_
  refine (behaves_saving host (used && op.givesOldValue) old object []).then ((hone _).then ?_)
  refine (hstep old _).bind fun new => ?_
  refine (behaves_saving host (used && !op.givesOldValue) new object _).then ?_
  refine ((does_putField host {} name object new).behaves.frame _).map _ fun _ => ?_
  cases used <;> cases op.givesOldValue <;> rfl

/-! A stack that is too low is too low for either tail. -/

theorem storeTail_elide (slot : Nat) :
    (storeTail host slot true >>= fun _ => perform host ⟨.pop, none⟩) =
      storeTail host slot false := by
  funext m
  have h (S : List Value) :
      (storeTail host slot true >>= fun _ => perform host ⟨.pop, none⟩) (m.on S) =
        storeTail host slot false (m.on S) := by
    cases S with
    | nil => rfl
    | cons v S => exact Behaves.elide (behaves_storeTail host slot v) m S
  exact h m.stack

theorem putTail_elide (name : String) :
    (putTail host name true >>= fun _ => perform host ⟨.pop, none⟩) =
      putTail host name false := by
  funext m
  have h (S : List Value) :
      (putTail host name true >>= fun _ => perform host ⟨.pop, none⟩) (m.on S) =
        putTail host name false (m.on S) := by
    match S with
    | [] => rfl
    | [_] => rfl
    | v :: object :: S => exact Behaves.elide (behaves_putTail host name v object) m S
  exact h m.stack

theorem stepSlot_elide (op : UpdateOp) (slot : Nat) :
    (stepSlot host op slot true >>= fun _ => perform host ⟨.pop, none⟩) =
      stepSlot host op slot false := by
  funext m
  exact Behaves.elide (behaves_stepSlot host op slot) m m.stack

theorem stepField_elide (op : UpdateOp) (ty : Ty) (name : String) :
    (stepField host op ty name true >>= fun _ => perform host ⟨.pop, none⟩) =
      stepField host op ty name false := by
  funext m
  have h (S : List Value) :
      (stepField host op ty name true >>= fun _ => perform host ⟨.pop, none⟩) (m.on S) =
        stepField host op ty name false (m.on S) := by
    cases S with
    | nil => rfl
    | cons object S => exact Behaves.elide (behaves_stepField host op ty name object) m S
  exact h m.stack

end Tails

/-! ## Wanted and dropped, or not wanted -/

/-- The code that steps a field of the object on top of the stack. -/
def fieldTail (op : UpdateOp) (ty : Ty) (name : String) (used : Bool) : Gen Unit := do
  Gen.emit .dup
  Gen.emitWith .getField (.name name)
  Gen.emitIf (used && op.givesOldValue) ⟨.dupX1, none⟩
  pushOne ty
  Gen.emit (if 0 < op.delta then .add else .sub)
  Gen.emitIf (used && !op.givesOldValue) ⟨.dupX1, none⟩
  Gen.emitWith .putField (.name name)

theorem acts_incrementSlot {host : Host σ} {code : Code} (op : UpdateOp) (slot : Nat)
    (used : Bool) : Acts host code (incrementSlot op slot used) (stepSlot host op slot used) :=
  (acts_emitIf _ rfl).bind ((acts_give rfl).bind (acts_emitIf _ rfl))

theorem acts_fieldTail {host : Host σ} {code : Code} (op : UpdateOp) (ty : Ty) (name : String)
    (used : Bool) :
    Acts host code (fieldTail op ty name used) (stepField host op ty name used) := by
  have hone : Acts host code (pushOne ty) (perform host (oneInstruction ty)) := by
    rw [pushOne_eq]
    refine acts_give ?_
    cases ty <;> rfl
  have hstep : Acts host code (Gen.emit (if 0 < op.delta then .add else .sub))
      (perform host ⟨if 0 < op.delta then .add else .sub, none⟩) := by
    refine acts_give ?_
    split <;> rfl
  exact (acts_give rfl).bind ((acts_give rfl).bind ((acts_emitIf _ rfl).bind (hone.bind
    (hstep.bind ((acts_emitIf _ rfl).bind (acts_give rfl))))))

/-- The two codes have one effect wherever they stand: from one machine, runs through them come to
the end of the code with the same machine, or throw the same object, or stop for the same reason.
If they do not come to the end, their machines are the same but for the stack. -/
def Interchangeable (host : Host σ) (x y : Gen Unit) : Prop :=
  ∃ effect, ∀ code, Acts host code x effect ∧ Acts host code y effect

variable {host : Host σ}

theorem interchangeable_of_acts {x : Bool → Gen Unit} {d : Bool → Eval σ Unit}
    (hx : ∀ used code, Acts host code (x used) (d used))
    (helide : (d true >>= fun _ => perform host ⟨.pop, none⟩) = d false) :
    Interchangeable host (x true >>= fun _ => Gen.emit .pop) (x false) := by
  refine ⟨d false, fun code => ⟨?_, hx false code⟩⟩
  have hpop : Acts host code (Gen.emit .pop) (perform host ⟨.pop, none⟩) := acts_give rfl
  rw [← helide]
  exact (hx true code).bind hpop

/-- An update whose value is wanted and then dropped is as good as one whose value is not
wanted. -/
theorem interchangeable_update {e : Expr} (he : e.isUpdate) :
    Interchangeable host (value (e.wanting true) >>= fun _ => Gen.emit .pop)
      (value (e.wanting false)) := by
  match e with
  | .assign ty (.slot slot) v _ =>
      obtain ⟨d, hd⟩ := (relocatable_exprCode v).value
      refine interchangeable_of_acts (x := fun used => value (.assign ty (.slot slot) v used))
        (d := fun used => d >>= fun _ => storeTail host slot used) (fun used code => ?_) ?_
      · exact (hd code).bind ((acts_emitIf used rfl).bind (acts_give rfl))
      · rw [bind_assoc]
        exact congrArg (d >>= ·) (funext fun _ => storeTail_elide host slot)
  | .assign ty (.field target name) v _ =>
      obtain ⟨d, hd⟩ := (relocatable_exprCode target).value
      obtain ⟨d', hd'⟩ := (relocatable_exprCode v).value
      refine interchangeable_of_acts
        (x := fun used => value (.assign ty (.field target name) v used))
        (d := fun used => d >>= fun _ => d' >>= fun _ => putTail host name used)
        (fun used code => ?_) ?_
      · exact (hd code).bind ((hd' code).bind ((acts_emitIf used rfl).bind (acts_give rfl)))
      · simp only [bind_assoc]
        exact congrArg (d >>= ·) (funext fun _ =>
          congrArg (d' >>= ·) (funext fun _ => putTail_elide host name))
  | .increment ty op (.slot slot) _ =>
      refine interchangeable_of_acts (x := fun used => value (.increment ty op (.slot slot) used))
        (d := stepSlot host op slot) (fun used code => ?_) (stepSlot_elide host op slot)
      exact acts_incrementSlot op slot used
  | .increment ty op (.field target name) _ =>
      obtain ⟨d, hd⟩ := (relocatable_exprCode target).value
      refine interchangeable_of_acts
        (x := fun used => value (.increment ty op (.field target name) used))
        (d := fun used => d >>= fun _ => stepField host op ty name used) (fun used code => ?_) ?_
      · exact (hd code).bind (acts_fieldTail op ty name used)
      · rw [bind_assoc]
        exact congrArg (d >>= ·) (funext fun _ => stepField_elide host op ty name)
  | .int .. | .long .. | .double .. | .bool .. | .null _ | .slot .. | .field .. | .widen ..
  | .new .. | .binary .. | .unary .. | .call .. | .error _ => cases he

end Simulation

/-! ## In place and on the stack -/

namespace Value

/-- A number one further up or down, around the ends of its range. -/
def stepped (op : UpdateOp) : Value → Value
  | int x => int (Int32.ofInt (x.toInt + op.delta.toInt))
  | long x => long (Int64.ofInt (x.toInt + op.delta.toInt))
  | double x => double (if 0 < op.delta then x + 1.0 else x - 1.0)
  | v => v

/-- What a step leaves on the stack: the value before or after it, if one is wanted. -/
def leftBy (op : UpdateOp) (used : Bool) (old : Value) : List Value :=
  if used then [if op.givesOldValue then old else old.stepped op] else []

/-- The value is a number of the type. -/
inductive NumberOf : Ty → Value → Prop
  | int (x : Int32) : NumberOf .int (int x)
  | long (x : Int64) : NumberOf .long (long x)
  | double (x : Float) : NumberOf .double (double x)

variable {ty : Ty} {old : Value}

theorem increment_eq_stepped (op : UpdateOp) (hold : NumberOf ty old) :
    old.increment op.delta = .ok (old.stepped op) := by
  cases hold with
  | int x => rw [increment, stepped, Int32.ofInt_add, Int32.ofInt_toInt, Int32.ofInt_toInt]
  | long x =>
      have hdelta : op.delta.toInt64 = Int64.ofInt op.delta.toInt := by cases op <;> decide
      rw [increment, stepped, Int64.ofInt_add, Int64.ofInt_toInt, hdelta]
  | double x =>
      rw [increment, stepped]
      cases op with
      | preIncrement | postIncrement =>
          show Except.ok (double (x + Float.ofInt 1)) = .ok (double (x + 1.0))
          rw [Double.ofInt_one]
      | preDecrement | postDecrement =>
          show Except.ok (double (x + Float.ofInt (-1))) = .ok (double (x - 1.0))
          rw [Double.add_ofInt_neg_one]

theorem arithmetic_eq_stepped (op : UpdateOp) (hold : NumberOf ty old) :
    arithmetic (if 0 < op.delta then .add else .sub) old (Interpretation.one ty) =
      .ok (some (old.stepped op)) := by
  cases hold with
  | int x =>
      rw [stepped, Int32.ofInt_add, Int32.ofInt_toInt, Int32.ofInt_toInt]
      cases op with
      | preIncrement | postIncrement => rfl
      | preDecrement | postDecrement =>
          show Except.ok (some (int (x - 1))) = .ok (some (int (x + -1)))
          rw [Int32.sub_eq_add_neg]
  | long x =>
      rw [stepped, Int64.ofInt_add, Int64.ofInt_toInt]
      cases op with
      | preIncrement | postIncrement => rfl
      | preDecrement | postDecrement =>
          show Except.ok (some (long (x - 1))) = .ok (some (long (x + -1)))
          rw [Int64.sub_eq_add_neg]
  | double x =>
      rw [stepped]
      cases op <;> rfl

end Value

namespace Simulation

open Annotated (Expr Place)
open Lowering hiding stmt stmts groups catches catching
open Interpretation Machine Eval

variable {host : Host σ} {code : Code} {around : List Guard} {pc n n' : Nat} {ps : List Piece}
  {ty : Ty} {op : UpdateOp} {used : Bool} {m : Machine σ} {old : Value}

/-- A run through code whose effect is done comes to its end. -/
theorem Acts.reaches {x : Gen Unit} {effect : Eval σ Unit} {u : Unit} {m' : Machine σ}
    (h : Acts host code x effect) (hy : x.Yields n u ps n') (hps : Standing code around pc ps)
    (hdone : effect m = .done () m') :
    Reaches host code (pc, m) (pc + size (layOut ps), m') := by
  have hrun := h hy hps m
  rw [hdone] at hrun
  exact hrun

theorem reaches_incrementSlot {slot : Nat} (hy : (incrementSlot op slot used).Yields n () ps n')
    (hps : Standing code around pc ps) (hslot : m.locals[slot]? = some old)
    (hold : Value.NumberOf ty old) :
    Reaches host code (pc, m) (pc + size (layOut ps),
      { m with locals := m.locals.setIfInBounds slot (old.stepped op) }.on
        (old.leftBy op used ++ m.stack)) := by
  obtain ⟨hlt, -⟩ := Array.getElem?_eq_some_iff.mp hslot
  have hload : Eval.load slot m = .done old m := by rw [Eval.load, hslot]
  have hstore : Eval.store slot (old.stepped op) m =
      .done () { m with locals := m.locals.setIfInBounds slot (old.stepped op) } := if_pos hlt
  have hstep : slotStep op slot m = .done (if op.givesOldValue then old else old.stepped op)
      { m with locals := m.locals.setIfInBounds slot (old.stepped op) } := by
    simp only [slotStep, Bind.bind, hload, Value.increment_eq_stepped op hold, Eval.ofExcept, pure,
      hstore]
  refine (acts_incrementSlot op slot used).reaches hy hps ?_
  have hbehaves := behaves_stepSlot host op slot used m m.stack
  rw [hstep] at hbehaves
  exact hbehaves

theorem reaches_fieldTail {name : String} {address : Nat} {S : List Value}
    (hy : (fieldTail op ty name used).Yields n () ps n') (hps : Standing code around pc ps)
    (hfield : m.field? (.ref address) name = some old) (hold : Value.NumberOf ty old) :
    Reaches host code (pc, m.on (.ref address :: S)) (pc + size (layOut ps),
      { m with heap := m.heap.modify address fun o =>
          { o with fields := Assoc.insert name (old.stepped op) o.fields } }.on
        (old.leftBy op used ++ S)) := by
  obtain ⟨object, hobject, hlookup⟩ := Option.bind_eq_some_iff.mp hfield
  obtain ⟨hlt, -⟩ := Array.getElem?_eq_some_iff.mp hobject
  have hget : Eval.getField (.ref address) name m = .done old m := by
    rw [Eval.getField_ref, show m.heap[address]? = some object from hobject]
    simp only [hlookup]
  have hput : Eval.putField (.ref address) name (old.stepped op) m =
      .done () { m with heap := m.heap.modify address fun o =>
        { o with fields := Assoc.insert name (old.stepped op) o.fields } } := if_pos hlt
  have hstep : fieldStep op ty name (.ref address) m =
      .done (if op.givesOldValue then old else old.stepped op)
        { m with heap := m.heap.modify address fun o =>
          { o with fields := Assoc.insert name (old.stepped op) o.fields } } := by
    simp only [fieldStep, Bind.bind, hget, Eval.arithmetic, Value.arithmetic_eq_stepped op hold,
      pure, hput]
  refine (acts_fieldTail op ty name used).reaches hy hps ?_
  have hbehaves := behaves_stepField host op ty name (.ref address) used m S
  rw [hstep] at hbehaves
  exact hbehaves

/-- A step of a place that holds a number of its type moves the number by one, and leaves what it
was before or is after the step, if that is wanted. The place may be a local, or a field of
the object that the code of its target has left on the stack. -/
def Steps (host : Host σ) : Expr → Prop
  | .increment ty op (.slot slot) used =>
      ∀ ⦃code around pc n n' ps⦄, (value (.increment ty op (.slot slot) used)).Yields n () ps n' →
        Standing code around pc ps → ∀ (m : Machine σ) (old : Value),
          m.locals[slot]? = some old → old.NumberOf ty →
            Reaches host code (pc, m) (pc + size (layOut ps),
              { m with locals := m.locals.setIfInBounds slot (old.stepped op) }.on
                (old.leftBy op used ++ m.stack))
  | .increment ty op (.field target name) used =>
      ∀ ⦃code around pc n k n' ts ps⦄, (value target).Yields n () ts k →
        (value (.increment ty op (.field target name) used)).Yields n () ps n' →
          Standing code around pc ps → ∀ (start m : Machine σ) address S (old : Value),
            Reaches host code (pc, start) (pc + size (layOut ts), m.on (.ref address :: S)) →
              m.field? (.ref address) name = some old → old.NumberOf ty →
                Reaches host code (pc, start) (pc + size (layOut ps),
                  { m with heap := m.heap.modify address fun o =>
                      { o with fields := Assoc.insert name (old.stepped op) o.fields } }.on
                    (old.leftBy op used ++ S))
  | _ => True

theorem steps (host : Host σ) (e : Expr) : Steps host e := by
  match e with
  | .increment ty op (.slot slot) used =>
      intro code around pc n n' ps hy hps m old hslot hold
      exact reaches_incrementSlot hy hps hslot hold
  | .increment ty op (.field target name) used =>
      intro code around pc n k n' ts ps hts hy hps start m address S old hstart hfield hold
      have hy : (value target >>= fun _ => fieldTail op ty name used).Yields n () ps n' := hy
      obtain ⟨ts', k', tail, hts', rfl, htail⟩ := Gen.yields_unit_bind.mp hy
      -- The code of the target is generated from one label on, so it is one code.
      obtain ⟨-, rfl, rfl⟩ := Emission.mk.inj (Except.ok.inj (hts.symm.trans hts'))
      rw [layOut_append, size_append, ← Nat.add_assoc]
      exact hstart.trans (reaches_fieldTail htail (standing_append.mp hps).2 hfield hold)
  | .assign .. | .int .. | .long .. | .double .. | .bool .. | .null _ | .slot .. | .field ..
  | .widen .. | .new .. | .binary .. | .unary .. | .call .. | .error _ => trivial

/-- Whether the value of an update is wanted and dropped or not wanted cannot be seen. An update in
an accepted program has both codes; wherever they stand they have one effect, also if the object
or the value that is computed first throws; and a step of a number is the same in place and on the
stack. -/
theorem update_elision_unobservable {e : Expr} (he : e.isUpdate) (host : Host σ) :
    (∀ settings p h, check settings p = .ok h → e ∈ h.exprs →
      ∀ used, (value (e.wanting used)).Succeeds) ∧
    Interchangeable host (do value (e.wanting true); Gen.emit .pop) (value (e.wanting false)) ∧
    ∀ used, Steps host (e.wanting used) := by
  refine ⟨fun settings p h hcheck hmem used => ?_, interchangeable_update he, fun _ => steps host _⟩
  obtain ⟨_, hsound⟩ := check_exprs_sound hcheck hmem
  exact succeeds_value (hsound.wanting he used)

/-- The largest number steps up and the value before the step is kept; a field with the smallest
long number steps down and the value after the step is kept. -/
def wrapping : Source.Program :=
  ⟨[.localDecl 1 "x" .int (some (.literal 1 (.int 2147483647))),
    .localDecl 2 "y" .int (some (.update 2 .postIncrement (.var 2 "x"))),
    .localDecl 3 "o" (.reference "Counter") (some (.new 3 "Counter")),
    .localDecl 4 "z" .long (some (.update 4 .preDecrement (.field 4 (.var 4 "o") "n" .long)))]⟩

/-- The tree of the two steps. -/
def wrappingTree : Annotated.Program :=
  ⟨[.localInit 0 (.int .int 2147483647),
    .localInit 1 (.increment .int .postIncrement (.slot 0) true),
    .localInit 2 (.new (.reference "Counter") "Counter"),
    .localInit 3 (.increment .long .preDecrement (.field (.slot (.reference "Counter") 2) "n")
      true)], 4⟩

theorem check_wrapping : check {} wrapping = .ok wrappingTree := by
  cbv

/-- The code of the two steps. -/
def wrappingCode : Code :=
  { instructions := #[⟨.push, some (.int 2147483647)⟩, ⟨.store, some (.slot 0)⟩,
      ⟨.load, some (.slot 0)⟩, ⟨.inc, some (.increment 0 1)⟩, ⟨.store, some (.slot 1)⟩,
      ⟨.new, some (.name "Counter")⟩, ⟨.store, some (.slot 2)⟩,
      ⟨.load, some (.slot 2)⟩, ⟨.dup, none⟩, ⟨.getField, some (.name "n")⟩, ⟨.lconst1, none⟩,
      ⟨.sub, none⟩, ⟨.dupX1, none⟩, ⟨.putField, some (.name "n")⟩, ⟨.store, some (.slot 3)⟩,
      ⟨.halt, none⟩]
    maxLocals := 4 }

/-- A machine at the ends of both ranges. -/
def wrappingMachine : Machine Script :=
  { locals := #[.int 2147483647, .int 0, .ref 0, .long 0]
    heap := #[⟨"Counter", [("n", .long (-9223372036854775808))]⟩]
    host := [] }

/-- Both steps go around. -/
theorem update_elision_wrapping :
    check {} wrapping = .ok wrappingTree ∧ generate 4294967295 wrappingTree = .ok wrappingCode ∧
      (∀ used, (value (.increment .int .postIncrement (.slot 0) used)).Succeeds) ∧
      Reaches Script.host wrappingCode (2, wrappingMachine)
        (4, { wrappingMachine with
          stack := [.int 2147483647]
          locals := #[.int (-2147483648), .int 0, .ref 0, .long 0] }) ∧
      Reaches Script.host wrappingCode (7, wrappingMachine)
        (14, { wrappingMachine with
          stack := [.long 9223372036854775807]
          heap := #[⟨"Counter", [("n", .long 9223372036854775807)]⟩] }) := by
  obtain ⟨hsucceeds, -, hslot⟩ := update_elision_unobservable
    (e := .increment .int .postIncrement (.slot 0) true) rfl Script.host
  obtain ⟨-, -, hfield⟩ := update_elision_unobservable
    (e := .increment .long .preDecrement (.field (.slot (.reference "Counter") 2) "n") true) rfl
    Script.host
  refine ⟨check_wrapping, by decide +kernel, hsucceeds {} wrapping wrappingTree check_wrapping ?_,
    ?_, ?_⟩
  · simp [Annotated.Program.exprs, wrappingTree, Annotated.Stmt.allParts, Annotated.Stmt.parts,
      Annotated.Stmt.exprs, Annotated.Expr.parts]
  · have hstands : Standing wrappingCode [] 2 [.give (.emit ⟨.load, some (.slot 0)⟩),
        .give (.emit ⟨.inc, some (.increment 0 1)⟩)] :=
      ⟨⟨fun _ h => h, fun _ h => h, trivial⟩, ⟨rfl, rfl, trivial⟩⟩
    exact hslot true (n := 0) rfl hstands wrappingMachine _ rfl (.int _)
  · have hstands : Standing wrappingCode [] 7 [.give (.emit ⟨.load, some (.slot 2)⟩),
        .give (.emit ⟨.dup, none⟩), .give (.emit ⟨.getField, some (.name "n")⟩),
        .give (.emit ⟨.lconst1, none⟩), .give (.emit ⟨.sub, none⟩), .give (.emit ⟨.dupX1, none⟩),
        .give (.emit ⟨.putField, some (.name "n")⟩)] :=
      ⟨⟨fun _ h => h, fun _ h => h, fun _ h => h, fun _ h => h, fun _ h => h, fun _ h => h,
        fun _ h => h, trivial⟩, ⟨rfl, rfl, rfl, rfl, rfl, rfl, rfl, trivial⟩⟩
    have hload : Onward Script.host wrappingCode (7, wrappingMachine)
        (8, wrappingMachine.on [.ref 0]) := rfl
    exact hfield true (n := 0) rfl rfl hstands wrappingMachine wrappingMachine 0 [] _
      (.single hload) rfl (.long _)

end Simulation

end MethodCompiler
