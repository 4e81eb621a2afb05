import MethodCompiler.Proofs.Interpretation

/-!
# What comparisons can change

The meaning of a tree depends on how values compare in one place only. So whatever relates two
ways to compare relates the evaluations of an expression, if sequences of evaluations keep to it
(`Relates`). That expressions are always evaluated to an end is one such relation of a way to
compare with itself.

Another is to do the same up to a stop. Statements keep to that as well, loops and finally bodies
included. The way comparisons are tested in code and the plain way differ at doubles without an
order, so a method body that compares no such doubles means the same in both
(`run_tested_eq_plain`).
-/

namespace MethodCompiler.Interpretation

open Annotated (Expr Stmt Catch)
open Eval

/-! ## Evaluation comes to an end -/

/-- The evaluation never gives up. -/
def Settles {σ α : Type} (x : Eval σ α) : Prop :=
  ∀ m, x m ≠ .exhausted

variable {σ α β : Type} {host : Host σ}

theorem settles_pure (a : α) : Settles (pure a : Eval σ α) := by
  intro m h
  cases h

theorem settles_bind {x : Eval σ α} {f : α → Eval σ β} (hx : Settles x)
    (hf : ∀ a, Settles (f a)) : Settles (x >>= f) := by
  intro m h
  simp only [bind] at h
  cases hxm : x m with
  | done a m' =>
      rw [hxm] at h
      exact hf a m' h
  | raised v className m' | stopped why m' =>
      rw [hxm] at h
      cases h
  | exhausted => exact hx m hxm

theorem settles_load (slot : Nat) : Settles (Eval.load slot : Eval σ Value) := by
  intro m
  rw [Eval.load]
  split <;> simp

theorem settles_store (slot : Nat) (v : Value) : Settles (Eval.store slot v : Eval σ Unit) := by
  intro m
  rw [Eval.store]
  split <;> simp

theorem settles_ofExcept (r : Except ValueError α) : Settles (Eval.ofExcept r : Eval σ α) := by
  intro m h
  cases r <;> cases h

theorem settles_raiseNew (className : String) : Settles (Eval.raiseNew className : Eval σ α) := by
  intro m
  simp [Eval.raiseNew]

theorem settles_getField (v : Value) (name : String) :
    Settles (Eval.getField v name : Eval σ Value) := by
  cases v with
  | ref address =>
      intro m
      rw [Eval.getField_ref]
      split
      · simp
      · split <;> simp
  | int _ | long _ | double _ | null => exact settles_raiseNew "NullPointerException"

theorem settles_putField (v : Value) (name : String) (w : Value) :
    Settles (Eval.putField v name w : Eval σ Unit) := by
  cases v with
  | ref address =>
      intro m
      show (if address < m.heap.size then Result.done () _ else .stopped _ m) ≠ _
      split <;> simp
  | int _ | long _ | double _ | null => exact settles_raiseNew "NullPointerException"

theorem settles_arithmetic (op : Arithmetic) (a b : Value) :
    Settles (Eval.arithmetic op a b : Eval σ Value) := by
  rw [Eval.arithmetic]
  split
  · exact settles_pure _
  · exact settles_raiseNew _
  · exact settles_ofExcept (.error _)

theorem settles_call (name : String) (args : List Value) (returns : Bool) :
    Settles (Eval.call host name args returns) := by
  intro m h
  simp only [Eval.call] at h
  split at h
  · cases h
  · cases h
  · split at h <;> cases h

theorem settles_widen (source target : Ty) (v : Value) :
    Settles (Eval.widen source target v : Eval σ Value) := by
  unfold Eval.widen
  split
  · exact settles_ofExcept _
  · exact settles_ofExcept _
  · exact settles_ofExcept _
  · intro m h
    cases h

theorem settles_stop (why : Stop) : Settles (stop why : Eval σ α) := by
  intro m h
  cases h

/-! ## Relations between evaluations -/

/-- A relation between evaluations with two ways to compare: the basic ones are related to
themselves, comparisons to each other, and sequences if their parts are. -/
structure Relates (cmp cmp' : Comparing) (R : ∀ ⦃α : Type⦄, Eval σ α → Eval σ α → Prop) : Prop where
  basic : ∀ {α : Type} {x : Eval σ α}, Settles x → R x x
  bind : ∀ {α β : Type} {x y : Eval σ α} {f g : α → Eval σ β}, R x y → (∀ a, R (f a) (g a)) →
    R (x >>= f) (y >>= g)
  compare : ∀ ty tested c v w, R (ofExcept (cmp ty tested c v w)) (ofExcept (cmp' ty tested c v w))

/-- Both readings of an expression are related. -/
structure Alike (R : ∀ ⦃α : Type⦄, Eval σ α → Eval σ α → Prop) (r r' : Reading σ) : Prop where
  value : R r.value r'.value
  test : ∀ b, R (r.test b) (r'.test b)

namespace Relates

variable {cmp cmp' : Comparing} {R : ∀ ⦃α : Type⦄, Eval σ α → Eval σ α → Prop}
  (h : Relates cmp cmp' R)
include h

theorem pure (a : α) : R (pure a) (pure a) :=
  h.basic (settles_pure a)

theorem ofValue {x y : Eval σ Value} (hxy : R x y) : Alike R (.ofValue x) (.ofValue y) :=
  ⟨hxy, fun _ => h.bind hxy fun _ => h.pure _⟩

theorem ofTest {x y : Bool → Eval σ Bool} (hxy : ∀ b, R (x b) (y b)) :
    Alike R (.ofTest x) (.ofTest y) :=
  ⟨h.bind (hxy false) fun _ => h.pure _, hxy⟩

mutual

theorem alike (e : Expr) : Alike R (expr cmp host e) (expr cmp' host e) := by
  match e with
  | .int .. | .long .. | .double .. | .null _ => exact h.ofValue (h.pure _)
  | .bool _ v => exact ⟨h.pure _, fun _ => h.pure v⟩
  | .slot _ slot => exact h.ofValue (h.basic (settles_load slot))
  | .field _ target name =>
      exact h.ofValue (h.bind (alike target).value fun v => h.basic (settles_getField v name))
  | .widen ty inner =>
      exact h.ofValue (h.bind (alike inner).value fun v => h.basic (settles_widen inner.ty ty v))
  | .assign _ (.slot slot) value _ =>
      exact h.ofValue (h.bind (alike value).value fun v =>
        h.bind (h.basic (settles_store slot v)) fun _ => h.pure v)
  | .assign _ (.field target name) value _ =>
      exact h.ofValue (h.bind (alike target).value fun o => h.bind (alike value).value fun v =>
        h.bind (h.basic (settles_putField o name v)) fun _ => h.pure v)
  | .binary _ op left right =>
      have hl := alike left
      have hr := alike right
      match op with
      | .logicalAnd =>
          refine h.ofTest fun b => h.bind (hl.test false) fun t => ?_
          cases t
          · exact h.pure false
          · exact hr.test b
      | .logicalOr =>
          refine h.ofTest fun b => h.bind (hl.test true) fun t => ?_
          cases t
          · exact hr.test b
          · exact h.pure true
      | .add | .subtract | .multiply | .divide | .modulo =>
          exact h.ofValue (h.bind hl.value fun a => h.bind hr.value fun b =>
            h.basic (settles_arithmetic _ a b))
      | .equal | .notEqual | .lessThan | .lessThanEqual | .greaterThan | .greaterThanEqual =>
          exact h.ofTest fun b => h.bind hl.value fun v => h.bind hr.value fun w =>
            h.compare left.ty b _ v w
  | .unary _ op operand =>
      have ih := alike operand
      match op with
      | .logicalNot =>
          rw [expr, expr]
          exact h.ofTest fun b => h.bind (ih.test (!b)) fun _ => h.pure _
      | .minus => exact h.ofValue (h.bind ih.value fun _ => h.basic (settles_ofExcept _))
      | .plus => exact h.ofValue ih.value
      | .bitwiseNot =>
          exact h.ofValue (h.bind ih.value fun _ => h.basic (settles_arithmetic _ _ _))
  | .increment _ op (.slot slot) _ =>
      exact h.ofValue (h.bind (h.basic (settles_load slot)) fun _ =>
        h.bind (h.basic (settles_ofExcept _)) fun _ =>
          h.bind (h.basic (settles_store slot _)) fun _ => h.pure _)
  | .increment ty op (.field target name) _ =>
      exact h.ofValue (h.bind (alike target).value fun o =>
        h.bind (h.basic (settles_getField o name)) fun _ =>
          h.bind (h.basic (settles_arithmetic _ _ _)) fun _ =>
            h.bind (h.basic (settles_putField o name _)) fun _ => h.pure _)
  | .call ty name args =>
      exact h.ofValue (h.bind (alike_all args) fun vs => h.basic (settles_call name vs _))
  | .new _ className =>
      refine h.ofValue (h.basic fun m hm => ?_)
      cases hm
  | .error _ => exact h.ofValue (h.basic (settles_stop _))
termination_by structural e

theorem alike_all (es : List Expr) : R (exprs cmp host es) (exprs cmp' host es) := by
  match es with
  | [] => exact h.pure []
  | e :: rest =>
      exact h.bind (alike e).value fun _ => h.bind (alike_all rest) fun _ => h.pure _
termination_by structural es

end

end Relates

/-- Both readings of an expression come to an end. -/
theorem settles_expr (cmp : Comparing) (e : Expr) :
    Settles (expr cmp host e).value ∧ ∀ b, Settles ((expr cmp host e).test b) := by
  have hrelates : Relates cmp cmp fun _ (x y : Eval σ _) => Settles x :=
    ⟨id, settles_bind, fun _ _ _ _ _ => settles_ofExcept _⟩
  exact ⟨(hrelates.alike e).value, (hrelates.alike e).test⟩

/-! ## The same up to a stop -/

/-- One evaluation does what another does, or stops for a certain reason. -/
def Upto (P : Stop → Prop) (x y : Eval σ α) : Prop :=
  ∀ m, x m = y m ∨ ∃ why m', P why ∧ x m = .stopped why m'

section Upto

variable {P : Stop → Prop}

theorem Upto.refl (x : Eval σ α) : Upto P x x :=
  fun _ => .inl rfl

theorem Upto.bind {x y : Eval σ α} {f g : α → Eval σ β} (hxy : Upto P x y)
    (hfg : ∀ a, Upto P (f a) (g a)) : Upto P (x >>= f) (y >>= g) := by
  intro m
  simp only [Bind.bind]
  obtain heq | ⟨why, m', hwhy, heq⟩ := hxy m
  · rw [heq]
    cases y m with
    | done a m' => exact hfg a m'
    | raised _ _ _ | stopped _ _ | exhausted => exact .inl rfl
  · exact .inr ⟨why, m', hwhy, by rw [heq]⟩

theorem Upto.andThen {x x' y y' : Eval σ Flow} (h : Upto P x x') (h' : Upto P y y') :
    Upto P (x.andThen y) (x'.andThen y') := by
  refine h.bind fun flow => ?_
  cases flow with
  | normal => exact h'
  | brk id | cont id => exact .refl _

theorem Upto.loop {x y : Eval σ (Option Flow)} (h : Upto P x y) (rounds : Nat) :
    Upto P (x.loop rounds) (y.loop rounds) := by
  induction rounds with
  | zero => exact .refl _
  | succ rounds ih =>
      refine h.bind fun left => ?_
      cases left with
      | none => exact ih
      | some flow => exact .refl _

theorem Upto.catching {x y : Eval σ Flow} {f g : Value → String → Eval σ Flow} (h : Upto P x y)
    (hfg : ∀ v className, Upto P (f v className) (g v className)) :
    Upto P (x.catching f) (y.catching g) := by
  intro m
  simp only [Eval.catching]
  obtain heq | ⟨why, m', hwhy, heq⟩ := h m
  · rw [heq]
    cases y m with
    | raised v className m' => exact hfg v className m'
    | done _ _ | stopped _ _ | exhausted => exact .inl rfl
  · exact .inr ⟨why, m', hwhy, by rw [heq]⟩

theorem Upto.withFinally {x x' y y' : Eval σ Flow} (h : Upto P x x') (slot : Nat)
    (h' : Upto P y y') : Upto P (x.withFinally slot y) (x'.withFinally slot y') := by
  intro m
  simp only [Eval.withFinally]
  obtain heq | ⟨why, m', hwhy, heq⟩ := h m
  · rw [heq]
    cases x' m with
    | done flow m' => exact h'.andThen (.refl _) m'
    | raised v className m' => exact (Upto.refl _).bind (fun _ => h'.andThen (.refl _)) m'
    | stopped _ _ | exhausted => exact .inl rfl
  · exact .inr ⟨why, m', hwhy, by rw [heq]⟩

end Upto

section Statements

variable {P : Stop → Prop} {cmp cmp' : Comparing} {rounds : Nat}

mutual

theorem upto_stmt (h : Relates cmp cmp' fun _ => Upto (σ := σ) P) (s : Stmt) :
    Upto P (stmt cmp host rounds s) (stmt cmp' host rounds s) := by
  match s with
  | .block body => exact upto_stmts h body
  | .localInit _ e | .expression e _ | .throw e => exact (h.alike e).value.bind fun _ => .refl _
  | .ifElse c s none =>
      refine ((h.alike c).test false).bind fun t => ?_
      cases t
      · exact .refl _
      · exact upto_stmt h s
  | .ifElse c s (some t) =>
      refine ((h.alike c).test false).bind fun b => ?_
      cases b
      · exact upto_stmt h t
      · exact upto_stmt h s
  | .whileLoop j c body =>
      refine Upto.loop (((h.alike c).test false).bind fun b => ?_) rounds
      cases b
      · exact .refl _
      · exact (upto_stmt h body).bind fun _ => .refl _
  | .doLoop j body c =>
      refine Upto.loop ((upto_stmt h body).bind fun flow => ?_) rounds
      cases leaves j.id flow with
      | some flow => exact .refl _
      | none => exact ((h.alike c).test true).bind fun _ => .refl _
  | .forLoop j init c update body =>
      refine (upto_stmts h init).andThen (Upto.loop (.bind ?_ fun b => ?_) rounds)
      · cases c with
        | none => exact .refl _
        | some c => exact (h.alike c).test false
      cases b
      · exact .refl _
      refine (upto_stmt h body).bind fun flow => ?_
      cases leaves j.id flow with
      | some flow => exact .refl _
      | none => exact (upto_stmts h update).bind fun _ => .refl _
  | .switch id _ e bodies d =>
      refine (h.alike e).value.bind fun v => ?_
      cases v.int? with
      | none => exact .refl _
      | some key =>
          simp only
          cases d.groupFor key <|> d.defaultGroup with
          | none => exact .refl _
          | some group => exact (upto_groups h bodies group).bind fun _ => .refl _
  | .tryCatch block clauses none => exact (upto_stmts h block).catching (upto_catches h clauses)
  | .tryCatch block clauses (some ⟨slot, body⟩) =>
      exact ((upto_stmts h block).catching (upto_catches h clauses)).withFinally slot
        (upto_stmts h body)
  | .breakJump _ | .continueJump _ | .empty => exact .refl _
termination_by structural s

theorem upto_stmts (h : Relates cmp cmp' fun _ => Upto (σ := σ) P) (body : List Stmt) :
    Upto P (stmts cmp host rounds body) (stmts cmp' host rounds body) := by
  match body with
  | [] => exact .refl _
  | s :: rest => exact (upto_stmt h s).andThen (upto_stmts h rest)
termination_by structural body

theorem upto_groups (h : Relates cmp cmp' fun _ => Upto (σ := σ) P)
    (bodies : List (List Stmt)) (group : Nat) :
    Upto P (groups cmp host rounds bodies group) (groups cmp' host rounds bodies group) := by
  match bodies, group with
  | [], _ => exact .refl _
  | body :: rest, 0 => exact (upto_stmts h body).andThen (upto_groups h rest 0)
  | _ :: rest, group + 1 => exact upto_groups h rest group
termination_by structural bodies

theorem upto_catches (h : Relates cmp cmp' fun _ => Upto (σ := σ) P)
    (clauses : List (Catch Stmt)) (v : Value) (className : String) :
    Upto P (catches cmp host rounds clauses v className)
      (catches cmp' host rounds clauses v className) := by
  match clauses with
  | [] => exact .refl _
  | ⟨exceptionType, slot, body⟩ :: rest =>
      intro m
      simp only [catches]
      split
      · exact (Upto.refl _).bind (fun _ => upto_stmts h body) m
      · exact upto_catches h rest v className m
termination_by structural clauses

end

/-- A method body runs the same, or it stops. -/
theorem run_upto (h : Relates cmp cmp' fun _ => Upto (σ := σ) P)
    (p : Annotated.Program) (m : Machine σ) :
    run cmp host rounds p m = run cmp' host rounds p m ∨
      ∃ why m', P why ∧ run cmp host rounds p m = some (.stopped why, m') := by
  rw [run, run]
  obtain heq | ⟨why, m', hwhy, heq⟩ := upto_stmts h p.body _
  · exact .inl (by rw [heq])
  · exact .inr ⟨why, m', hwhy, by rw [heq]⟩

end Statements

/-! ## Doubles without an order -/

/-- Values compare in themselves, but where a comparison that is tested for being false comes
upon doubles without an order, it stops. -/
def refusing : Comparing :=
  fun ty wanted c left right =>
    if ty ≠ .double ∧ wanted = false ∧ unordered c left right then
      .error (.incomparable left right)
    else Value.compare c left right

/-- A method body that never compares doubles without an order means the same, be comparisons
tested as in code or not. -/
theorem run_tested_eq_plain {rounds : Nat} {p : Annotated.Program} {m : Machine σ}
    (h : ∀ x y m', run refusing host rounds p m ≠
      some (.stopped (.value (.incomparable (.double x) (.double y))), m')) :
    run tested host rounds p m = run plain host rounds p m := by
  have hsame : ∀ cmp : Comparing, (∀ ty wanted c v w,
      ¬ (ty ≠ .double ∧ wanted = false ∧ unordered c v w) →
        cmp ty wanted c v w = Value.compare c v w) →
      run refusing host rounds p m = run cmp host rounds p m := by
    intro cmp hcmp
    have hrelates : Relates refusing cmp fun _ => Upto (σ := σ) fun why =>
        ∃ x y, why = .value (.incomparable (.double x) (.double y)) := by
      refine ⟨fun _ => .refl _, .bind, fun ty wanted c v w m => ?_⟩
      rw [refusing]
      split
      · next hodd =>
          obtain ⟨x, y, rfl, rfl⟩ : ∃ x y, v = .double x ∧ w = .double y := by
            cases v <;> cases w <;> simp [unordered] at hodd ⊢
          exact .inr ⟨_, m, ⟨x, y, rfl⟩, rfl⟩
      · next hplain => exact .inl (by rw [hcmp ty wanted c v w hplain])
    obtain heq | ⟨_, m', ⟨x, y, rfl⟩, heq⟩ := run_upto hrelates p m
    · exact heq
    · exact absurd heq (h x y m')
  exact (hsame tested fun _ _ _ _ _ h => if_neg h).symm.trans (hsame plain fun _ _ _ _ _ _ => rfl)

end MethodCompiler.Interpretation
