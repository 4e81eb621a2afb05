import MethodCompiler.Proofs.Around
import MethodCompiler.Proofs.Yields

/-!
# Sound trees have code

Generation of a sound tree comes upon no defect: every construct is entered once on
the way in, every jump finds its target, a continue finds a loop, and every
conversion exists. Whether a step of generation succeeds does not depend on the
number of the next label, which makes success compose.
-/

namespace MethodCompiler.Lowering

open Annotated (Expr Place Stmt Catch Finally)

namespace Gen

/-- The step comes upon no defect, whatever the next label. -/
def Succeeds (x : Gen α) : Prop :=
  ∀ n : Nat, ∃ a ps n', x.Yields n a ps n'

theorem succeeds_pure (a : α) : (pure a : Gen α).Succeeds :=
  fun n => ⟨a, [], n, rfl⟩

theorem succeeds_piece (p : Piece) : (piece p).Succeeds :=
  fun n => ⟨(), [p], n, rfl⟩

theorem succeeds_give (d : Directive) : (give d).Succeeds :=
  succeeds_piece _

theorem succeeds_place (l : Label) : (place l).Succeeds :=
  succeeds_piece _

theorem succeeds_emit (op : Opcode) : (emit op).Succeeds :=
  succeeds_piece _

theorem succeeds_emitWith (op : Opcode) (operand : Operand) : (emitWith op operand).Succeeds :=
  succeeds_piece _

theorem succeeds_jump (op : Opcode) (l : Label) : (jump op l).Succeeds :=
  succeeds_piece _

theorem succeeds_label : label.Succeeds :=
  fun n => ⟨n, [], n + 1, rfl⟩

theorem succeeds_bind {x : Gen α} {f : α → Gen β} (hx : x.Succeeds) (hf : ∀ a, (f a).Succeeds) :
    (x >>= f).Succeeds := by
  intro n
  obtain ⟨a, ps, m, hxn⟩ := hx n
  obtain ⟨b, qs, n', hfm⟩ := hf a m
  exact ⟨b, ps ++ qs, n', yields_bind.mpr ⟨a, ps, m, qs, hxn, rfl, hfm⟩⟩

theorem succeeds_fresh : fresh.Succeeds :=
  fun n => ⟨n, _, n + 1, yields_fresh.mpr ⟨rfl, rfl, rfl⟩⟩

theorem succeeds_placeIf (used : Bool) (l : Label) : (placeIf used l).Succeeds := by
  cases used
  · exact succeeds_pure ()
  · exact succeeds_place l

theorem succeeds_emitIf (wanted : Bool) (i : Instruction) : (emitIf wanted i).Succeeds := by
  cases wanted
  · exact succeeds_pure ()
  · exact succeeds_give _

theorem succeeds_hold {x : Gen Unit} (hx : x.Succeeds) : (hold x).Succeeds := by
  intro n
  obtain ⟨_, ps, m, h⟩ := hx n
  exact ⟨ps, [], m, yields_hold.mpr ⟨h, rfl⟩⟩

theorem succeeds_statement {x : Gen Unit} (hx : x.Succeeds) : (statement x).Succeeds :=
  succeeds_bind (succeeds_hold hx) fun _ => succeeds_piece _

end Gen

open Gen

/-! ## Expressions -/

/-- Both codes of an expression exist. -/
def ExprCode.Succeeds (c : ExprCode) : Prop :=
  c.value.Succeeds ∧ ∀ target onTrue, (c.branch target onTrue).Succeeds

theorem succeeds_ofValue {value : Gen Unit} (h : value.Succeeds) :
    (ExprCode.ofValue value).Succeeds :=
  ⟨h, fun _ _ => succeeds_bind h fun _ => succeeds_jump _ _⟩

theorem succeeds_ofBranch {branch : Label → Bool → Gen Unit}
    (h : ∀ target onTrue, (branch target onTrue).Succeeds) :
    (ExprCode.ofBranch branch).Succeeds := by
  refine ⟨?_, h⟩
  exact succeeds_bind succeeds_fresh fun onFalse => succeeds_bind succeeds_fresh fun _ =>
    succeeds_bind (h onFalse false) fun _ => succeeds_bind (succeeds_emitWith _ _) fun _ =>
    succeeds_bind (succeeds_jump _ _) fun _ => succeeds_bind (succeeds_place _) fun _ =>
    succeeds_bind (succeeds_emitWith _ _) fun _ => succeeds_place _

theorem succeeds_shortCircuit {decisive : Bool} {left right : ExprCode} (hl : left.Succeeds)
    (hr : right.Succeeds) (target : Label) (onTrue : Bool) :
    (shortCircuit decisive left right target onTrue).Succeeds := by
  rw [shortCircuit]
  split
  · exact succeeds_bind (hl.2 _ _) fun _ => hr.2 _ _
  · exact succeeds_bind succeeds_fresh fun _ => succeeds_bind (hl.2 _ _) fun _ =>
      succeeds_bind (hr.2 _ _) fun _ => succeeds_place _

/-- Every operator without arithmetic is a comparison, once the logical ones are set
apart, and every comparison has an opposite. -/
theorem comparison_of_arithmetic_none {op : BinaryOp} (ha : arithmetic? op = none)
    (hand : op ≠ .logicalAnd) (hor : op ≠ .logicalOr) :
    ∃ opcode opposite, comparison? op = some opcode ∧ opcode.negate? = some opposite := by
  cases op <;> simp_all [arithmetic?, comparison?, Opcode.negate?]

theorem succeeds_compareBranch {op : BinaryOp} {opcode opposite : Opcode} {ty : Ty}
    {left right : Gen Unit} (hop : comparison? op = some opcode)
    (hneg : opcode.negate? = some opposite) (hl : left.Succeeds) (hr : right.Succeeds)
    (target : Label) (onTrue : Bool) : (compareBranch op ty left right target onTrue).Succeeds := by
  refine succeeds_bind hl fun _ => succeeds_bind hr fun _ => ?_
  simp only [hop]
  split
  · exact succeeds_jump _ _
  · split
    · exact succeeds_bind succeeds_fresh fun _ => succeeds_bind (succeeds_jump _ _) fun _ =>
        succeeds_bind (succeeds_jump _ _) fun _ => succeeds_place _
    · simp only [hneg]
      exact succeeds_jump _ _

theorem widening_of_widensTo {source target : Ty} (h : source.widensTo target) :
    ∃ opcode, widening? source target = some opcode := by
  cases source <;> cases target <;> simp_all [Ty.widensTo, widening?]

theorem succeeds_pushLong (v : Int64) : (pushLong v).Succeeds := by
  rw [pushLong]
  split
  · exact succeeds_emit _
  · split
    · exact succeeds_emit _
    · exact succeeds_emitWith _ _

theorem succeeds_pushDouble (v : Float) : (pushDouble v).Succeeds := by
  rw [pushDouble]
  split
  · exact succeeds_emit _
  · split
    · exact succeeds_emit _
    · exact succeeds_emitWith _ _

theorem succeeds_pushOne (ty : Ty) : (pushOne ty).Succeeds := by
  rw [pushOne.eq_def]
  split
  · exact succeeds_emit _
  · exact succeeds_emit _
  · exact succeeds_emitWith _ _

theorem succeeds_applyUnary (op : UnaryOp) (ty : Ty) : (applyUnary op ty).Succeeds := by
  cases op
  · exact succeeds_emit _
  · exact succeeds_pure ()
  · exact succeeds_pure ()
  · exact succeeds_bind (succeeds_emitWith _ _) fun _ => succeeds_emit _

theorem succeeds_incrementSlot (op : UpdateOp) (slot : Nat) (used : Bool) :
    (incrementSlot op slot used).Succeeds := by
  exact succeeds_bind (succeeds_emitIf _ _) fun _ => succeeds_bind (succeeds_emitWith _ _) fun _ =>
    succeeds_emitIf _ _

theorem succeeds_incrementField (op : UpdateOp) (ty : Ty) {target : Gen Unit}
    (h : target.Succeeds) (name : String) (used : Bool) :
    (incrementField op ty target name used).Succeeds :=
  succeeds_bind h fun _ => succeeds_bind (succeeds_emit _) fun _ =>
    succeeds_bind (succeeds_emitWith _ _) fun _ =>
    succeeds_bind (succeeds_emitIf _ _) fun _ =>
    succeeds_bind (succeeds_pushOne ty) fun _ => succeeds_bind (succeeds_emit _) fun _ =>
    succeeds_bind (succeeds_emitIf _ _) fun _ =>
    succeeds_emitWith _ _

mutual

theorem succeeds_exprCode {used : Bool} (e : Expr) (h : e.Sound used) :
    (exprCode e).Succeeds := by
  match e with
  | .int _ v | .null _ | .slot _ slot | .new _ className => exact succeeds_ofValue (succeeds_piece _)
  | .long _ v => exact succeeds_ofValue (succeeds_pushLong v)
  | .double _ v => exact succeeds_ofValue (succeeds_pushDouble v)
  | .bool _ v =>
      refine ⟨succeeds_emitWith _ _, fun target onTrue => ?_⟩
      simp only [exprCode]
      split
      · exact succeeds_jump _ _
      · exact succeeds_pure ()
  | .field _ target name =>
      exact succeeds_ofValue
        (succeeds_bind (succeeds_exprCode target h).1 fun _ => succeeds_emitWith _ _)
  | .widen ty inner =>
      obtain ⟨opcode, hop⟩ := widening_of_widensTo h.1
      refine succeeds_ofValue (succeeds_bind (succeeds_exprCode inner h.2).1 fun _ => ?_)
      simp only [hop]
      exact succeeds_emit _
  | .assign _ (.slot slot) value wanted =>
      exact succeeds_ofValue (succeeds_bind (succeeds_exprCode value h.2).1 fun _ =>
        succeeds_bind (succeeds_emitIf _ _) fun _ =>
        succeeds_emitWith _ _)
  | .assign _ (.field target name) value wanted =>
      exact succeeds_ofValue (succeeds_bind (succeeds_exprCode target h.2.1).1 fun _ =>
        succeeds_bind (succeeds_exprCode value h.2.2).1 fun _ =>
        succeeds_bind (succeeds_emitIf _ _) fun _ =>
        succeeds_emitWith _ _)
  | .binary _ op left right =>
      have hl := succeeds_exprCode left h.1
      have hr := succeeds_exprCode right h.2
      rw [exprCode.eq_def]
      simp only
      split
      · exact succeeds_ofBranch (succeeds_shortCircuit hl hr)
      · exact succeeds_ofBranch (succeeds_shortCircuit hl hr)
      · next hand hor =>
          split
          · exact succeeds_ofValue (succeeds_bind hl.1 fun _ => succeeds_bind hr.1 fun _ =>
              succeeds_emit _)
          · next ha =>
              obtain ⟨opcode, opposite, hop, hneg⟩ := comparison_of_arithmetic_none ha hand hor
              exact succeeds_ofBranch (succeeds_compareBranch hop hneg hl.1 hr.1)
  | .unary _ op operand =>
      have ho := succeeds_exprCode operand h
      rw [exprCode.eq_def]
      simp only
      split
      · exact succeeds_ofBranch fun target onTrue => ho.2 target (!onTrue)
      · exact succeeds_ofValue (succeeds_bind ho.1 fun _ => succeeds_applyUnary _ _)
  | .increment _ op (.slot slot) wanted => exact succeeds_ofValue (succeeds_incrementSlot _ _ _)
  | .increment ty op (.field target name) wanted =>
      exact succeeds_ofValue (succeeds_incrementField op ty (succeeds_exprCode target h.2).1 _ _)
  | .call ty name args =>
      exact succeeds_ofValue (succeeds_bind (succeeds_argsCode args h) fun _ =>
        succeeds_emitWith _ _)
termination_by structural e

theorem succeeds_argsCode (es : List Expr) (h : Expr.AllSound es) : (argsCode es).Succeeds := by
  match es with
  | [] => exact succeeds_pure ()
  | e :: rest =>
      exact succeeds_bind (succeeds_exprCode e h.1).1 fun _ => succeeds_argsCode rest h.2
termination_by structural es

end

/-! ## Statements -/

theorem succeeds_enter_bind {T : Targets} {id : Nat} {t : Target} {f : Targets → Gen β}
    (hno : T.lookup id = none) (hf : (f ((id, t) :: T)).Succeeds) :
    (T.enter id t >>= f).Succeeds := by
  intro n
  obtain ⟨b, ps, n', h⟩ := hf n
  exact ⟨b, ps, n', Targets.yields_enter_bind.mpr ⟨hno, h⟩⟩

/-- A construct that was entered can be left. -/
theorem succeeds_leave {T : Targets} {id : Nat} {t : Target} (hno : T.lookup id = none) :
    (Targets.leave ((id, t) :: T) id T).Succeeds := by
  have hrest : T.filter (·.1 != id) = T := by
    refine List.filter_eq_self.mpr fun entry hentry => ?_
    rw [bne_comm]
    exact List.lookup_eq_none_iff.mp hno entry hentry
  exact fun n => ⟨(), [], n, Targets.yields_leave.mpr ⟨by simpa using hrest, rfl, rfl⟩⟩

theorem succeeds_find_bind {T : Targets} {id : Nat} {t : Target} {f : Target → Gen β}
    (ht : T.lookup id = some t) (hf : (f t).Succeeds) : (T.find id >>= f).Succeeds := by
  intro n
  obtain ⟨b, ps, n', h⟩ := hf n
  exact ⟨b, ps, n', Targets.yields_find_bind.mpr ⟨t, ht, h⟩⟩

theorem succeeds_caseTargets {groups : Nat} {cases : List (Int32 × Nat)}
    (h : ∀ c ∈ cases, c.2 < groups) : (caseTargets groups cases).Succeeds :=
  fun _ => ⟨_, _, _, yields_caseTargets.mpr ⟨h, rfl, rfl, rfl⟩⟩

theorem succeeds_dispatchCode (d : Dispatch) (default : Label) (cases : List CaseTarget) :
    (dispatchCode d default cases).Succeeds :=
  fun n => ⟨(), _, n, yields_dispatchCode.mpr ⟨rfl, rfl⟩⟩

theorem succeeds_placeGroup (d : Dispatch) (default : Label) (cases : List CaseTarget)
    (group : Nat) : (placeGroup d default cases group).Succeeds :=
  fun n => ⟨(), _, n, yields_placeGroup.mpr ⟨rfl, rfl⟩⟩

theorem succeeds_catchStretches (count : Nat) : (catchStretches count).Succeeds :=
  fun _ => ⟨_, _, _, yields_catchStretches.mpr ⟨rfl, rfl, rfl⟩⟩

theorem succeeds_value {used : Bool} {e : Expr} (h : e.Sound used) : (value e).Succeeds :=
  (succeeds_exprCode e h).1

theorem succeeds_branch {used : Bool} {e : Expr} (h : e.Sound used) (target : Label)
    (onTrue : Bool) : (branch e target onTrue).Succeeds :=
  (succeeds_exprCode e h).2 target onTrue

theorem succeeds_branchUnless {c : Option Expr} (h : ∀ e ∈ c, e.Sound true) (target : Label) :
    (branchUnless c target).Succeeds := by
  cases c with
  | none => exact succeeds_pure ()
  | some e => exact succeeds_branch (h e rfl) target false

/-- Nothing is wanted of the labels of targets yet. -/
abbrev anyLabel : Label → Prop :=
  fun _ => True

mutual

theorem succeeds_stmt {T : Targets} {R : List Region} {inner : Option Frame} {lo hi : Nat}
    (s : Stmt) (hs : s.Sound inner lo hi) (hfits : Fits T anyLabel R inner lo hi) :
    (stmt T R s).Succeeds := by
  match s with
  | .block body =>
      rw [stmt]
      refine succeeds_statement ?_
      exact succeeds_stmts body hs hfits
  | .localInit slot e =>
      rw [stmt]
      refine succeeds_statement ?_
      exact succeeds_bind (succeeds_value hs.1) fun _ => succeeds_emitWith _ _
  | .expression e discard =>
      rw [stmt]
      refine succeeds_statement ?_
      exact succeeds_bind (succeeds_value hs.1) fun _ => succeeds_emitIf _ _
  | .ifElse c s none =>
      rw [stmt]
      refine succeeds_statement ?_
      exact succeeds_bind succeeds_fresh fun _ =>
        succeeds_bind (succeeds_branch hs.1 _ _) fun _ =>
        succeeds_bind (succeeds_stmt s hs.2 hfits) fun _ => succeeds_place _
  | .ifElse c s (some t) =>
      rw [stmt]
      refine succeeds_statement ?_
      obtain ⟨hc, m, hs, ht⟩ := hs
      exact succeeds_bind succeeds_fresh fun _ =>
        succeeds_bind (succeeds_branch hc _ _) fun _ =>
        succeeds_bind (succeeds_stmt s hs (hfits.part (Nat.le_refl _) ht.le)) fun _ =>
        succeeds_bind succeeds_fresh fun _ => succeeds_bind (succeeds_jump _ _) fun _ =>
        succeeds_bind (succeeds_place _) fun _ =>
        succeeds_bind (succeeds_stmt t ht (hfits.part hs.le (Nat.le_refl _))) fun _ =>
        succeeds_place _
  | .whileLoop j c body =>
      rw [stmt]
      refine succeeds_statement ?_
      obtain ⟨hc, rfl, hbody⟩ := hs
      have hlt := hbody.le
      have hno := hfits.lookup_eq_none (Nat.le_refl _) hlt
      refine succeeds_bind succeeds_fresh fun _ => succeeds_bind succeeds_fresh fun _ =>
        succeeds_bind succeeds_fresh fun _ => succeeds_bind succeeds_fresh fun continueLabel =>
        succeeds_enter_bind hno ?_
      exact succeeds_bind (succeeds_place _) fun _ =>
        succeeds_bind (succeeds_branch hc _ _) fun _ =>
        succeeds_bind (succeeds_stmt body hbody (hfits.enter rfl (Nat.le_refl _) hlt rfl
          (fun _ => trivial) fun _ => ⟨continueLabel, rfl, trivial⟩)) fun _ =>
        succeeds_bind (succeeds_placeIf _ _) fun _ => succeeds_bind (succeeds_jump _ _) fun _ =>
        succeeds_bind (succeeds_placeIf _ _) fun _ => succeeds_bind (succeeds_place _) fun _ =>
        succeeds_leave hno
  | .doLoop j body c =>
      rw [stmt]
      refine succeeds_statement ?_
      obtain ⟨hc, rfl, hbody⟩ := hs
      have hlt := hbody.le
      have hno := hfits.lookup_eq_none (Nat.le_refl _) hlt
      refine succeeds_bind succeeds_fresh fun _ => succeeds_bind succeeds_fresh fun _ =>
        succeeds_bind succeeds_fresh fun continueLabel =>
        succeeds_enter_bind hno ?_
      exact succeeds_bind (succeeds_place _) fun _ =>
        succeeds_bind (succeeds_stmt body hbody (hfits.enter rfl (Nat.le_refl _) hlt rfl
          (fun _ => trivial) fun _ => ⟨continueLabel, rfl, trivial⟩)) fun _ =>
        succeeds_bind (succeeds_placeIf _ _) fun _ =>
        succeeds_bind (succeeds_branch hc _ _) fun _ =>
        succeeds_bind (succeeds_placeIf _ _) fun _ => succeeds_leave hno
  | .forLoop j init c update body =>
      rw [stmt]
      refine succeeds_statement ?_
      obtain ⟨hc, m, hinit, hupdate, hbody⟩ := hs
      have hm := hinit.le
      have hid := hupdate.le
      have hlt := hbody.le
      have hrest := hfits.part hm (Nat.le_refl _)
      have hno := hrest.lookup_eq_none hid hlt
      refine succeeds_bind (succeeds_stmts init hinit (hfits.part (Nat.le_refl _) (by omega)))
        fun _ => succeeds_bind succeeds_fresh fun _ => succeeds_bind succeeds_fresh fun _ =>
        succeeds_bind succeeds_fresh fun _ => succeeds_bind succeeds_fresh fun continueLabel =>
        succeeds_enter_bind hno ?_
      exact succeeds_bind (succeeds_place _) fun _ =>
        succeeds_bind (succeeds_branchUnless hc _) fun _ =>
        succeeds_bind (succeeds_stmt body hbody (hrest.enter rfl hid hlt rfl
          (fun _ => trivial) fun _ => ⟨continueLabel, rfl, trivial⟩)) fun _ =>
        succeeds_bind (succeeds_placeIf _ _) fun _ =>
        succeeds_bind (succeeds_stmts update hupdate (hrest.beside hid hlt)) fun _ =>
        succeeds_bind (succeeds_jump _ _) fun _ =>
        succeeds_bind (succeeds_placeIf _ _) fun _ => succeeds_bind (succeeds_place _) fun _ =>
        succeeds_leave hno
  | .switch id hasBreak e bodies d =>
      rw [stmt]
      refine succeeds_statement ?_
      obtain ⟨he, hd, rfl, hbodies⟩ := hs
      have hlt := hbodies.le
      have hno := hfits.lookup_eq_none (Nat.le_refl _) hlt
      refine succeeds_bind (succeeds_value he) fun _ => succeeds_bind succeeds_fresh fun _ =>
        succeeds_bind succeeds_fresh fun _ =>
        succeeds_enter_bind hno ?_
      exact succeeds_bind (succeeds_caseTargets hd.group_lt) fun _ =>
        succeeds_bind (succeeds_dispatchCode _ _ _) fun _ =>
        succeeds_bind (succeeds_groups bodies (succeeds_placeGroup _ _ _) hbodies
          (hfits.enter rfl (Nat.le_refl _) hlt rfl (fun _ => trivial) nofun)) fun _ =>
        succeeds_bind (succeeds_placeIf _ _) fun _ => succeeds_bind (succeeds_placeIf _ _) fun _ =>
        succeeds_leave hno
  | .tryCatch guarded clauses none =>
      rw [stmt]
      refine succeeds_statement ?_
      obtain ⟨m, hguarded, hclauses⟩ := hs
      have := sizeOf_clauses_pos clauses
      have hcopy : (finallyCopy T R none).Succeeds := by
        rw [finallyCopy]
        exact succeeds_pure ()
      exact succeeds_bind succeeds_label fun _ => succeeds_bind succeeds_label fun _ =>
        succeeds_bind succeeds_label fun _ => succeeds_bind (succeeds_catchStretches _) fun _ =>
        succeeds_bind (succeeds_hold (succeeds_stmts guarded hguarded
          (hfits.part (Nat.le_refl _) hclauses.le).inTry)) fun _ =>
        succeeds_bind (succeeds_hold hcopy) fun _ =>
        succeeds_bind (succeeds_catches none clauses _ hclauses
          (hfits.part hguarded.le (Nat.le_refl _)) hcopy) fun _ => succeeds_piece _
  | .tryCatch guarded clauses (some ⟨slot, body⟩) =>
      rw [stmt]
      refine succeeds_statement ?_
      obtain ⟨m, m', hguarded, hclauses, hbody⟩ := hs
      have := sizeOf_clauses_pos clauses
      have hm := hguarded.le
      have hm' := hclauses.le
      have hin := hfits.inTryFinally (by omega) hbody
      have hlast : (stmts T R body).Succeeds :=
        succeeds_stmts body hbody (hfits.part (by omega) (Nat.le_refl _))
      have hcopy : (finallyCopy T R (some body)).Succeeds := by
        rw [finallyCopy]
        exact hlast
      exact succeeds_bind succeeds_label fun _ => succeeds_bind succeeds_label fun _ =>
        succeeds_bind succeeds_label fun _ => succeeds_bind (succeeds_catchStretches _) fun _ =>
        succeeds_bind (succeeds_hold (succeeds_stmts guarded hguarded
          (hin.part (Nat.le_refl _) hm'))) fun _ =>
        succeeds_bind (succeeds_hold hcopy) fun _ =>
        succeeds_bind (succeeds_catches (some body) clauses _ hclauses
          (hin.part hm (Nat.le_refl _)) hcopy) fun _ =>
        succeeds_bind succeeds_label fun _ => succeeds_bind succeeds_label fun _ =>
        succeeds_bind (succeeds_hold hlast) fun _ => succeeds_piece _
  | .breakJump id =>
      rw [stmt]
      refine succeeds_statement ?_
      obtain ⟨⟨f, hf, rfl, -⟩, -⟩ := hs
      obtain ⟨t, ht, -⟩ := hfits.serves f hf
      exact succeeds_find_bind ht
        (succeeds_bind (succeeds_crossed R t.depth hfits.opens) fun _ => succeeds_jump _ _)
  | .continueJump id =>
      rw [stmt]
      refine succeeds_statement ?_
      obtain ⟨⟨f, hf, rfl, hcont⟩, -⟩ := hs
      obtain ⟨t, ht, -, -, hc⟩ := hfits.serves f hf
      obtain ⟨l, hl, -⟩ := hc hcont
      refine succeeds_find_bind ht ?_
      simp only [hl]
      exact succeeds_bind (succeeds_crossed R t.depth hfits.opens) fun _ => succeeds_jump _ _
  | .throw e =>
      rw [stmt]
      refine succeeds_statement ?_
      exact succeeds_bind (succeeds_value hs.1) fun _ => succeeds_emit _
  | .empty =>
      rw [stmt]
      refine succeeds_statement ?_
      exact succeeds_pure ()
termination_by sizeOf s + sizeOf R

theorem succeeds_stmts {T : Targets} {R : List Region} {inner : Option Frame} {lo hi : Nat}
    (body : List Stmt) (hs : Stmt.AllSound inner lo body hi)
    (hfits : Fits T anyLabel R inner lo hi) : (stmts T R body).Succeeds := by
  match body with
  | [] =>
      rw [stmts]
      exact succeeds_pure ()
  | s :: rest =>
      rw [stmts]
      obtain ⟨m, hs, hrest⟩ := hs
      exact succeeds_bind (succeeds_stmt s hs (hfits.part (Nat.le_refl _) hrest.le)) fun _ =>
        succeeds_stmts rest hrest (hfits.part hs.le (Nat.le_refl _))
termination_by sizeOf body + sizeOf R

theorem succeeds_groups {T : Targets} {R : List Region} {inner : Option Frame} {lo hi : Nat}
    {labels : Nat → Gen Unit} {index : Nat} (bodies : List (List Stmt))
    (hlabels : ∀ i, (labels i).Succeeds) (hs : Stmt.GroupsSound inner lo bodies hi)
    (hfits : Fits T anyLabel R inner lo hi) : (groups T R labels index bodies).Succeeds := by
  match bodies with
  | [] =>
      rw [groups]
      exact succeeds_pure ()
  | body :: rest =>
      rw [groups]
      obtain ⟨m, hbody, hrest⟩ := hs
      exact succeeds_bind (hlabels index) fun _ =>
        succeeds_bind (succeeds_stmts body hbody (hfits.part (Nat.le_refl _) hrest.le)) fun _ =>
        succeeds_groups rest hlabels hrest (hfits.part hbody.le (Nat.le_refl _))
termination_by sizeOf bodies + sizeOf R

theorem succeeds_catches {T : Targets} {R : List Region} {inner : Option Frame} {lo hi : Nat}
    (region : Region) (clauses : List (Catch Stmt)) (stretches : List Stretch)
    (hs : Stmt.ClausesSound inner lo clauses hi)
    (hfits : Fits T anyLabel (clauseRegions R region) inner lo hi)
    (hcopy : (finallyCopy T R region).Succeeds) :
    (catches T R region clauses stretches).Succeeds := by
  match clauses, stretches with
  | ⟨_, _, body⟩ :: rest, stretch :: stretches =>
      rw [catches]
      obtain ⟨m, hbody, hrest⟩ := hs
      have := sizeOf_clauseRegions_le R region
      exact succeeds_bind (succeeds_hold (succeeds_stmts body hbody
          (hfits.part (Nat.le_refl _) hrest.le))) fun _ =>
        succeeds_bind (succeeds_hold hcopy) fun _ =>
        succeeds_bind (succeeds_catches region rest stretches hrest
          (hfits.part hbody.le (Nat.le_refl _)) hcopy) fun _ => succeeds_pure _
  | [], _ =>
      rw [catches]
      · exact succeeds_pure _
      · simp
  | _ :: _, [] =>
      rw [catches]
      · exact succeeds_pure _
      · simp
termination_by sizeOf clauses + sizeOf region + sizeOf R

theorem succeeds_crossed {T : Targets} {hi : Nat} (R : List Region) (depth : Nat)
    (hopens : Opens T anyLabel hi R) : (crossed T depth R).Succeeds := by
  match R with
  | [] =>
      rw [crossed]
      exact succeeds_pure ()
  | none :: R =>
      rw [crossed]
      obtain ⟨hi', hout⟩ := hopens.outside
      split
      · exact succeeds_pure ()
      · exact succeeds_crossed R depth hout
  | some body :: R =>
      rw [crossed]
      obtain ⟨hi', hout⟩ := hopens.outside
      obtain ⟨inner, lo, hi', hbody, hfits⟩ := hopens.fits
      split
      · exact succeeds_pure ()
      · exact succeeds_bind succeeds_label fun _ => succeeds_bind succeeds_label fun _ =>
          succeeds_bind (succeeds_hold (succeeds_stmts body hbody hfits)) fun _ =>
          succeeds_bind (succeeds_piece _) fun _ => succeeds_crossed R depth hout
termination_by sizeOf R

end

end MethodCompiler.Lowering
