import MethodCompiler.Proofs.Checking
import MethodCompiler.Proofs.StackDiscipline

/-!
# Bodies with definite types

Types of fields and calls come with the tree, and a declaration may give any type to a
local, so a body can have a field of type void or say of something that its type is the
one that fits everywhere. Checking also lets a void call stand as an argument. A body is
definite if it does none of that. Its tree then has no void part but calls that are
statements of their own, and so no run of its code wants more values than there are.
-/

namespace MethodCompiler

/-- Whether a type is one that values have. -/
def Ty.IsValue (ty : Ty) : Prop :=
  ty ≠ .void ∧ ty ≠ .any

instance (ty : Ty) : Decidable ty.IsValue :=
  inferInstanceAs (Decidable (_ ∧ _))

namespace Source

/-- Whether an expression is a call without a value. -/
def Expr.isVoidCall : Expr → Bool
  | .call _ _ _ .void => true
  | _ => false

mutual

/-- Fields have values, no type fits everywhere, and arguments are no void calls. -/
def Expr.Definite : Expr → Prop
  | .literal .. | .var .. | .new .. => True
  | .field _ target _ ty => ty.IsValue ∧ target.Definite
  | .assignment _ target value => target.Definite ∧ value.Definite
  | .binary _ _ left right => left.Definite ∧ right.Definite
  | .unary _ _ argument | .update _ _ argument => argument.Definite
  | .call _ _ arguments returns => returns ≠ .any ∧ Expr.AllDefinite arguments
termination_by structural e => e

/-- Arguments that are definite and no void calls. -/
def Expr.AllDefinite : List Expr → Prop
  | [] => True
  | e :: rest => e.isVoidCall = false ∧ e.Definite ∧ Expr.AllDefinite rest
termination_by structural es => es

end

mutual

/-- The expressions and declarations of a statement are definite. -/
def Stmt.Definite : Stmt → Prop
  | .block ⟨_, body⟩ => Stmt.AllDefinite body
  | .localDecl _ _ ty init => ty ≠ .any ∧ ∀ e ∈ init, e.Definite
  | .expression _ e | .throw _ e => e.Definite
  | .ifElse _ c s none => c.Definite ∧ s.Definite
  | .ifElse _ c s (some t) => c.Definite ∧ s.Definite ∧ t.Definite
  | .whileLoop _ c body | .doLoop _ body c => c.Definite ∧ body.Definite
  | .forLoop _ init c update body =>
    Stmt.AllDefinite init ∧ (∀ e ∈ c, e.Definite) ∧ Stmt.AllDefinite update ∧ body.Definite
  | .switch _ selector groups => selector.Definite ∧ Stmt.GroupsDefinite groups
  | .tryCatch _ ⟨_, body⟩ catches none => Stmt.AllDefinite body ∧ Stmt.ClausesDefinite catches
  | .tryCatch _ ⟨_, body⟩ catches (some ⟨_, last⟩) =>
    Stmt.AllDefinite body ∧ Stmt.ClausesDefinite catches ∧ Stmt.AllDefinite last
  | .breakJump _ | .continueJump _ | .empty => True
termination_by structural s => s

/-- The same of statements one after another. -/
def Stmt.AllDefinite : List Stmt → Prop
  | [] => True
  | s :: rest => s.Definite ∧ Stmt.AllDefinite rest
termination_by structural body => body

/-- The same of the groups of a switch. -/
def Stmt.GroupsDefinite : List (Group Stmt) → Prop
  | [] => True
  | ⟨_, body⟩ :: rest => Stmt.AllDefinite body ∧ Stmt.GroupsDefinite rest
termination_by structural groups => groups

/-- The same of the clauses of a try. -/
def Stmt.ClausesDefinite : List (CatchClause Stmt) → Prop
  | [] => True
  | ⟨_, _, _, ⟨_, body⟩⟩ :: rest => Stmt.AllDefinite body ∧ Stmt.ClausesDefinite rest
termination_by structural clauses => clauses

end

end Source

/-! ## Scopes -/

/-- Every local in view has a value. -/
def Scope.Definite (sc : Scope) : Prop :=
  ∀ l ∈ sc.locals, l.ty.IsValue

namespace Scope.Definite

variable {sc sc' : Scope} {name : String} {ty : Ty} {slot : Nat} {l : Local}

theorem enter (h : sc.Definite) : sc.enter.Definite :=
  h

theorem leave (h : sc.Definite) : sc.leave.2.Definite :=
  fun l hl => h l ((List.dropWhile_sublist _).mem hl)

theorem reserve (h : sc.Definite) (hr : sc.reserve = .ok (slot, sc')) : sc'.Definite := by
  rw [Scope.reserve] at hr
  split at hr
  · cases hr
  · obtain ⟨rfl, rfl⟩ := Prod.mk.inj (Except.ok.inj hr)
    exact h

theorem declare (h : sc.Definite) (hty : ty.IsValue) (hd : sc.declare name ty = .ok (slot, sc')) :
    sc'.Definite := by
  rw [Scope.declare] at hd
  split at hd
  · cases hd
  · cases hr : sc.reserve with
    | error e => rw [hr] at hd; cases hd
    | ok r =>
        rw [hr] at hd
        obtain ⟨rfl, rfl⟩ := Prod.mk.inj (Except.ok.inj hd)
        exact List.forall_mem_cons.mpr ⟨hty, h.reserve hr⟩

theorem resolve (h : sc.Definite) (hr : sc.resolve? name = some l) : l.ty.IsValue :=
  h l (List.mem_of_find?_eq_some hr)

end Scope.Definite

/-! ## Expressions -/

namespace Typing

open Annotated (Expr Place)

/-- A call without a value, whose arguments have values. -/
def VoidCall (v : Expr) : Prop :=
  ∃ name args, v = .call .void name args ∧ Expr.AllTypes Ty.IsValue args

theorem widen_types {P : Ty → Prop} {v : Expr} {ty : Ty} (h : v.Types P) (hty : P ty) :
    (widen v ty).Types P := by
  rw [widen]
  split
  · exact ⟨hty, h⟩
  · exact h

theorem isValue_wider {a b : Ty} (ha : a.IsValue) (hb : b.IsValue) : (a.wider b).IsValue := by
  rw [Ty.wider]
  split
  · exact ha
  · exact hb

/-- What may be stored into a place of values has a value itself. -/
theorem Stores.ne_void {v : Expr} {ty : Ty} (h : Stores v ty) (hty : ty.IsValue) : v.ty ≠ .void := by
  intro hvoid
  rw [Stores, hvoid] at h
  obtain ⟨hv, ha⟩ := hty
  revert h hv ha
  cases ty <;> simp [Ty.fits, Ty.widensTo]

theorem IsObject.ne_void {v : Expr} (h : IsObject v) : v.ty ≠ .void := by
  intro hvoid
  rw [IsObject, hvoid] at h
  simp [Ty.isReference] at h

theorem ne_void_of_fits {ty option : Ty} (h : ty.fits option) (hoption : option.IsValue) :
    ty ≠ .void := by
  rintro rfl
  obtain ⟨hv, ha⟩ := hoption
  revert h hv ha
  cases option <;> simp [Ty.fits]

/-- An expression with a value, or a call without one. -/
def Valued (e : Source.Expr) (v : Expr) : Prop :=
  v.Types Ty.IsValue ∨ (e.isVoidCall ∧ VoidCall v)

theorem Valued.types {e : Source.Expr} {v : Expr} (h : Valued e v) (hv : v.ty ≠ .void) :
    v.Types Ty.IsValue := by
  obtain h | ⟨-, name, args, rfl, -⟩ := h
  · exact h
  · exact (hv rfl).elim

theorem Valued.argument {e : Source.Expr} {v : Expr} (h : Valued e v) (he : e.isVoidCall = false) :
    v.Types Ty.IsValue := by
  obtain h | ⟨hcall, -⟩ := h
  · exact h
  · rw [he] at hcall
    cases hcall

theorem binary_types {line : UInt32} {op : BinaryOp} {e e' : Source.Expr} {left right v : Expr}
    (hl : Valued e left) (hr : Valued e' right) (h : (binary line op left right).Gives v) :
    v.Types Ty.IsValue := by
  have hboolean : Ty.boolean.IsValue := by decide
  obtain ⟨-, hfl, hfr, rfl⟩ | ⟨-, -, ⟨-, -, hnl, hnr, -, rfl⟩ | h⟩ := gives_binary_cases h
  · exact ⟨hboolean, hl.types (ne_void_of_fits hfl hboolean),
      hr.types (ne_void_of_fits hfr hboolean)⟩
  · exact ⟨hboolean, hl.types hnl, hr.types hnr⟩
  · have hany : ∀ {e : Source.Expr} {v : Expr}, Valued e v → v.ty ≠ .any := by
      rintro e v (h | ⟨-, name, args, rfl, -⟩)
      · exact (Lowering.types_ty h).2
      · exact nofun
    obtain ⟨hno, -⟩ | ⟨hnl, hnr, rfl⟩ := gives_numeric h
    · exact (hno.elim (hany hl) (hany hr)).elim
    · have hnot : ∀ ty : Ty, ty.isNumeric → ty ≠ .void := by
        rintro _ hn rfl
        cases hn
      have hl := hl.types (hnot _ hnl)
      have hr := hr.types (hnot _ hnr)
      have hw := isValue_wider (Lowering.types_ty hl) (Lowering.types_ty hr)
      refine ⟨?_, widen_types hl hw, widen_types hr hw⟩
      split
      · exact hw
      · exact hboolean

mutual

theorem expr_valued {scope : Scope} (hsc : scope.Definite) {used : Bool} (e : Source.Expr) {v : Expr}
    (he : e.Definite) (h : (expr scope used e).Gives v) : Valued e v := by
  match e with
  | .literal _ value =>
      obtain rfl := Reported.gives_pure.mp h
      refine .inl ?_
      cases value <;> exact ⟨nofun, nofun⟩
  | .var line name =>
      obtain ⟨l, hl, rfl⟩ := gives_var h
      exact .inl (hsc.resolve hl)
  | .field line target name ty =>
      obtain ⟨o, ho, hobject, rfl⟩ := gives_field h
      exact .inl ⟨he.1, (expr_valued hsc target he.2 ho).types hobject.ne_void⟩
  | .assignment line target value =>
      obtain ⟨p, ty, v', hp, hv', hstores, rfl⟩ := gives_assignment h
      obtain ⟨hty, hobject⟩ := place_valued hsc target he.1 hp
      have hvalue := widen_types ((expr_valued hsc value he.2 hv').types (hstores.ne_void hty)) hty
      refine .inl ?_
      cases p with
      | slot slot => exact ⟨hty, hvalue⟩
      | field o name => exact ⟨hty, hobject o name rfl, hvalue⟩
  | .binary line op left right =>
      obtain ⟨a, b, ha, hb, h⟩ := gives_binary h
      exact .inl (binary_types (expr_valued hsc left he.1 ha) (expr_valued hsc right he.2 hb) h)
  | .unary line op argument =>
      obtain ⟨a, ha, ⟨option, hoption, hfits⟩, rfl⟩ := gives_unary h
      have hvalue : option.IsValue := by
        revert hoption
        cases op <;> simp +contextual [unaryOperands, Ty.numeric, Ty.IsValue, or_imp]
      have ha := (expr_valued hsc argument he ha).types (ne_void_of_fits hfits hvalue)
      exact .inl ⟨Lowering.types_ty ha, ha⟩
  | .update line op argument =>
      obtain ⟨p, ty, hp, -, rfl⟩ := gives_update h
      obtain ⟨hty, hobject⟩ := place_valued hsc argument he hp
      refine .inl ?_
      cases p with
      | slot slot => exact hty
      | field o name => exact ⟨hty, hobject o name rfl⟩
  | .call line name arguments returns =>
      obtain ⟨vs, hvs, rfl⟩ := gives_call h
      have hargs := exprs_valued hsc arguments he.2 hvs
      by_cases hvoid : returns = .void
      · subst hvoid
        exact .inr ⟨rfl, name, vs, rfl, hargs⟩
      · exact .inl ⟨⟨hvoid, he.1⟩, hargs⟩
  | .new line className =>
      obtain rfl := Reported.gives_pure.mp h
      exact .inl ⟨nofun, nofun⟩
termination_by structural e

theorem exprs_valued {scope : Scope} (hsc : scope.Definite) (es : List Source.Expr) {vs : List Expr}
    (hes : Source.Expr.AllDefinite es) (h : (exprs scope es).Gives vs) :
    Expr.AllTypes Ty.IsValue vs := by
  match es with
  | [] =>
      obtain rfl := gives_exprs_nil h
      exact trivial
  | e :: rest =>
      obtain ⟨hcall, he, hrest⟩ := hes
      obtain ⟨v, vs', hv, hvs', rfl⟩ := gives_exprs_cons h
      exact ⟨(expr_valued hsc e he hv).argument hcall, exprs_valued hsc rest hrest hvs'⟩
termination_by structural es

theorem place_valued {scope : Scope} (hsc : scope.Definite) {what : String} (e : Source.Expr)
    {p : Place Expr} {ty : Ty} (he : e.Definite) (h : (place scope what e).Gives (some (p, ty))) :
    ty.IsValue ∧ ∀ o name, p = .field o name → o.Types Ty.IsValue := by
  match e with
  | .var line name =>
      obtain ⟨_, _, ⟨⟩, l, hl, rfl, rfl⟩ := gives_place h
      exact ⟨hsc.resolve hl, nofun⟩
  | .field line target name ty' =>
      obtain ⟨_, _, ⟨⟩, o, ho, hobject, rfl, rfl⟩ := gives_place h
      refine ⟨he.1, fun o' name' heq' => ?_⟩
      obtain ⟨rfl, rfl⟩ := Place.field.inj heq'
      exact (expr_valued hsc target he.2 ho).types hobject.ne_void
  | .literal .. | .assignment .. | .binary .. | .unary .. | .update .. | .call .. | .new .. =>
      obtain ⟨_, _, -, hno⟩ := gives_place h
      exact hno.elim
termination_by structural e

end

end Typing

/-! ## Statements -/

namespace Analysis

open Annotated (Stmt Expr Catch)

theorem Tests.types {sc : Scope} (hsc : sc.Definite) {e : Source.Expr} (he : e.Definite) {v : Expr}
    (h : Tests sc e v) : v.Types Ty.IsValue :=
  (Typing.expr_valued hsc e he h.1).types (Typing.ne_void_of_fits h.2 (by decide))

variable {policy : ContinuePolicy}

mutual

/-- The tree of a definite statement has no void part but calls that are statements, and
whatever it declares has a value. -/
theorem Becomes.types (s : Source.Stmt) {st st' : Progress} {t : Stmt}
    (h : Becomes policy s st t st') (hsc : st.scope.Definite) (hs : s.Definite) :
    t.Types Ty.IsValue ∧ st'.scope.Definite := by
  match s with
  | .block ⟨_, body⟩ =>
      obtain ⟨ts, st₁, hts, rfl, rfl⟩ := h
      obtain ⟨htypes, hsc₁⟩ := AllBecome.types body hts hsc.enter hs
      exact ⟨htypes, hsc₁.leave⟩
  | .localDecl _ name ty none =>
      obtain ⟨hvoid, rfl, slot, sc, hslot, rfl⟩ := h
      exact ⟨trivial, hsc.declare ⟨hvoid, hs.1⟩ hslot⟩
  | .localDecl _ name ty (some e) =>
      obtain ⟨hvoid, v, slot, sc, hv, hstores, hslot, rfl, rfl⟩ := h
      have hty : ty.IsValue := ⟨hvoid, hs.1⟩
      have hvalued := (Typing.expr_valued hsc e (hs.2 e rfl) hv).types (hstores.ne_void hty)
      exact ⟨Typing.widen_types hvalued hty, hsc.declare hty hslot⟩
  | .expression _ e =>
      obtain ⟨v, hv, rfl, rfl⟩ := h
      exact ⟨(Typing.expr_valued hsc e hs hv).imp_right And.right, hsc⟩
  | .ifElse _ c s none =>
      obtain ⟨v, t₁, hv, ht₁, rfl⟩ := h
      obtain ⟨htypes, hsc'⟩ := Becomes.types s ht₁ hsc hs.2
      exact ⟨⟨hv.types hsc hs.1, htypes⟩, hsc'⟩
  | .ifElse _ c s (some s') =>
      obtain ⟨v, t₁, st₁, t₂, hv, ht₁, ht₂, rfl⟩ := h
      obtain ⟨htypes₁, hsc₁⟩ := Becomes.types s ht₁ hsc hs.2.1
      obtain ⟨htypes₂, hsc'⟩ := Becomes.types s' ht₂ hsc₁ hs.2.2
      exact ⟨⟨hv.types hsc hs.1, htypes₁, htypes₂⟩, hsc'⟩
  | .whileLoop _ c body =>
      obtain ⟨j, v, t₁, hv, -, ht₁, rfl⟩ := h
      obtain ⟨htypes, hsc'⟩ := Becomes.types body ht₁ hsc hs.2
      exact ⟨⟨hv.types hsc hs.1, htypes⟩, hsc'⟩
  | .doLoop _ body c =>
      obtain ⟨j, v, t₁, -, ht₁, hv, rfl⟩ := h
      obtain ⟨htypes, hsc'⟩ := Becomes.types body ht₁ hsc hs.2
      exact ⟨⟨hv.types hsc' hs.1, htypes⟩, hsc'⟩
  | .forLoop _ init c update body =>
      obtain ⟨j, v, ts₁, st₁, ts₂, st₂, t₁, st₃, hts₁, hv, hts₂, -, ht₁, rfl, rfl⟩ := h
      obtain ⟨hi, hc, hu, hb⟩ := hs
      obtain ⟨htypes₁, hsc₁⟩ := AllBecome.types init hts₁ hsc.enter hi
      obtain ⟨htypes₂, hsc₂⟩ := AllBecome.types update hts₂ hsc₁ hu
      obtain ⟨htypes₃, hsc₃⟩ := Becomes.types body ht₁ hsc₂ hb
      refine ⟨⟨fun e he => ?_, htypes₁, htypes₂, htypes₃⟩, hsc₃.leave⟩
      cases hv with
      | none => cases he
      | some hv =>
          obtain rfl := Option.some.inj he
          exact hv.types hsc₁ (hc _ rfl)
  | .switch _ selector groups =>
      obtain ⟨id, hasBreak, v, labels, bodies, d, hv, hfits, -, -, hbodies, -, rfl⟩ := h
      obtain ⟨htypes, hsc'⟩ := GroupsBecome.types groups hbodies hsc hs.2
      have hselector := (Typing.expr_valued hsc selector hs.1 hv).types
        (Typing.ne_void_of_fits hfits (by decide))
      exact ⟨⟨hselector, htypes⟩, hsc'⟩
  | .breakJump _ =>
      obtain ⟨id, enclosing, -, rfl, rfl⟩ := h
      exact ⟨trivial, hsc⟩
  | .continueJump _ =>
      obtain ⟨⟨id, rfl⟩ | rfl, enclosing, rfl⟩ := h.continueJump <;> exact ⟨trivial, hsc⟩
  | .tryCatch _ ⟨_, body⟩ catches none =>
      obtain ⟨ts, st₁, cs, hts, hcs, rfl⟩ := h
      obtain ⟨htypes₁, hsc₁⟩ := AllBecome.types body hts hsc.enter hs.1
      obtain ⟨htypes₂, hsc'⟩ := ClausesBecome.types catches hcs hsc₁.leave hs.2
      exact ⟨⟨htypes₁, htypes₂⟩, hsc'⟩
  | .tryCatch _ ⟨_, body⟩ catches (some ⟨_, last⟩) =>
      obtain ⟨ts, st₁, cs, st₂, slot, sc, ts', st₃, hts, hcs, hslot, hts', rfl, rfl⟩ := h
      obtain ⟨htypes₁, hsc₁⟩ := AllBecome.types body hts hsc.enter hs.1
      obtain ⟨htypes₂, hsc₂⟩ := ClausesBecome.types catches hcs hsc₁.leave hs.2.1
      obtain ⟨htypes₃, hsc₄⟩ := AllBecome.types last hts' (hsc₂.enter.reserve hslot) hs.2.2
      exact ⟨⟨htypes₁, htypes₂, htypes₃⟩, hsc₄.leave⟩
  | .throw _ e =>
      obtain ⟨v, hv, hobject, rfl, rfl⟩ := h
      exact ⟨(Typing.expr_valued hsc e hs hv).types hobject.ne_void, hsc⟩
  | .empty =>
      obtain ⟨rfl, rfl⟩ := h
      exact ⟨trivial, hsc⟩
termination_by structural s

theorem AllBecome.types (body : List Source.Stmt) {st st' : Progress} {ts : List Stmt}
    (h : AllBecome policy body st ts st') (hsc : st.scope.Definite)
    (hs : Source.Stmt.AllDefinite body) :
    Stmt.AllTypes Ty.IsValue ts ∧ st'.scope.Definite := by
  match body with
  | [] =>
      obtain ⟨rfl, rfl⟩ := h
      exact ⟨trivial, hsc⟩
  | s :: rest =>
      obtain ⟨t, st₁, ts', ht, hts', rfl⟩ := h
      obtain ⟨htypes, hsc₁⟩ := Becomes.types s ht hsc hs.1
      obtain ⟨htypes', hsc'⟩ := AllBecome.types rest hts' hsc₁ hs.2
      exact ⟨⟨htypes, htypes'⟩, hsc'⟩
termination_by structural body

theorem GroupsBecome.types (groups : List (Source.Group Source.Stmt)) {st st' : Progress}
    {bodies : List (List Stmt)} (h : GroupsBecome policy groups st bodies st')
    (hsc : st.scope.Definite) (hs : Source.Stmt.GroupsDefinite groups) :
    Stmt.GroupsTypes Ty.IsValue bodies ∧ st'.scope.Definite := by
  match groups with
  | [] =>
      obtain ⟨rfl, rfl⟩ := h
      exact ⟨trivial, hsc⟩
  | ⟨_, body⟩ :: rest =>
      obtain ⟨ts, st₁, bodies', hts, hbodies', rfl⟩ := h
      obtain ⟨htypes, hsc₁⟩ := AllBecome.types body hts hsc.enter hs.1
      obtain ⟨htypes', hsc'⟩ := GroupsBecome.types rest hbodies' hsc₁.leave hs.2
      exact ⟨⟨htypes, htypes'⟩, hsc'⟩
termination_by structural groups

theorem ClausesBecome.types (clauses : List (Source.CatchClause Source.Stmt)) {st st' : Progress}
    {cs : List (Catch Stmt)} (h : ClausesBecome policy clauses st cs st')
    (hsc : st.scope.Definite) (hs : Source.Stmt.ClausesDefinite clauses) :
    Stmt.ClausesTypes Ty.IsValue cs ∧ st'.scope.Definite := by
  match clauses with
  | [] =>
      obtain ⟨rfl, rfl⟩ := h
      exact ⟨trivial, hsc⟩
  | ⟨_, exceptionType, param, ⟨_, body⟩⟩ :: rest =>
      obtain ⟨slot, sc, ts, st₁, cs', hslot, hts, hcs', rfl⟩ := h
      have hty : (Ty.reference exceptionType).IsValue := ⟨nofun, nofun⟩
      have hsc₁ := hsc.enter.declare hty hslot
      obtain ⟨htypes, hsc₂⟩ := AllBecome.types body hts hsc₁ hs.1
      obtain ⟨htypes', hsc'⟩ := ClausesBecome.types rest hcs' hsc₂.leave hs.2
      exact ⟨⟨htypes, htypes'⟩, hsc'⟩
termination_by structural clauses

end

end Analysis

theorem check_types {settings : Settings} {p : Source.Program} {h : Annotated.Program}
    (hcheck : check settings p = .ok h) (hp : Source.Stmt.AllDefinite p.body) :
    Annotated.Stmt.AllTypes Ty.IsValue h.body := by
  obtain ⟨st, hbody, -⟩ := check_becomes hcheck
  exact (Analysis.AllBecome.types p.body hbody (by simp [Scope.Definite]) hp).1

/-- In the tree of a definite body nothing void stands where a value is wanted, and an expression
that is a statement is to be dropped if and only if its code leaves a value on the stack. The
stack is empty wherever a statement starts, and no run wants a value that is not there. -/
theorem definite_runs {settings : Settings} {p : Source.Program} {h : Annotated.Program}
    (hcheck : check settings p = .ok h) (hp : Source.Stmt.AllDefinite p.body) :
    Annotated.Stmt.AllTypes (· ≠ .void) h.body ∧
      (∀ e discard, .expression e discard ∈ Annotated.Stmt.allParts h.body → ∀ code want height,
        (Lowering.value e).Lifts code want height (if discard then height + 1 else height)) ∧
      ∀ code, generate settings.maxLabels h = .ok code →
        ∃ emission, Lowering.program h 0 = .ok emission ∧ ∃ H : Nat → Nat,
          (∀ pc ∈ Lowering.starts 0 emission.pieces, H pc = 0) ∧
          ∀ (σ : Type) (host : Host σ) (m : Machine σ),
            (∀ pc m', Machine.Reaches host code (0, m.ready code) (pc, m') →
              m'.stack.length = H pc) ∧
            ∀ limit, (m.execute host limit code).1 ≠ .stopped .stackUnderflow := by
  have htypes : Annotated.Stmt.AllTypes (· ≠ .void) h.body :=
    (check_types hcheck hp).mono fun _ hty => hty.1
  obtain ⟨hi, hsound⟩ := check_sound hcheck
  refine ⟨htypes, fun e discard he code want height => ?_, fun code hcode => ?_⟩
  · obtain ⟨inner, lo, hi', ⟨hs, rfl, -⟩, -⟩ := hsound.parts _ he
    exact Lowering.lifts_unused hs (htypes.parts _ he)
  obtain ⟨ds, hds, hassembled, -⟩ := generate_ok hcode
  obtain ⟨ps, n', hyields, rfl⟩ := Lowering.directives_eq_ok_iff.mp hds
  obtain ⟨H, hzero, hH⟩ := Lowering.heights_of_yields hsound htypes hyields hassembled.laid
  refine ⟨⟨(), ps, n'⟩, hyields, H, hH.starts, fun σ host m => ?_⟩
  exact m.runs_at_heights hH hassembled hzero host

/-- A call whose argument is a call, of a type that is given. -/
def nestedCall (inner : Ty) : Source.Program :=
  ⟨[.expression 1 (.call 1 "f" [.call 1 "g" [] inner] .int)]⟩

/-- The tree of the calls. -/
def nestedCallTree (inner : Ty) : Annotated.Program :=
  ⟨[.expression (.call .int "f" [.call inner "g" []]) true], 0⟩

theorem definite_runs_nestedCall :
    check {} (nestedCall .int) = .ok (nestedCallTree .int) ∧
      Source.Stmt.AllDefinite (nestedCall .int).body ∧
      Annotated.Stmt.AllTypes (· ≠ .void) (nestedCallTree .int).body ∧
      ∃ code, generate 4294967295 (nestedCallTree .int) = .ok code ∧
        ∀ (σ : Type) (host : Host σ) (m : Machine σ) (limit : Nat),
          (m.execute host limit code).1 ≠ .stopped .stackUnderflow := by
  have hcheck : check {} (nestedCall .int) = .ok (nestedCallTree .int) := by cbv
  have hp : Source.Stmt.AllDefinite (nestedCall .int).body := by
    simp [nestedCall, Source.Stmt.AllDefinite, Source.Stmt.Definite, Source.Expr.Definite,
      Source.Expr.AllDefinite, Source.Expr.isVoidCall]
  obtain ⟨htypes, -, hruns⟩ := definite_runs hcheck hp
  have hsome : (generate 4294967295 (nestedCallTree .int)).toOption.isSome := by decide +kernel
  refine ⟨hcheck, hp, htypes, ?_⟩
  cases hcode : generate 4294967295 (nestedCallTree .int) with
  | error e => simp [hcode, Except.toOption] at hsome
  | ok code =>
      obtain ⟨_, _, _, _, hlimit⟩ := hruns code hcode
      exact ⟨code, rfl, fun σ host m => (hlimit σ host m).2⟩

/-- A void call is accepted as an argument, and then there is nothing to pass. -/
theorem underflow_of_void_argument :
    check {} (nestedCall .void) = .ok (nestedCallTree .void) ∧
      ¬ Annotated.Stmt.AllTypes (· ≠ .void) (nestedCallTree .void).body ∧
      ∃ code, generate 4294967295 (nestedCallTree .void) = .ok code ∧
        (({ host := Script.empty } : Machine Script).execute Script.host 10 code).1 =
          .stopped .stackUnderflow := by
  have hrun : (generate 4294967295 (nestedCallTree .void)).toOption.map
      (fun code => (({ host := Script.empty } : Machine Script).execute Script.host 10 code).1) =
      some (.stopped .stackUnderflow) := by
    decide +kernel
  refine ⟨by cbv, ?_, ?_⟩
  · simp [nestedCallTree, Annotated.Stmt.AllTypes, Annotated.Stmt.Types, Annotated.Expr.Types,
      Annotated.Expr.AllTypes]
  · cases hcode : generate 4294967295 (nestedCallTree .void) with
    | error e => simp [hcode, Except.toOption] at hrun
    | ok code =>
        rw [hcode] at hrun
        exact ⟨code, rfl, Option.some.inj hrun⟩

end MethodCompiler
