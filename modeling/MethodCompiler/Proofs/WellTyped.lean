import MethodCompiler.Proofs.ExpressionMeaning
import MethodCompiler.Proofs.SwitchTargets
import MethodCompiler.Proofs.TypedTrees

/-!
# Accepted bodies are typed well

The rules of typing, said without the functions that check them: what a typed form of an
expression is in a context that tells the slots and types of the locals in view, and what is
wanted of the expressions of each statement. Checking also has a type that fits everywhere, so
the rules are only kept by a body that declares nothing of that type. Then everything in its
tree has a type the rules give it.

A context changes from one statement to the next as the text says: a declaration adds a local,
and what a block, a clause, a group or a for loop adds is gone after it. The branch of an if and
the body of a while loop are no blocks by themselves.
-/

namespace MethodCompiler

/-! ## Bodies that declare types -/

namespace Source

mutual

/-- The types that field selections and calls in an expression declare are all as wanted. -/
def Expr.Declares (P : Ty → Prop) : Expr → Prop
  | .literal .. | .var .. | .new .. => True
  | .field _ target _ ty => P ty ∧ target.Declares P
  | .assignment _ target value => target.Declares P ∧ value.Declares P
  | .binary _ _ left right => left.Declares P ∧ right.Declares P
  | .unary _ _ argument | .update _ _ argument => argument.Declares P
  | .call _ _ arguments ty => P ty ∧ Expr.AllDeclare P arguments
termination_by structural e => e

/-- The same of arguments. -/
def Expr.AllDeclare (P : Ty → Prop) : List Expr → Prop
  | [] => True
  | e :: rest => e.Declares P ∧ Expr.AllDeclare P rest
termination_by structural es => es

end

/-- The same of a label. -/
def CaseLabel.Declares (P : Ty → Prop) : CaseLabel → Prop
  | .case e => e.Declares P
  | .default => True

mutual

/-- The types that declarations, field selections and calls in a statement declare are all as
wanted. -/
def Stmt.Declares (P : Ty → Prop) : Stmt → Prop
  | .block ⟨_, body⟩ => Stmt.AllDeclare P body
  | .localDecl _ _ ty init => P ty ∧ ∀ e ∈ init, e.Declares P
  | .expression _ e | .throw _ e => e.Declares P
  | .ifElse _ c s none => c.Declares P ∧ s.Declares P
  | .ifElse _ c s (some t) => c.Declares P ∧ s.Declares P ∧ t.Declares P
  | .whileLoop _ c body | .doLoop _ body c => c.Declares P ∧ body.Declares P
  | .forLoop _ init c update body =>
    Stmt.AllDeclare P init ∧ (∀ e ∈ c, e.Declares P) ∧ Stmt.AllDeclare P update ∧ body.Declares P
  | .switch _ selector groups => selector.Declares P ∧ Stmt.GroupsDeclare P groups
  | .tryCatch _ ⟨_, body⟩ catches none => Stmt.AllDeclare P body ∧ Stmt.ClausesDeclare P catches
  | .tryCatch _ ⟨_, body⟩ catches (some ⟨_, last⟩) =>
    Stmt.AllDeclare P body ∧ Stmt.ClausesDeclare P catches ∧ Stmt.AllDeclare P last
  | .breakJump _ | .continueJump _ | .empty => True
termination_by structural s => s

/-- The same of statements one after another. -/
def Stmt.AllDeclare (P : Ty → Prop) : List Stmt → Prop
  | [] => True
  | s :: rest => s.Declares P ∧ Stmt.AllDeclare P rest
termination_by structural body => body

/-- The same of the groups of a switch and their labels. -/
def Stmt.GroupsDeclare (P : Ty → Prop) : List (Group Stmt) → Prop
  | [] => True
  | ⟨labels, body⟩ :: rest =>
    (∀ l ∈ labels, l.Declares P) ∧ Stmt.AllDeclare P body ∧ Stmt.GroupsDeclare P rest
termination_by structural groups => groups

/-- The same of the clauses of a try. -/
def Stmt.ClausesDeclare (P : Ty → Prop) : List (CatchClause Stmt) → Prop
  | [] => True
  | ⟨_, _, _, ⟨_, body⟩⟩ :: rest => Stmt.AllDeclare P body ∧ Stmt.ClausesDeclare P rest
termination_by structural clauses => clauses

end

end Source

/-! ## Contexts -/

/-- The locals in view with their slots and types, newest first, and the next slot. -/
structure Context where
  locals : List (String × Nat × Ty) := []
  next : Nat := 0
deriving DecidableEq, Repr

namespace Context

/-- A local is declared. -/
def bind (Γ : Context) (name : String) (ty : Ty) : Context :=
  ⟨(name, Γ.next, ty) :: Γ.locals, Γ.next + 1⟩

/-- A slot is kept for something without a name. -/
def reserve (Γ : Context) : Context :=
  { Γ with next := Γ.next + 1 }

/-- No local has the type that fits everywhere. -/
def Definite (Γ : Context) : Prop :=
  ∀ l ∈ Γ.locals, l.2.2 ≠ .any

end Context

namespace Source

/-- The context after a statement. -/
def Stmt.context (Γ : Context) : Stmt → Context
  | .localDecl _ name ty _ => Γ.bind name ty
  | .ifElse _ _ s none => s.context Γ
  | .ifElse _ _ s (some t) => t.context (s.context Γ)
  | .whileLoop _ _ body | .doLoop _ body _ => body.context Γ
  | _ => Γ
termination_by structural s => s

/-- The context after statements. -/
def Stmt.contextAfter (Γ : Context) (body : List Stmt) : Context :=
  body.foldl (fun Γ s => s.context Γ) Γ

mutual

/-- The statements of a statement, in the order of `parts`, each with its context. -/
def Stmt.scoped (Γ : Context) (s : Stmt) : List (Context × Stmt) :=
  (Γ, s) :: match s with
  | .block ⟨_, body⟩ => Stmt.allScoped Γ body
  | .ifElse _ _ s none => s.scoped Γ
  | .ifElse _ _ s (some t) => s.scoped Γ ++ t.scoped (s.context Γ)
  | .whileLoop _ _ body | .doLoop _ body _ => body.scoped Γ
  | .forLoop _ init _ update body =>
    Stmt.allScoped Γ init ++ Stmt.allScoped (Stmt.contextAfter Γ init) update ++
      body.scoped (Stmt.contextAfter (Stmt.contextAfter Γ init) update)
  | .switch _ _ groups => Stmt.groupsScoped Γ groups
  | .tryCatch _ ⟨_, body⟩ catches none => Stmt.allScoped Γ body ++ Stmt.clausesScoped Γ catches
  | .tryCatch _ ⟨_, body⟩ catches (some ⟨_, last⟩) =>
    Stmt.allScoped Γ body ++ Stmt.clausesScoped Γ catches ++ Stmt.allScoped Γ.reserve last
  | .localDecl .. | .expression .. | .breakJump _ | .continueJump _ | .throw .. | .empty => []
termination_by structural s

def Stmt.allScoped (Γ : Context) (body : List Stmt) : List (Context × Stmt) :=
  match body with
  | [] => []
  | s :: rest => s.scoped Γ ++ Stmt.allScoped (s.context Γ) rest
termination_by structural body

def Stmt.groupsScoped (Γ : Context) (groups : List (Group Stmt)) : List (Context × Stmt) :=
  match groups with
  | [] => []
  | ⟨_, body⟩ :: rest => Stmt.allScoped Γ body ++ Stmt.groupsScoped Γ rest
termination_by structural groups

def Stmt.clausesScoped (Γ : Context) (clauses : List (CatchClause Stmt)) : List (Context × Stmt) :=
  match clauses with
  | [] => []
  | ⟨_, exceptionType, param, ⟨_, body⟩⟩ :: rest =>
    Stmt.allScoped (Γ.bind param (.reference exceptionType)) body ++ Stmt.clausesScoped Γ rest
termination_by structural clauses

end

end Source

/-! ## The rules -/

/-- A value of the first type may be kept in a place of the second as it is. -/
def Ty.Matches (found place : Ty) : Prop :=
  found = place ∨ (found.isReference ∧ place.isReference)

namespace Typing

open Annotated (Expr Place)

/-- A value as it is stored into a place. -/
def StoredAs (ty : Ty) (v w : Expr) : Prop :=
  (v.ty.Matches ty ∧ w = v) ∨ (v.ty.widensTo ty ∧ w = .widen ty v)

/-- A number brought to a type. -/
def BroughtTo (ty : Ty) (v w : Expr) : Prop :=
  (v.ty = ty ∧ w = v) ∨ (v.ty.widensTo ty ∧ w = .widen ty v)

/-- Two numbers brought to the type of one of them. -/
structure Operands (ty : Ty) (left right left' right' : Expr) : Prop where
  numeric : ty.isNumeric
  common : ty = left.ty ∨ ty = right.ty
  left : BroughtTo ty left left'
  right : BroughtTo ty right right'

mutual

/-- The typed form of an expression. -/
inductive Typed (Γ : Context) : Source.Expr → Expr → Prop
  | int {line : UInt32} {n : Int32} : Typed Γ (.literal line (.int n)) (.int .int n)
  | long {line : UInt32} {n : Int64} : Typed Γ (.literal line (.long n)) (.long .long n)
  | double {line : UInt32} {x : Float} : Typed Γ (.literal line (.double x)) (.double .double x)
  | bool {line : UInt32} {b : Bool} : Typed Γ (.literal line (.boolean b)) (.bool .boolean b)
  | null {line : UInt32} : Typed Γ (.literal line .null) (.null .null)
  | var {line : UInt32} {name : String} {slot : Nat} {ty : Ty}
      (h : Γ.locals.lookup name = some (slot, ty)) : Typed Γ (.var line name) (.slot ty slot)
  | field {line : UInt32} {target : Source.Expr} {name : String} {ty : Ty} {o : Expr}
      (ho : Typed Γ target o) (hobject : o.ty.isReference) :
      Typed Γ (.field line target name ty) (.field ty o name)
  | assign {line : UInt32} {target value : Source.Expr} {p : Place Expr} {ty : Ty} {v w : Expr}
      {used : Bool} (hp : TypedPlace Γ target p ty) (hv : Typed Γ value v) (hw : StoredAs ty v w) :
      Typed Γ (.assignment line target value) (.assign ty p w used)
  | logical {line : UInt32} {op : BinaryOp} {left right : Source.Expr} {a b : Expr}
      (hop : op = .logicalAnd ∨ op = .logicalOr) (ha : Typed Γ left a) (hb : Typed Γ right b)
      (hleft : a.ty = .boolean) (hright : b.ty = .boolean) :
      Typed Γ (.binary line op left right) (.binary .boolean op a b)
  | arithmetic {line : UInt32} {op : BinaryOp} {left right : Source.Expr} {a b a' b' : Expr}
      {ty : Ty} (hop : op.isArithmetic) (ha : Typed Γ left a) (hb : Typed Γ right b)
      (h : Operands ty a b a' b') : Typed Γ (.binary line op left right) (.binary ty op a' b')
  | comparison {line : UInt32} {op : BinaryOp} {left right : Source.Expr} {a b a' b' : Expr}
      {ty : Ty} (hop : op.isRelational ∨ op = .equal ∨ op = .notEqual) (ha : Typed Γ left a)
      (hb : Typed Γ right b) (h : Operands ty a b a' b') :
      Typed Γ (.binary line op left right) (.binary .boolean op a' b')
  | equality {line : UInt32} {op : BinaryOp} {left right : Source.Expr} {a b : Expr}
      (hop : op = .equal ∨ op = .notEqual) (ha : Typed Γ left a) (hb : Typed Γ right b)
      (hmatch : a.ty.Matches b.ty) (hnumber : a.ty.isNumeric = false) (hvoid : a.ty ≠ .void) :
      Typed Γ (.binary line op left right) (.binary .boolean op a b)
  | sign {line : UInt32} {op : UnaryOp} {argument : Source.Expr} {a : Expr}
      (hop : op = .minus ∨ op = .plus) (ha : Typed Γ argument a) (hty : a.ty.isNumeric) :
      Typed Γ (.unary line op argument) (.unary a.ty op a)
  | complement {line : UInt32} {argument : Source.Expr} {a : Expr} (ha : Typed Γ argument a)
      (hty : a.ty = .int ∨ a.ty = .long) :
      Typed Γ (.unary line .bitwiseNot argument) (.unary a.ty .bitwiseNot a)
  | negation {line : UInt32} {argument : Source.Expr} {a : Expr} (ha : Typed Γ argument a)
      (hty : a.ty = .boolean) :
      Typed Γ (.unary line .logicalNot argument) (.unary .boolean .logicalNot a)
  | step {line : UInt32} {op : UpdateOp} {target : Source.Expr} {p : Place Expr} {ty : Ty}
      {used : Bool} (hp : TypedPlace Γ target p ty) (hty : ty.isNumeric) :
      Typed Γ (.update line op target) (.increment ty op p used)
  | call {line : UInt32} {name : String} {args : List Source.Expr} {ty : Ty} {vs : List Expr}
      (hargs : AllTyped Γ args vs) : Typed Γ (.call line name args ty) (.call ty name vs)
  | new {line : UInt32} {className : String} :
      Typed Γ (.new line className) (.new (.reference className) className)

/-- The typed forms of arguments. -/
inductive AllTyped (Γ : Context) : List Source.Expr → List Expr → Prop
  | nil : AllTyped Γ [] []
  | cons {e : Source.Expr} {rest : List Source.Expr} {v : Expr} {vs : List Expr} (h : Typed Γ e v)
      (hrest : AllTyped Γ rest vs) : AllTyped Γ (e :: rest) (v :: vs)

/-- A place and the type of what it holds. -/
inductive TypedPlace (Γ : Context) : Source.Expr → Place Expr → Ty → Prop
  | slot {line : UInt32} {name : String} {slot : Nat} {ty : Ty}
      (h : Γ.locals.lookup name = some (slot, ty)) : TypedPlace Γ (.var line name) (.slot slot) ty
  | field {line : UInt32} {target : Source.Expr} {name : String} {ty : Ty} {o : Expr}
      (ho : Typed Γ target o) (hobject : o.ty.isReference) :
      TypedPlace Γ (.field line target name ty) (.field o name) ty

end

/-- The typed form of a condition. -/
def Tested (Γ : Context) (e : Source.Expr) (v : Expr) : Prop :=
  Typed Γ e v ∧ v.ty = .boolean

/-- A case label is a constant int. -/
def CaseTyped (Γ : Context) (e : Source.Expr) : Prop :=
  e.constant?.isSome ∧ ∃ v, Typed Γ e v ∧ v.ty = .int

end Typing

namespace Analysis

open Annotated (Stmt)
open Typing

/-- A statement and its tree, whose expressions are typed forms and as the statement wants them.
Statements inside are left out. A value that is declared, caught or in flight is in the next
slot. -/
def WellTyped (Γ : Context) (s : Source.Stmt) (t : Stmt) : Prop :=
  match s with
  | .block _ => ∃ ts, t = .block ts
  | .localDecl _ _ _ none => t = .empty
  | .localDecl _ _ ty (some e) =>
    ∃ v w, Typed Γ e v ∧ StoredAs ty v w ∧ t = .localInit Γ.next w
  | .expression _ e => ∃ v discard, Typed Γ e v ∧ t = .expression v discard
  | .ifElse _ c _ _ => ∃ v t₁ t₂, Tested Γ c v ∧ t = .ifElse v t₁ t₂
  | .whileLoop _ c _ => ∃ j v t₁, Tested Γ c v ∧ t = .whileLoop j v t₁
  | .doLoop _ body c => ∃ j v t₁, Tested (body.context Γ) c v ∧ t = .doLoop j t₁ v
  | .forLoop _ init c _ _ => ∃ j ts₁ v ts₂ t₁,
      Option.Rel (Tested (Source.Stmt.contextAfter Γ init)) c v ∧ t = .forLoop j ts₁ v ts₂ t₁
  | .switch _ selector groups => ∃ id hasBreak v bodies d, Typed Γ selector v ∧ v.ty = .int ∧
      (∀ group ∈ groups, ∀ e, .case e ∈ group.labels → CaseTyped Γ e) ∧
      (∀ key g, (key, g) ∈ d.cases ↔ Source.HasCase groups key g) ∧
      t = .switch id hasBreak v bodies d
  | .breakJump _ => ∃ id, t = .breakJump id
  | .continueJump _ => (∃ id, t = .continueJump id) ∨ t = .empty
  | .tryCatch _ _ catches _ => ∃ ts cs f, t = .tryCatch ts cs f ∧
      List.Forall₂ (fun c c' => c'.exceptionType = c.exceptionType ∧ c'.slot = Γ.next) catches cs ∧
      ∀ f' ∈ f, f'.slot = Γ.next
  | .throw _ e => ∃ v, Typed Γ e v ∧ v.ty.isReference ∧ t = .throw v
  | .empty => t = .empty

end Analysis

/-- An expression of a tree has a type, and it is the one that what is right inside makes it. Of
a local and of what a call returns it is the declared one. -/
def Annotated.Expr.TypedByRule (e : Expr) : Prop :=
  e.ty ≠ .any ∧ match e with
  | .int ty _ => ty = .int
  | .long ty _ => ty = .long
  | .double ty _ => ty = .double
  | .bool ty _ => ty = .boolean
  | .null ty => ty = .null
  | .new ty className => ty = .reference className
  | .slot .. | .call .. => True
  | .field _ target _ => target.ty.isReference
  | .widen ty inner => (inner.ty = .int ∧ ty = .long) ∨ (inner.ty = .int ∧ ty = .double) ∨
      (inner.ty = .long ∧ ty = .double)
  | .assign ty (.slot _) value _ => value.ty.Matches ty
  | .assign ty (.field target _) value _ => target.ty.isReference ∧ value.ty.Matches ty
  | .binary ty op left right =>
    match op with
    | .logicalAnd | .logicalOr => ty = .boolean ∧ left.ty = .boolean ∧ right.ty = .boolean
    | .equal | .notEqual => ty = .boolean ∧ left.ty.Matches right.ty ∧ left.ty ≠ .void
    | .lessThan | .lessThanEqual | .greaterThan | .greaterThanEqual =>
      ty = .boolean ∧ left.ty.isNumeric ∧ right.ty = left.ty
    | .add | .subtract | .multiply | .divide | .modulo =>
      ty.isNumeric ∧ left.ty = ty ∧ right.ty = ty
  | .unary ty op operand =>
    match op with
    | .minus | .plus => ty.isNumeric ∧ operand.ty = ty
    | .bitwiseNot => (ty = .int ∨ ty = .long) ∧ operand.ty = ty
    | .logicalNot => ty = .boolean ∧ operand.ty = .boolean
  | .increment ty _ (.slot _) _ => ty.isNumeric
  | .increment ty _ (.field target _) _ => target.ty.isReference ∧ ty.isNumeric
  | .error _ => False

/-! ## Types of nodes -/

namespace Ty

variable {ty found expected : Ty}

theorem ne_any_of_isNumeric (h : ty.isNumeric) : ty ≠ .any := by
  rintro rfl
  cases h

theorem widensTo_cases (h : found.widensTo expected) :
    (found = .int ∧ expected = .long) ∨ (found = .int ∧ expected = .double) ∨
      (found = .long ∧ expected = .double) := by
  revert h
  cases found <;> cases expected <;> simp [widensTo]

theorem ne_any_of_widensTo (h : found.widensTo expected) : expected ≠ .any := by
  rintro rfl
  cases found <;> cases h

theorem matches_of_fits (h : found.fits expected) (hf : found ≠ .any) (he : expected ≠ .any) :
    found.Matches expected := by
  cases found <;> cases expected <;>
    first | exact .inl rfl | exact .inr ⟨rfl, rfl⟩ | contradiction

/-- What fits a type of numbers or truth values has that type. -/
theorem eq_of_fits (h : found.fits expected) (hf : found ≠ .any)
    (he : expected.isNumeric ∨ expected = .boolean) : found = expected := by
  have hany : expected ≠ .any := by
    rintro rfl
    simp [isNumeric] at he
  obtain h | ⟨-, href⟩ := matches_of_fits h hf hany
  · exact h
  · revert he href
    cases expected <;> simp [isNumeric, isReference]

end Ty

theorem Context.Definite.lookup {Γ : Context} (hΓ : Γ.Definite) {name : String} {slot : Nat}
    {ty : Ty} (h : Γ.locals.lookup name = some (slot, ty)) : ty ≠ .any := by
  obtain ⟨l₁, l₂, hlocals, -⟩ := List.lookup_eq_some_iff.mp h
  exact hΓ (name, slot, ty) (by rw [hlocals]; simp)

namespace Typing

open Annotated (Expr Place)

theorem BroughtTo.ty_eq {ty : Ty} {v w : Expr} (h : BroughtTo ty v w) : w.ty = ty := by
  obtain ⟨h, rfl⟩ | ⟨-, rfl⟩ := h
  · exact h
  · rfl

theorem BroughtTo.storedAs {ty : Ty} {v w : Expr} (h : BroughtTo ty v w) : StoredAs ty v w :=
  h.imp_left fun h => ⟨.inl h.1, h.2⟩

theorem StoredAs.matches_ty {ty : Ty} {v w : Expr} (h : StoredAs ty v w) : w.ty.Matches ty := by
  obtain ⟨h, rfl⟩ | ⟨-, rfl⟩ := h
  · exact h
  · exact .inl rfl

/-- A conversion follows the rules if what is converted does. -/
theorem StoredAs.parts {ty : Ty} {v w : Expr} (h : StoredAs ty v w)
    (hv : ∀ x ∈ v.parts, x.TypedByRule) : ∀ x ∈ w.parts, x.TypedByRule := by
  obtain ⟨-, rfl⟩ | ⟨h, rfl⟩ := h
  · exact hv
  · exact List.forall_mem_cons.mpr ⟨⟨Ty.ne_any_of_widensTo h, Ty.widensTo_cases h⟩, hv⟩

theorem typedByRule_arithmetic {op : BinaryOp} {ty : Ty} {a b a' b' : Expr}
    (hop : op.isArithmetic) (h : Operands ty a b a' b') :
    (Expr.binary ty op a' b').TypedByRule := by
  refine ⟨Ty.ne_any_of_isNumeric h.numeric, ?_⟩
  cases op <;> first | exact ⟨h.numeric, h.left.ty_eq, h.right.ty_eq⟩ | cases hop

theorem typedByRule_comparison {op : BinaryOp} {ty : Ty} {a b a' b' : Expr}
    (hop : op.isRelational ∨ op = .equal ∨ op = .notEqual) (h : Operands ty a b a' b') :
    (Expr.binary .boolean op a' b').TypedByRule := by
  have hsame : b'.ty = a'.ty := by rw [h.left.ty_eq, h.right.ty_eq]
  have hnumeric : a'.ty.isNumeric := by
    rw [h.left.ty_eq]
    exact h.numeric
  have hvoid : a'.ty ≠ .void := by
    intro hvoid
    rw [hvoid] at hnumeric
    cases hnumeric
  refine ⟨by simp [Expr.ty], ?_⟩
  obtain hop | rfl | rfl := hop
  · cases op <;> first | exact ⟨rfl, hnumeric, hsame⟩ | cases hop
  · exact ⟨rfl, .inl hsame.symm, hvoid⟩
  · exact ⟨rfl, .inl hsame.symm, hvoid⟩

section Rules

variable {Γ : Context} {e : Source.Expr} {v : Expr} {p : Place Expr} {ty : Ty}

theorem TypedPlace.ne_any (hΓ : Γ.Definite) (h : TypedPlace Γ e p ty)
    (he : e.Declares (· ≠ .any)) : ty ≠ .any := by
  cases h with
  | slot h => exact hΓ.lookup h
  | field => exact he.1

/-- Nothing has the type that fits everywhere unless something is declared with it. -/
theorem Typed.ne_any (hΓ : Γ.Definite) (h : Typed Γ e v) (he : e.Declares (· ≠ .any)) :
    v.ty ≠ .any := by
  cases h with
  | int | long | double | bool | null | new | logical | comparison | equality | negation =>
      intro hany
      cases hany
  | var h => exact hΓ.lookup h
  | field | call => exact he.1
  | assign hp => exact hp.ne_any hΓ he.1
  | step _ hty => exact Ty.ne_any_of_isNumeric hty
  | arithmetic _ _ _ h => exact Ty.ne_any_of_isNumeric h.numeric
  | sign _ _ hty => exact Ty.ne_any_of_isNumeric hty
  | complement _ hty =>
      intro hany
      obtain h | h := hty <;> cases h.symm.trans hany

mutual

/-- All parts of a typed form follow the rules. -/
theorem Typed.parts (hΓ : Γ.Definite) {e : Source.Expr} {v : Expr} (h : Typed Γ e v)
    (he : e.Declares (· ≠ .any)) : ∀ x ∈ v.parts, x.TypedByRule := by
  have hany := h.ne_any hΓ he
  match h with
  | .int | .long | .double | .bool | .null | .new =>
      exact List.forall_mem_singleton.mpr ⟨hany, rfl⟩
  | .var _ => exact List.forall_mem_singleton.mpr ⟨hany, trivial⟩
  | .field ho hobject =>
      exact List.forall_mem_cons.mpr ⟨⟨hany, hobject⟩, Typed.parts hΓ ho he.2⟩
  | .assign hp hv hw =>
      have hvalue := hw.parts (Typed.parts hΓ hv he.2)
      match hp with
      | .slot _ => exact List.forall_mem_cons.mpr ⟨⟨hany, hw.matches_ty⟩, hvalue⟩
      | .field ho hobject =>
          exact List.forall_mem_cons.mpr ⟨⟨hany, hobject, hw.matches_ty⟩,
            List.forall_mem_append.mpr ⟨Typed.parts hΓ ho he.1.2, hvalue⟩⟩
  | .logical hop ha hb hleft hright =>
      refine List.forall_mem_cons.mpr ⟨⟨hany, ?_⟩, List.forall_mem_append.mpr
        ⟨Typed.parts hΓ ha he.1, Typed.parts hΓ hb he.2⟩⟩
      obtain rfl | rfl := hop <;> exact ⟨rfl, hleft, hright⟩
  | .arithmetic hop ha hb h =>
      exact List.forall_mem_cons.mpr ⟨typedByRule_arithmetic hop h, List.forall_mem_append.mpr
        ⟨h.left.storedAs.parts (Typed.parts hΓ ha he.1),
          h.right.storedAs.parts (Typed.parts hΓ hb he.2)⟩⟩
  | .comparison hop ha hb h =>
      exact List.forall_mem_cons.mpr ⟨typedByRule_comparison hop h, List.forall_mem_append.mpr
        ⟨h.left.storedAs.parts (Typed.parts hΓ ha he.1),
          h.right.storedAs.parts (Typed.parts hΓ hb he.2)⟩⟩
  | .equality hop ha hb hmatch _ hvoid =>
      refine List.forall_mem_cons.mpr ⟨⟨hany, ?_⟩, List.forall_mem_append.mpr
        ⟨Typed.parts hΓ ha he.1, Typed.parts hΓ hb he.2⟩⟩
      obtain rfl | rfl := hop <;> exact ⟨rfl, hmatch, hvoid⟩
  | .sign hop ha hty =>
      refine List.forall_mem_cons.mpr ⟨⟨hany, ?_⟩, Typed.parts hΓ ha he⟩
      obtain rfl | rfl := hop <;> exact ⟨hty, rfl⟩
  | .complement ha hty =>
      exact List.forall_mem_cons.mpr ⟨⟨hany, hty, rfl⟩, Typed.parts hΓ ha he⟩
  | .negation ha hty =>
      exact List.forall_mem_cons.mpr ⟨⟨hany, rfl, hty⟩, Typed.parts hΓ ha he⟩
  | .step hp hty =>
      match hp with
      | .slot _ => exact List.forall_mem_singleton.mpr ⟨hany, hty⟩
      | .field ho hobject =>
          exact List.forall_mem_cons.mpr ⟨⟨hany, hobject, hty⟩, Typed.parts hΓ ho he.2⟩
  | .call hargs => exact List.forall_mem_cons.mpr ⟨⟨hany, trivial⟩, AllTyped.parts hΓ hargs he.2⟩
termination_by structural h

theorem AllTyped.parts (hΓ : Γ.Definite) {es : List Source.Expr} {vs : List Expr}
    (h : AllTyped Γ es vs) (hes : Source.Expr.AllDeclare (· ≠ .any) es) :
    ∀ x ∈ Expr.allParts vs, x.TypedByRule := by
  match h with
  | .nil =>
      intro x hx
      cases hx
  | .cons h hrest =>
      exact List.forall_mem_append.mpr ⟨Typed.parts hΓ h hes.1, AllTyped.parts hΓ hrest hes.2⟩
termination_by structural h

end

end Rules

end Typing

/-! ## Scopes and contexts -/

/-- A scope has the locals and the next slot of a context, and no local of a scope inside. -/
structure Scope.Shows (sc : Scope) (Γ : Context) : Prop where
  locals : Γ.locals = sc.locals.map fun l => (l.name, l.slot, l.ty)
  next : Γ.next = sc.nextSlot
  depth : ∀ l ∈ sc.locals, l.depth ≤ sc.depth
  definite : Γ.Definite

namespace Scope.Shows

variable {sc sc' sc₁ : Scope} {Γ : Context} {name : String} {ty : Ty} {slot : Nat}

theorem enter (h : sc.Shows Γ) : sc.enter.Shows Γ :=
  ⟨h.locals, h.next, fun l hl => Nat.le_succ_of_le (h.depth l hl), h.definite⟩

theorem leave (h : sc.Shows Γ) (hin : sc.enter.Extends sc₁) :
    sc₁.leave.2.Shows Γ ∧ sc.Extends sc₁.leave.2 := by
  obtain ⟨hlocals, hnext, hext⟩ := hin.leave h.depth
  refine ⟨⟨?_, ?_, ?_, h.definite⟩, hext⟩
  · rw [hlocals]
    exact h.locals
  · rw [hnext]
    exact h.next
  · rw [hlocals, hext.depth]
    exact h.depth

theorem reserve (h : sc.Shows Γ) (hr : sc.reserve = .ok (slot, sc')) :
    slot = Γ.next ∧ sc'.Shows Γ.reserve ∧ sc.Extends sc' := by
  obtain ⟨rfl, rfl⟩ := Scope.reserve_ok hr
  exact ⟨h.next.symm, ⟨h.locals, congrArg (· + 1) h.next, h.depth, h.definite⟩, rfl, rfl, [], rfl,
    by simp⟩

theorem declare (h : sc.Shows Γ) (hd : sc.declare name ty = .ok (slot, sc')) (hty : ty ≠ .any) :
    slot = Γ.next ∧ sc'.Shows (Γ.bind name ty) ∧ sc.Extends sc' := by
  obtain ⟨sc₁, hr, rfl⟩ := Scope.declare_ok hd
  obtain ⟨rfl, hin, hext⟩ := h.reserve hr
  refine ⟨rfl, ⟨?_, hin.next, ?_, ?_⟩, hext.trans ⟨rfl, rfl, [_], rfl, by simp⟩⟩
  · exact congrArg _ hin.locals
  · exact List.forall_mem_cons.mpr ⟨Nat.le_refl _, hin.depth⟩
  · exact List.forall_mem_cons.mpr ⟨hty, h.definite⟩

theorem resolve {l : Local} (h : sc.Shows Γ) (hl : sc.resolve? name = some l) :
    Γ.locals.lookup name = some (l.slot, l.ty) := by
  rw [h.locals]
  rw [Scope.resolve?] at hl
  generalize sc.locals = locals at hl
  induction locals with
  | nil => cases hl
  | cons l' rest ih =>
      rw [List.find?_cons] at hl
      rw [List.map_cons, List.lookup_cons]
      by_cases hname : l'.name = name
      · simp only [hname, decide_true] at hl
        obtain rfl := Option.some.inj hl
        rw [hname, beq_self_eq_true]
      · simp only [hname, decide_false] at hl
        rw [beq_false_of_ne (Ne.symm hname)]
        exact ih hl

end Scope.Shows

/-! ## Checked expressions -/

namespace Typing

open Annotated (Expr Place)

theorem IsObject.isReference {v : Expr} (h : IsObject v) (hv : v.ty ≠ .any) : v.ty.isReference :=
  h.resolve_right hv

theorem Stores.storedAs {v : Expr} {ty : Ty} (h : Stores v ty) (hv : v.ty ≠ .any)
    (hty : ty ≠ .any) : StoredAs ty v (widen v ty) := by
  rw [widen]
  obtain h | h := h
  · rw [if_neg (by simp [not_widensTo_of_fits h])]
    exact .inl ⟨Ty.matches_of_fits h hv hty, rfl⟩
  · rw [if_pos h]
    exact .inr ⟨h, rfl⟩

/-- Two numbers are brought to the wider of their types. -/
theorem operands_wider {a b : Expr} (ha : a.ty.isNumeric) (hb : b.ty.isNumeric) :
    Operands (a.ty.wider b.ty) a b (widen a (a.ty.wider b.ty)) (widen b (a.ty.wider b.ty)) := by
  have hbrought : ∀ {v : Expr} {ty : Ty}, v.ty = ty ∨ v.ty.widensTo ty →
      BroughtTo ty v (widen v ty) := by
    intro v ty h
    rw [widen]
    by_cases hw : v.ty.widensTo ty
    · rw [if_pos hw]
      exact .inr ⟨hw, rfl⟩
    · rw [if_neg hw]
      exact .inl ⟨h.resolve_right hw, rfl⟩
  refine ⟨Ty.isNumeric_wider ha hb, ?_, hbrought ?_, hbrought ?_⟩ <;>
    revert ha hb <;> cases a.ty <;> cases b.ty <;>
    simp [Ty.isNumeric, Ty.wider, Ty.rank, Ty.widensTo]

section Gives

variable {sc : Scope} {Γ : Context}

theorem typed_binary {line : UInt32} {op : BinaryOp} {left right : Source.Expr} {a b v : Expr}
    (ha : Typed Γ left a) (hb : Typed Γ right b) (hleft : a.ty ≠ .any) (hright : b.ty ≠ .any)
    (h : (binary line op a b).Gives v) : Typed Γ (.binary line op left right) v := by
  obtain ⟨hop, hl, hr, rfl⟩ | ⟨hand, hor, ⟨hop, hfits, hvoid, -, hnumbers, rfl⟩ | h⟩ :=
    gives_binary_cases h
  · exact .logical hop ha hb (Ty.eq_of_fits hl hleft (.inr rfl))
      (Ty.eq_of_fits hr hright (.inr rfl))
  · have hmatch := Ty.matches_of_fits hfits hleft hright
    refine .equality hop ha hb hmatch ?_ hvoid
    rw [← Bool.not_eq_true]
    intro hnumeric
    -- A number matches only its own type, and two numbers were brought to one type.
    obtain heq | ⟨href, -⟩ := hmatch
    · exact hnumbers ⟨hnumeric, heq ▸ hnumeric⟩
    · revert hnumeric href
      cases a.ty <;> simp [Ty.isNumeric, Ty.isReference]
  · obtain ⟨hany, -⟩ | ⟨hl, hr, rfl⟩ := gives_numeric h
    · exact (hany.elim hleft hright).elim
    · have hoperands := operands_wider hl hr
      by_cases hop : op.isArithmetic
      · rw [if_pos hop]
        exact .arithmetic hop ha hb hoperands
      · rw [if_neg hop]
        refine .comparison ?_ ha hb hoperands
        revert hop hand hor
        cases op <;> simp [BinaryOp.isArithmetic, BinaryOp.isRelational]

theorem typed_unary {line : UInt32} {op : UnaryOp} {argument : Source.Expr} {a : Expr} {option : Ty}
    (ha : Typed Γ argument a) (hany : a.ty ≠ .any) (hoption : option ∈ unaryOperands op)
    (hfits : a.ty.fits option) : Typed Γ (.unary line op argument) (.unary a.ty op a) := by
  cases op with
  | minus => exact .sign (.inl rfl) ha ((Ty.fits_numeric hoption hfits).resolve_left hany)
  | plus => exact .sign (.inr rfl) ha ((Ty.fits_numeric hoption hfits).resolve_left hany)
  | bitwiseNot =>
      have hwhole : option = .int ∨ option = .long := by simpa [unaryOperands] using hoption
      refine .complement ha ?_
      obtain rfl | rfl := hwhole
      · exact .inl (Ty.eq_of_fits hfits hany (.inl rfl))
      · exact .inr (Ty.eq_of_fits hfits hany (.inl rfl))
  | logicalNot =>
      obtain rfl := List.mem_singleton.mp hoption
      have hty := Ty.eq_of_fits hfits hany (.inr rfl)
      rw [hty]
      exact .negation ha hty

mutual

/-- What checking gives for an expression is its typed form. -/
theorem typed_of_gives (hsc : sc.Shows Γ) {used : Bool} (e : Source.Expr) {v : Expr}
    (he : e.Declares (· ≠ .any)) (h : (expr sc used e).Gives v) : Typed Γ e v := by
  match e with
  | .literal _ value =>
      obtain rfl := Reported.gives_pure.mp h
      cases value with
      | int => exact .int
      | long => exact .long
      | double => exact .double
      | boolean => exact .bool
      | null => exact .null
  | .var line name =>
      obtain ⟨l, hl, rfl⟩ := gives_var h
      exact .var (hsc.resolve hl)
  | .field line target name ty =>
      obtain ⟨o, ho, hobject, rfl⟩ := gives_field h
      have ih := typed_of_gives hsc target he.2 ho
      exact .field ih (hobject.isReference (ih.ne_any hsc.definite he.2))
  | .assignment line target value =>
      obtain ⟨p, ty, v', hp, hv', hstores, rfl⟩ := gives_assignment h
      have hplace := typedPlace_of_gives hsc target he.1 hp
      have ih := typed_of_gives hsc value he.2 hv'
      exact .assign hplace ih (hstores.storedAs (ih.ne_any hsc.definite he.2)
        (hplace.ne_any hsc.definite he.1))
  | .binary line op left right =>
      obtain ⟨a, b, ha, hb, h⟩ := gives_binary h
      have iha := typed_of_gives hsc left he.1 ha
      have ihb := typed_of_gives hsc right he.2 hb
      exact typed_binary iha ihb (iha.ne_any hsc.definite he.1) (ihb.ne_any hsc.definite he.2) h
  | .unary line op argument =>
      obtain ⟨a, ha, ⟨option, hoption, hfits⟩, rfl⟩ := gives_unary h
      have ih := typed_of_gives hsc argument he ha
      exact typed_unary ih (ih.ne_any hsc.definite he) hoption hfits
  | .update line op argument =>
      obtain ⟨p, ty, hp, hsteps, rfl⟩ := gives_update h
      have hplace := typedPlace_of_gives hsc argument he hp
      refine .step hplace ?_
      have hany := hplace.ne_any hsc.definite he
      revert hsteps hany
      cases ty <;> simp [Ty.isIncrementable, Ty.isNumeric]
  | .call line name arguments returns =>
      obtain ⟨vs, hvs, rfl⟩ := gives_call h
      exact .call (allTyped_of_gives hsc arguments he.2 hvs)
  | .new line className =>
      obtain rfl := Reported.gives_pure.mp h
      exact .new
termination_by structural e

theorem allTyped_of_gives (hsc : sc.Shows Γ) (es : List Source.Expr) {vs : List Expr}
    (hes : Source.Expr.AllDeclare (· ≠ .any) es) (h : (exprs sc es).Gives vs) :
    AllTyped Γ es vs := by
  match es with
  | [] =>
      obtain rfl := gives_exprs_nil h
      exact .nil
  | e :: rest =>
      obtain ⟨v, vs', hv, hvs', rfl⟩ := gives_exprs_cons h
      exact .cons (typed_of_gives hsc e hes.1 hv) (allTyped_of_gives hsc rest hes.2 hvs')
termination_by structural es

theorem typedPlace_of_gives (hsc : sc.Shows Γ) {what : String} (e : Source.Expr) {p : Place Expr}
    {ty : Ty} (he : e.Declares (· ≠ .any)) (h : (place sc what e).Gives (some (p, ty))) :
    TypedPlace Γ e p ty := by
  match e with
  | .var line name =>
      obtain ⟨_, _, ⟨⟩, l, hl, rfl, rfl⟩ := gives_place h
      exact .slot (hsc.resolve hl)
  | .field line target name ty' =>
      obtain ⟨_, _, ⟨⟩, o, ho, hobject, rfl, rfl⟩ := gives_place h
      have ih := typed_of_gives hsc target he.2 ho
      exact .field ih (hobject.isReference (ih.ne_any hsc.definite he.2))
  | .literal .. | .assignment .. | .binary .. | .unary .. | .update .. | .call .. | .new .. =>
      obtain ⟨_, _, -, hno⟩ := gives_place h
      exact hno.elim
termination_by structural e

end

/-- A checked expression is of the type of numbers or truth values that is wanted. -/
theorem typed_of_fits (hsc : sc.Shows Γ) {e : Source.Expr} {v : Expr} {ty : Ty}
    (he : e.Declares (· ≠ .any)) (h : (expr sc true e).Gives v) (hfits : v.ty.fits ty)
    (hty : ty.isNumeric ∨ ty = .boolean) : Typed Γ e v ∧ v.ty = ty := by
  have ih := typed_of_gives hsc e he h
  exact ⟨ih, Ty.eq_of_fits hfits (ih.ne_any hsc.definite he) hty⟩

/-- A case label that checking gives a value for is a constant int. -/
theorem caseTyped_of_gives (hsc : sc.Shows Γ) {e : Source.Expr} {o : Option Int32}
    (he : e.Declares (· ≠ .any)) (h : (caseValue sc e).Gives o) : CaseTyped Γ e := by
  obtain ⟨v, hv, hfits, hvalue, hnone⟩ := gives_label h
  have htyped := typed_of_fits hsc he hv hfits (.inl rfl)
  refine ⟨?_, v, htyped⟩
  rw [← gives_constant e hv, hvalue, Option.isSome_iff_ne_none]
  intro ho
  exact htyped.1.ne_any hsc.definite he (hnone ho)

end Gives

end Typing

/-! ## Checked bodies -/

namespace Analysis

open Annotated (Stmt Expr Catch)
open Typing (Typed Tested CaseTyped)
open Reported (gives_bind)
open Source (CaseLabel)

theorem caseTyped_of_addLabels {sc : Scope} {Γ : Context} (hsc : sc.Shows Γ) {line : UInt32}
    {labels labels' : Labels} {g : Nat} {ls : List CaseLabel}
    (hls : ∀ l ∈ ls, l.Declares (· ≠ .any))
    (h : (ls.foldlM (fun labels l => addLabel sc line labels g l) labels).Gives labels') :
    ∀ e, .case e ∈ ls → CaseTyped Γ e := by
  induction ls generalizing labels with
  | nil =>
      intro e he
      cases he
  | cons l rest ih =>
      rw [List.foldlM_cons, gives_bind] at h
      obtain ⟨labels₁, h₁, h⟩ := h
      obtain ⟨hl, hrest⟩ := List.forall_mem_cons.mp hls
      intro e he
      obtain rfl | he := List.mem_cons.mp he
      · rw [addLabel, gives_bind] at h₁
        obtain ⟨o, ho, -⟩ := h₁
        exact Typing.caseTyped_of_gives hsc hl ho
      · exact ih hrest h e he

theorem caseTyped_of_switchLabels {sc : Scope} {Γ : Context} (hsc : sc.Shows Γ) {line : UInt32}
    {labels labels' : Labels} {index : Nat} {groups : List (Source.Group Source.Stmt)}
    (hgroups : Source.Stmt.GroupsDeclare (· ≠ .any) groups)
    (h : (switchLabels sc line labels index groups).Gives labels') :
    ∀ group ∈ groups, ∀ e, .case e ∈ group.labels → CaseTyped Γ e := by
  induction groups generalizing labels index with
  | nil =>
      intro group hgroup
      cases hgroup
  | cons group rest ih =>
      rw [switchLabels, gives_bind] at h
      obtain ⟨labels₁, h₁, h⟩ := h
      obtain ⟨hlabels, -, hrest⟩ := hgroups
      exact List.forall_mem_cons.mpr ⟨caseTyped_of_addLabels hsc hlabels h₁, ih hrest h⟩

theorem Tests.tested {sc : Scope} {Γ : Context} (hsc : sc.Shows Γ) {e : Source.Expr}
    (he : e.Declares (· ≠ .any)) {v : Expr} (h : Tests sc e v) : Tested Γ e v :=
  Typing.typed_of_fits hsc he h.1 h.2 (.inr rfl)

/-- A statement with its context and its tree, whose expressions follow the rules through and
through. -/
def Obeys (s : Context × Source.Stmt) (t : Stmt) : Prop :=
  WellTyped s.1 s.2 t ∧ ∀ e ∈ t.exprs.flatMap Expr.parts, e.TypedByRule

theorem Obeys.of_none {Γ : Context} {s : Source.Stmt} {t : Stmt} (h : WellTyped Γ s t)
    (ht : t.exprs = []) : Obeys (Γ, s) t := by
  refine ⟨h, ?_⟩
  rw [ht]
  simp

theorem Obeys.of_one {Γ : Context} {s : Source.Stmt} {t : Stmt} {v : Expr} (h : WellTyped Γ s t)
    (ht : t.exprs = [v]) (hv : ∀ e ∈ v.parts, e.TypedByRule) : Obeys (Γ, s) t := by
  refine ⟨h, ?_⟩
  rw [ht, List.flatMap_singleton]
  exact hv

variable {policy : ContinuePolicy}

mutual

/-- The trees of the statements of a statement are typed well, and the scope after it shows the
context after it. -/
theorem Becomes.wellTyped (s : Source.Stmt) {st st' : Progress} {t : Stmt} {Γ : Context}
    (h : Becomes policy s st t st') (hsc : st.scope.Shows Γ) (hs : s.Declares (· ≠ .any)) :
    List.Forall₂ Obeys (s.scoped Γ) t.parts ∧ st'.scope.Shows (s.context Γ) ∧ st.scope.Extends
      st'.scope := by
  match s with
  | .block ⟨_, body⟩ =>
      obtain ⟨ts, st₁, hts, rfl, rfl⟩ := h
      obtain ⟨hbody, -, hext⟩ := AllBecome.wellTyped body hts hsc.enter hs
      exact ⟨.cons (.of_none ⟨ts, rfl⟩ rfl) hbody, hsc.leave hext⟩
  | .localDecl _ name ty none =>
      obtain ⟨-, rfl, slot, sc, hslot, rfl⟩ := h
      obtain ⟨-, hdeclared⟩ := hsc.declare hslot hs.1
      exact ⟨.cons (.of_none rfl rfl) .nil, hdeclared⟩
  | .localDecl _ name ty (some e) =>
      obtain ⟨-, v, slot, sc, hv, hstores, hslot, rfl, rfl⟩ := h
      obtain ⟨rfl, hdeclared⟩ := hsc.declare hslot hs.1
      have he := hs.2 e rfl
      have hv := Typing.typed_of_gives hsc e he hv
      have hw := hstores.storedAs (hv.ne_any hsc.definite he) hs.1
      exact ⟨.cons (.of_one ⟨v, _, hv, hw, rfl⟩ rfl (hw.parts (hv.parts hsc.definite he))) .nil,
        hdeclared⟩
  | .expression _ e =>
      obtain ⟨v, hv, rfl, rfl⟩ := h
      have hv := Typing.typed_of_gives hsc e hs hv
      exact ⟨.cons (.of_one ⟨v, _, hv, rfl⟩ rfl (hv.parts hsc.definite hs)) .nil, hsc, .refl _⟩
  | .ifElse _ c s none =>
      obtain ⟨v, t₁, hv, ht₁, rfl⟩ := h
      have hv := hv.tested hsc hs.1
      obtain ⟨hpart, hafter⟩ := Becomes.wellTyped s ht₁ hsc hs.2
      exact ⟨.cons (.of_one ⟨v, t₁, none, hv, rfl⟩ rfl (hv.1.parts hsc.definite hs.1)) hpart,
        hafter⟩
  | .ifElse _ c s (some s') =>
      obtain ⟨v, t₁, st₁, t₂, hv, ht₁, ht₂, rfl⟩ := h
      have hv := hv.tested hsc hs.1
      obtain ⟨hpart₁, hsc₁, hext₁⟩ := Becomes.wellTyped s ht₁ hsc hs.2.1
      obtain ⟨hpart₂, hsc₂, hext₂⟩ := Becomes.wellTyped s' ht₂ hsc₁ hs.2.2
      exact ⟨.cons (.of_one ⟨v, t₁, some t₂, hv, rfl⟩ rfl (hv.1.parts hsc.definite hs.1))
        (List.rel_append hpart₁ hpart₂), hsc₂, hext₁.trans hext₂⟩
  | .whileLoop _ c body =>
      obtain ⟨j, v, t₁, hv, -, ht₁, rfl⟩ := h
      have hv := hv.tested hsc hs.1
      obtain ⟨hpart, hafter⟩ := Becomes.wellTyped body ht₁ hsc hs.2
      exact ⟨.cons (.of_one ⟨j, v, t₁, hv, rfl⟩ rfl (hv.1.parts hsc.definite hs.1)) hpart, hafter⟩
  | .doLoop _ body c =>
      obtain ⟨j, v, t₁, -, ht₁, hv, rfl⟩ := h
      obtain ⟨hpart, hsc₁, hext⟩ := Becomes.wellTyped body ht₁ hsc hs.2
      have hv := hv.tested hsc₁ hs.1
      exact ⟨.cons (.of_one ⟨j, v, t₁, hv, rfl⟩ rfl (hv.1.parts hsc₁.definite hs.1)) hpart,
        hsc₁, hext⟩
  | .forLoop _ init c update body =>
      obtain ⟨j, v, ts₁, st₁, ts₂, st₂, t₁, st₃, hts₁, hv, hts₂, -, ht₁, rfl, rfl⟩ := h
      obtain ⟨hi, hc, hu, hb⟩ := hs
      obtain ⟨hpart₁, hsc₁, hext₁⟩ := AllBecome.wellTyped init hts₁ hsc.enter hi
      obtain ⟨hpart₂, hsc₂, hext₂⟩ := AllBecome.wellTyped update hts₂ hsc₁ hu
      obtain ⟨hpart₃, -, hext₃⟩ := Becomes.wellTyped body ht₁ hsc₂ hb
      refine ⟨.cons ?_ (List.rel_append (List.rel_append hpart₁ hpart₂) hpart₃),
        hsc.leave (hext₁.trans (hext₂.trans hext₃))⟩
      cases hv with
      | none => exact .of_none ⟨j, ts₁, none, ts₂, t₁, .none, rfl⟩ rfl
      | @some c v hv =>
          have hc := hc c rfl
          have hv := hv.tested hsc₁ hc
          exact .of_one ⟨j, ts₁, some v, ts₂, t₁, .some hv, rfl⟩ rfl (hv.1.parts hsc₁.definite hc)
  | .switch _ selector groups =>
      obtain ⟨id, hasBreak, v, labels, bodies, d, hv, hfits, hlabels, -, hbodies, hd, rfl⟩ := h
      obtain ⟨hpart, hafter⟩ := GroupsBecome.wellTyped groups hbodies hsc hs.2
      obtain ⟨hv, hint⟩ := Typing.typed_of_fits hsc hs.1 hv hfits (.inl rfl)
      have hcases := caseTyped_of_switchLabels hsc hs.2 hlabels
      have hd := (follows_of_labels hlabels hd).mem_cases
      exact ⟨.cons (.of_one ⟨id, hasBreak, v, bodies, d, hv, hint, hcases, hd, rfl⟩ rfl
        (hv.parts hsc.definite hs.1)) hpart, hafter⟩
  | .breakJump _ =>
      obtain ⟨id, enclosing, -, rfl, rfl⟩ := h
      exact ⟨.cons (.of_none ⟨id, rfl⟩ rfl) .nil, hsc, .refl _⟩
  | .continueJump _ =>
      obtain ⟨hjump, enclosing, rfl⟩ := h.continueJump
      have hself := hjump
      obtain ⟨id, rfl⟩ | rfl := hjump <;>
        exact ⟨.cons (.of_none hself rfl) .nil, hsc, .refl _⟩
  | .tryCatch _ ⟨_, body⟩ catches none =>
      obtain ⟨ts, st₁, cs, hts, hcs, rfl⟩ := h
      obtain ⟨hpart₁, -, hext₁⟩ := AllBecome.wellTyped body hts hsc.enter hs.1
      obtain ⟨hsc₁, hext₁⟩ := hsc.leave hext₁
      obtain ⟨hslots, hpart₂, hsc₂, hext₂⟩ := ClausesBecome.wellTyped catches hcs hsc₁ hs.2
      exact ⟨.cons (.of_none ⟨ts, cs, none, rfl, hslots, by simp⟩ rfl)
        (List.rel_append hpart₁ hpart₂), hsc₂, hext₁.trans hext₂⟩
  | .tryCatch _ ⟨_, body⟩ catches (some ⟨_, last⟩) =>
      obtain ⟨ts, st₁, cs, st₂, slot, sc, ts', st₃, hts, hcs, hslot, hts', rfl, rfl⟩ := h
      obtain ⟨hpart₁, -, hext₁⟩ := AllBecome.wellTyped body hts hsc.enter hs.1
      obtain ⟨hsc₁, hext₁⟩ := hsc.leave hext₁
      obtain ⟨hslots, hpart₂, hsc₂, hext₂⟩ := ClausesBecome.wellTyped catches hcs hsc₁ hs.2.1
      obtain ⟨rfl, hsc₃, hext₃⟩ := hsc₂.enter.reserve hslot
      obtain ⟨hpart₃, -, hext₄⟩ := AllBecome.wellTyped last hts' hsc₃ hs.2.2
      obtain ⟨hsc₄, hext₄⟩ := hsc₂.leave (hext₃.trans hext₄)
      refine ⟨.cons (.of_none ⟨ts, cs, some ⟨Γ.next, ts'⟩, rfl, hslots, ?_⟩ rfl)
        (List.rel_append (List.rel_append hpart₁ hpart₂) hpart₃), hsc₄,
        hext₁.trans (hext₂.trans hext₄)⟩
      rintro f' ⟨⟩
      rfl
  | .throw _ e =>
      obtain ⟨v, hv, hobject, rfl, rfl⟩ := h
      have hv := Typing.typed_of_gives hsc e hs hv
      have hthrown := hobject.isReference (hv.ne_any hsc.definite hs)
      exact ⟨.cons (.of_one ⟨v, hv, hthrown, rfl⟩ rfl (hv.parts hsc.definite hs)) .nil, hsc,
        .refl _⟩
  | .empty =>
      obtain ⟨rfl, rfl⟩ := h
      exact ⟨.cons (.of_none rfl rfl) .nil, hsc, .refl _⟩
termination_by structural s

theorem AllBecome.wellTyped (body : List Source.Stmt) {st st' : Progress} {ts : List Stmt}
    {Γ : Context} (h : AllBecome policy body st ts st') (hsc : st.scope.Shows Γ)
    (hs : Source.Stmt.AllDeclare (· ≠ .any) body) :
    List.Forall₂ Obeys (Source.Stmt.allScoped Γ body) (Stmt.allParts ts) ∧ st'.scope.Shows
      (Source.Stmt.contextAfter Γ body) ∧ st.scope.Extends st'.scope := by
  match body with
  | [] =>
      obtain ⟨rfl, rfl⟩ := h
      exact ⟨.nil, hsc, .refl _⟩
  | s :: rest =>
      obtain ⟨t, st₁, ts', ht, hts', rfl⟩ := h
      obtain ⟨hpart, hsc₁, hext⟩ := Becomes.wellTyped s ht hsc hs.1
      obtain ⟨hparts, hsc', hext'⟩ := AllBecome.wellTyped rest hts' hsc₁ hs.2
      exact ⟨List.rel_append hpart hparts, hsc', hext.trans hext'⟩
termination_by structural body

theorem GroupsBecome.wellTyped (groups : List (Source.Group Source.Stmt)) {st st' : Progress}
    {bodies : List (List Stmt)} {Γ : Context} (h : GroupsBecome policy groups st bodies st')
    (hsc : st.scope.Shows Γ) (hs : Source.Stmt.GroupsDeclare (· ≠ .any) groups) :
    List.Forall₂ Obeys (Source.Stmt.groupsScoped Γ groups) (Stmt.groupParts bodies) ∧
      st'.scope.Shows Γ ∧ st.scope.Extends st'.scope := by
  match groups with
  | [] =>
      obtain ⟨rfl, rfl⟩ := h
      exact ⟨.nil, hsc, .refl _⟩
  | ⟨_, body⟩ :: rest =>
      obtain ⟨ts, st₁, bodies', hts, hbodies', rfl⟩ := h
      obtain ⟨hpart, -, hext⟩ := AllBecome.wellTyped body hts hsc.enter hs.2.1
      obtain ⟨hsc₁, hext⟩ := hsc.leave hext
      obtain ⟨hparts, hsc', hext'⟩ := GroupsBecome.wellTyped rest hbodies' hsc₁ hs.2.2
      exact ⟨List.rel_append hpart hparts, hsc', hext.trans hext'⟩
termination_by structural groups

theorem ClausesBecome.wellTyped (clauses : List (Source.CatchClause Source.Stmt))
    {st st' : Progress} {cs : List (Catch Stmt)} {Γ : Context}
    (h : ClausesBecome policy clauses st cs st') (hsc : st.scope.Shows Γ)
    (hs : Source.Stmt.ClausesDeclare (· ≠ .any) clauses) :
    List.Forall₂ (fun c c' => c'.exceptionType = c.exceptionType ∧ c'.slot = Γ.next) clauses cs ∧
      List.Forall₂ Obeys (Source.Stmt.clausesScoped Γ clauses) (Stmt.clauseParts cs) ∧
      st'.scope.Shows Γ ∧ st.scope.Extends st'.scope := by
  match clauses with
  | [] =>
      obtain ⟨rfl, rfl⟩ := h
      exact ⟨.nil, .nil, hsc, .refl _⟩
  | ⟨_, exceptionType, param, ⟨_, body⟩⟩ :: rest =>
      obtain ⟨slot, sc, ts, st₁, cs', hslot, hts, hcs', rfl⟩ := h
      obtain ⟨rfl, hsc₁, hext₁⟩ := hsc.enter.declare hslot (by simp)
      obtain ⟨hpart, -, hext⟩ := AllBecome.wellTyped body hts hsc₁ hs.1
      obtain ⟨hsc₂, hext⟩ := hsc.leave (hext₁.trans hext)
      obtain ⟨hslots, hparts, hsc', hext'⟩ := ClausesBecome.wellTyped rest hcs' hsc₂ hs.2
      exact ⟨.cons ⟨rfl, rfl⟩ hslots, List.rel_append hpart hparts, hsc', hext.trans hext'⟩
termination_by structural clauses

end

end Analysis

/-- A body that declares nothing of the type that fits everywhere has a tree without it and
without errors in it. Every expression is typed by the rules, from the types right inside it and
from the locals in view of its statement, and it is of the type its statement wants. -/
theorem check_wellTyped {settings : Settings} {p : Source.Program} {h : Annotated.Program}
    (hcheck : check settings p = .ok h) (hp : Source.Stmt.AllDeclare (· ≠ .any) p.body) :
    (∀ e ∈ h.exprs, e.ty ≠ .any ∧ (∀ ty, e ≠ .error ty) ∧ e.TypedByRule) ∧
      List.Forall₂ (fun s t => Analysis.WellTyped s.1 s.2 t) (Source.Stmt.allScoped {} p.body)
        (Annotated.Stmt.allParts h.body) := by
  obtain ⟨st, hbody, -⟩ := check_becomes hcheck
  have hempty : Scope.Shows { limit := settings.maxLocals } {} :=
    ⟨rfl, rfl, by simp, by simp [Context.Definite]⟩
  obtain ⟨hparts, -⟩ := Analysis.AllBecome.wellTyped p.body hbody hempty hp
  have hrules : ∀ t ∈ Annotated.Stmt.allParts h.body,
      ∀ e ∈ t.exprs.flatMap Annotated.Expr.parts, e.TypedByRule :=
    ((List.forall₂_and_left _ _).mp (hparts.flip.imp fun _ _ hobeys => hobeys.symm)).1
  refine ⟨fun e he => ?_, hparts.imp fun _ _ hobeys => hobeys.1⟩
  obtain ⟨t, ht, he⟩ := List.mem_flatMap.mp he
  have hrule := hrules t ht e he
  refine ⟨hrule.1, ?_, hrule⟩
  rintro ty rfl
  exact hrule.2

/-- Numbers that meet wider ones, a branch that declares a local for what follows, a block that
hides one, and objects that are thrown, caught and compared. -/
def mixedTypes : Source.Program :=
  ⟨[.localDecl 1 "n" .long (some (.literal 1 (.int 1))),
    .ifElse 2 (.binary 2 .lessThan (.var 2 "n") (.literal 2 (.int 2)))
      (.localDecl 3 "o" (.reference "A") (some (.literal 3 .null))) none,
    .block ⟨4, [.localDecl 5 "n" .int (some (.literal 5 (.int 7))),
      .expression 6 (.assignment 6 (.field 6 (.var 6 "o") "f" .double)
        (.binary 6 .add (.var 6 "n") (.literal 6 (.int 1))))]⟩,
    .switch 7 (.call 7 "key" [.var 7 "n"] .int)
      [⟨[.case (.unary 7 .minus (.literal 7 (.int 5)))],
        [.expression 8 (.update 8 .postIncrement (.var 8 "n"))]⟩],
    .tryCatch 9 ⟨9, [.throw 10 (.var 10 "o")]⟩
      [⟨11, "E", "e", ⟨11, [.expression 12 (.call 12 "log" [.var 12 "e"] .void)]⟩⟩]
      (some ⟨13, [.whileLoop 14 (.binary 14 .notEqual (.var 14 "o") (.literal 14 .null))
        (.breakJump 15)]⟩)]⟩

/-- Their tree. -/
def mixedTypesTree : Annotated.Program :=
  ⟨[.localInit 0 (.widen .long (.int .int 1)),
    .ifElse (.binary .boolean .lessThan (.slot .long 0) (.widen .long (.int .int 2)))
      (.localInit 1 (.null .null)) none,
    .block [.localInit 2 (.int .int 7),
      .expression (.assign .double (.field (.slot (.reference "A") 1) "f")
        (.widen .double (.binary .int .add (.slot .int 2) (.int .int 1))) false) false],
    .switch 0 false (.call .int "key" [.slot .long 0])
      [[.expression (.increment .long .postIncrement (.slot 0) false) false]]
      ⟨-5, -5, 1, [(-5, 0)], none, .lookup⟩,
    .tryCatch [.throw (.slot (.reference "A") 1)]
      [⟨"E", 2, [.expression (.call .void "log" [.slot (.reference "E") 2]) false]⟩]
      (some ⟨2, [.whileLoop ⟨1, true, false⟩
        (.binary .boolean .notEqual (.slot (.reference "A") 1) (.null .null)) (.breakJump 1)]⟩)], 3⟩

theorem check_wellTyped_mixed :
    check {} mixedTypes = .ok mixedTypesTree ∧ (∀ e ∈ mixedTypesTree.exprs, e.ty ≠ .any) ∧
      List.Forall₂ (fun s t => Analysis.WellTyped s.1 s.2 t)
        (Source.Stmt.allScoped {} mixedTypes.body)
        (Annotated.Stmt.allParts mixedTypesTree.body) := by
  have hcheck : check {} mixedTypes = .ok mixedTypesTree := by
    -- The estimates for the switch are made apart from the rest.
    have hdispatch : Dispatch.ofCases [(-5, 0)] none =
        .ok ⟨-5, -5, 1, [(-5, 0)], none, .lookup⟩ := by decide +kernel
    rw [check, Analysis.program, mixedTypes]
    repeat rw [Analysis.stmts]
    unfold Analysis.stmt
    generalize Dispatch.ofCases = ofCases at hdispatch
    cbv
    erw [hdispatch]
    cbv
  have hdeclares : Source.Stmt.AllDeclare (· ≠ .any) mixedTypes.body := by
    simp [mixedTypes, Source.Stmt.AllDeclare, Source.Stmt.Declares, Source.Stmt.GroupsDeclare,
      Source.Stmt.ClausesDeclare, Source.Expr.Declares, Source.Expr.AllDeclare,
      Source.CaseLabel.Declares]
  obtain ⟨hrules, htyped⟩ := check_wellTyped hcheck hdeclares
  exact ⟨hcheck, fun e he => (hrules e he).1, htyped⟩

end MethodCompiler
