import MethodCompiler.Proofs.DefiniteTypes
import MethodCompiler.Proofs.Slots
import MethodCompiler.Proofs.Views

/-!
# Trees in which every type can be relied on

A type in a tree tells how a value is represented, if the tree is typed well: locals are used
as they were declared, fields are always selected with one kind of value, numbers are brought
to one type before they meet, and a declaration stores into the first slot that is not in use.

Checking makes sure of that, given what it does not look at itself. It does not compare the
types with which a field is selected, it accepts void arguments and types that fit everywhere,
and a declaration may be a branch of an if or lack its first value. A body that does none of
this conforms, and its tree is typed well.
-/

namespace MethodCompiler

/-- What a method body says of fields and calls: how the values of a field are represented, and
how those that calls of a name return may be. -/
structure Signature where
  field : String → Kind
  returns : String → Kind → Prop

/-! ## Conforming bodies -/

namespace Source

mutual

/-- Fields are selected as the signature says, calls declare definite types that are in it, and
arguments are no void calls. -/
def Expr.Conforms (sig : Signature) : Expr → Prop
  | .literal .. | .var .. | .new .. => True
  | .field _ target name ty => ty.kind? = some (sig.field name) ∧ target.Conforms sig
  | .assignment _ target value => target.Conforms sig ∧ value.Conforms sig
  | .binary _ _ left right => left.Conforms sig ∧ right.Conforms sig
  | .unary _ _ argument | .update _ _ argument => argument.Conforms sig
  | .call _ name arguments ty => ty ≠ .any ∧ (∀ k ∈ ty.kind?, sig.returns name k) ∧
      Expr.AllConform sig arguments
termination_by structural e => e

/-- The same of arguments. -/
def Expr.AllConform (sig : Signature) : List Expr → Prop
  | [] => True
  | e :: rest => e.isVoidCall = false ∧ e.Conforms sig ∧ Expr.AllConform sig rest
termination_by structural es => es

end

mutual

/-- The expressions of a statement conform, and so do its declarations: they give a first value
of a definite type, and stand where `declares` allows it or directly in a body inside. -/
def Stmt.Conforms (sig : Signature) (declares : Bool) : Stmt → Prop
  | .block ⟨_, body⟩ => Stmt.AllConform sig true body
  | .localDecl _ _ ty init =>
    declares = true ∧ ty ≠ .any ∧ ∃ e, init = some e ∧ e.Conforms sig
  | .expression _ e | .throw _ e => e.Conforms sig
  | .ifElse _ c s none => c.Conforms sig ∧ s.Conforms sig false
  | .ifElse _ c s (some t) => c.Conforms sig ∧ s.Conforms sig false ∧ t.Conforms sig false
  | .whileLoop _ c body | .doLoop _ body c => c.Conforms sig ∧ body.Conforms sig false
  | .forLoop _ init c update body => Stmt.AllConform sig true init ∧
      (∀ e ∈ c, e.Conforms sig) ∧ Stmt.AllConform sig false update ∧
      body.Conforms sig false
  | .switch _ selector groups => selector.Conforms sig ∧ Stmt.GroupsConform sig groups
  | .tryCatch _ ⟨_, body⟩ catches none =>
    Stmt.AllConform sig true body ∧ Stmt.ClausesConform sig catches
  | .tryCatch _ ⟨_, body⟩ catches (some ⟨_, last⟩) => Stmt.AllConform sig true body ∧
      Stmt.ClausesConform sig catches ∧ Stmt.AllConform sig true last
  | .breakJump _ | .continueJump _ | .empty => True
termination_by structural s => s

/-- The same of statements one after another. -/
def Stmt.AllConform (sig : Signature) (declares : Bool) : List Stmt → Prop
  | [] => True
  | s :: rest => s.Conforms sig declares ∧ Stmt.AllConform sig declares rest
termination_by structural body => body

/-- The same of the groups of a switch. -/
def Stmt.GroupsConform (sig : Signature) : List (Group Stmt) → Prop
  | [] => True
  | ⟨_, body⟩ :: rest => Stmt.AllConform sig true body ∧ Stmt.GroupsConform sig rest
termination_by structural groups => groups

/-- The same of the clauses of a try. -/
def Stmt.ClausesConform (sig : Signature) : List (CatchClause Stmt) → Prop
  | [] => True
  | ⟨_, _, _, ⟨_, body⟩⟩ :: rest =>
    Stmt.AllConform sig true body ∧ Stmt.ClausesConform sig rest
termination_by structural clauses => clauses

end

end Source

/-! ## Typed trees -/

/-- What an operator makes of operands that are represented so. -/
def BinaryOp.Takes (op : BinaryOp) (result left right : Option Kind) : Prop :=
  match op with
  | .logicalAnd | .logicalOr => result = some .int ∧ left.isSome ∧ right.isSome
  | .equal | .notEqual => result = some .int ∧ ∃ k, left = some k ∧ right = some k
  | .lessThan | .lessThanEqual | .greaterThan | .greaterThanEqual =>
    result = some .int ∧ ∃ k ≠ .reference, left = some k ∧ right = some k
  | .add | .subtract | .multiply | .divide | .modulo =>
    ∃ k ≠ .reference, result = some k ∧ left = some k ∧ right = some k

/-- What an operator makes of an operand that is represented so. -/
def UnaryOp.Takes (op : UnaryOp) (result operand : Option Kind) : Prop :=
  match op with
  | .logicalNot => result = some .int ∧ operand.isSome
  | .minus | .plus => ∃ k ≠ .reference, result = some k ∧ operand = some k
  | .bitwiseNot => ∃ k, (k = .int ∨ k = .long) ∧ result = some k ∧ operand = some k

namespace Annotated

mutual

/-- The types in an expression can be relied on where the locals are as `L` says. -/
def Expr.Typed (sig : Signature) (L : Locals) : Expr → Prop
  | .int ty _ | .bool ty _ => ty.kind? = some .int
  | .long ty _ => ty.kind? = some .long
  | .double ty _ => ty.kind? = some .double
  | .null ty | .new ty _ => ty.kind? = some .reference
  | .slot ty i => ∃ k, ty.kind? = some k ∧ L[i]? = some (some k)
  | .field ty target name => ty.kind? = some (sig.field name) ∧
      target.ty.kind? = some .reference ∧ target.Typed sig L
  | .widen ty inner => inner.ty.widensTo ty ∧ inner.Typed sig L
  | .assign ty (.slot i) value _ => (∃ k, ty.kind? = some k ∧ L[i]? = some (some k) ∧
      value.ty.kind? = some k) ∧ value.Typed sig L
  | .assign ty (.field target name) value _ => ty.kind? = some (sig.field name) ∧
      value.ty.kind? = some (sig.field name) ∧ target.ty.kind? = some .reference ∧
      target.Typed sig L ∧ value.Typed sig L
  | .binary ty op left right => op.Takes ty.kind? left.ty.kind? right.ty.kind? ∧
      left.Typed sig L ∧ right.Typed sig L
  | .unary ty op operand => op.Takes ty.kind? operand.ty.kind? ∧ operand.Typed sig L
  | .increment ty _ (.slot i) _ => ty.isNumeric ∧ L[i]? = some ty.kind?
  | .increment ty _ (.field target name) _ => ty.isNumeric ∧ ty.kind? = some (sig.field name) ∧
      target.ty.kind? = some .reference ∧ target.Typed sig L
  | .call ty name args => ty ≠ .any ∧ (∀ k ∈ ty.kind?, sig.returns name k) ∧
      Expr.AllTyped sig L args
  | .error _ => False
termination_by structural e => e

/-- The same of arguments, which have values. -/
def Expr.AllTyped (sig : Signature) (L : Locals) : List Expr → Prop
  | [] => True
  | e :: rest => e.ty.kind?.isSome ∧ e.Typed sig L ∧ Expr.AllTyped sig L rest
termination_by structural es => es

end

/-- An expression that can be relied on and has a value. -/
def Expr.Valued (sig : Signature) (L : Locals) (e : Expr) : Prop :=
  e.ty.kind?.isSome ∧ e.Typed sig L

/-- What is known of the locals after a statement, if it runs to its end. -/
def Stmt.declare (L : Locals) : Stmt → Locals
  | .localInit _ e => L ++ [e.ty.kind?]
  | _ => L

/-- What is known of the locals after statements. -/
def Stmt.declareAll (L : Locals) (body : List Stmt) : Locals :=
  body.foldl (fun L s => s.declare L) L

theorem Stmt.below_declare (L : Locals) (s : Stmt) : Locals.Below L (s.declare L) := by
  cases s with
  | localInit slot e => exact Locals.below_append L _
  | _ => exact .refl L

theorem Stmt.below_declareAll (L : Locals) (body : List Stmt) :
    Locals.Below L (Stmt.declareAll L body) := by
  induction body generalizing L with
  | nil => exact .refl L
  | cons s rest ih => exact (s.below_declare L).trans (ih _)

mutual

/-- The types in a statement can be relied on. A declaration, where one may stand, stores
into the first slot that is not in use. So does the handler of a catch clause, and that of a
finally body, which runs both where that slot holds an object and where it holds nothing. -/
def Stmt.Typed (sig : Signature) (declares : Bool) (L : Locals) : Stmt → Prop
  | .block body => Stmt.AllTyped sig true L body
  | .localInit slot e => declares = true ∧ slot = L.length ∧ e.Valued sig L
  | .expression e _ => e.Typed sig L
  | .ifElse c s none => c.Valued sig L ∧ s.Typed sig false L
  | .ifElse c s (some t) => c.Valued sig L ∧ s.Typed sig false L ∧ t.Typed sig false L
  | .whileLoop _ c body | .doLoop _ body c => c.Valued sig L ∧ body.Typed sig false L
  | .forLoop _ init c update body => Stmt.AllTyped sig true L init ∧
      (∀ e ∈ c, e.Valued sig (Stmt.declareAll L init)) ∧
      Stmt.AllTyped sig false (Stmt.declareAll L init) update ∧
      body.Typed sig false (Stmt.declareAll L init)
  | .switch _ _ e groups _ => e.ty.kind? = some .int ∧ e.Typed sig L ∧
      Stmt.GroupsTyped sig L groups
  | .tryCatch guarded clauses none =>
    Stmt.AllTyped sig true L guarded ∧ Stmt.ClausesTyped sig L clauses
  | .tryCatch guarded clauses (some ⟨slot, last⟩) => Stmt.AllTyped sig true L guarded ∧
      Stmt.ClausesTyped sig L clauses ∧ slot = L.length ∧
      Stmt.AllTyped sig true (L ++ [none]) last ∧
      Stmt.AllTyped sig true (L ++ [some .reference]) last
  | .breakJump _ | .continueJump _ | .empty => True
  | .throw e => e.ty.kind? = some .reference ∧ e.Typed sig L
termination_by structural s => s

/-- The same of statements one after another. -/
def Stmt.AllTyped (sig : Signature) (declares : Bool) (L : Locals) : List Stmt → Prop
  | [] => True
  | s :: rest => s.Typed sig declares L ∧ Stmt.AllTyped sig declares (s.declare L) rest
termination_by structural body => body

/-- The same of the groups of a switch. -/
def Stmt.GroupsTyped (sig : Signature) (L : Locals) : List (List Stmt) → Prop
  | [] => True
  | body :: rest => Stmt.AllTyped sig true L body ∧ Stmt.GroupsTyped sig L rest
termination_by structural groups => groups

/-- The same of the clauses of a try. -/
def Stmt.ClausesTyped (sig : Signature) (L : Locals) : List (Catch Stmt) → Prop
  | [] => True
  | ⟨_, slot, body⟩ :: rest => slot = L.length ∧
      Stmt.AllTyped sig true (L ++ [some .reference]) body ∧ Stmt.ClausesTyped sig L rest
termination_by structural clauses => clauses

end

variable {sig : Signature} {L : Locals}

/-- What declares nothing leaves the locals as they are. -/
theorem Stmt.Typed.declare_eq {s : Stmt} (h : s.Typed sig false L) : s.declare L = L := by
  cases s with
  | localInit slot e => cases h.1
  | _ => rfl

theorem Stmt.AllTyped.declareAll_eq {body : List Stmt} (h : AllTyped sig false L body) :
    declareAll L body = L := by
  induction body with
  | nil => rfl
  | cons s rest ih =>
      obtain ⟨hs, hrest⟩ := h
      rw [hs.declare_eq] at hrest
      rw [declareAll, List.foldl_cons, hs.declare_eq]
      exact ih hrest

end Annotated

/-! ## Types and what represents them -/

namespace Ty

theorem kind?_isSome {ty : Ty} (h : ty.IsValue) : ty.kind?.isSome := by
  obtain ⟨hvoid, hany⟩ := h
  cases ty <;> first | rfl | contradiction

/-- Values that may stand for each other are represented alike. -/
theorem kind?_of_fits {found expected : Ty} (h : found.fits expected) (hf : found ≠ .any)
    (he : expected ≠ .any) : found.kind? = expected.kind? := by
  cases found <;> cases expected <;> first | rfl | contradiction

theorem kind?_of_isNumeric {ty : Ty} (h : ty.isNumeric) : ∃ k ≠ .reference, ty.kind? = some k := by
  cases ty with
  | int => exact ⟨.int, nofun, rfl⟩
  | long => exact ⟨.long, nofun, rfl⟩
  | double => exact ⟨.double, nofun, rfl⟩
  | _ => cases h

theorem isNumeric_wider {a b : Ty} (ha : a.isNumeric) (hb : b.isNumeric) :
    (a.wider b).isNumeric := by
  rw [wider]
  split
  · exact ha
  · exact hb

end Ty

/-! ## Scopes -/

namespace Scope

/-- The locals in view are known and of their types, and the first slot that is not in use is
the one handed out next. -/
structure Agrees (sc : Scope) (L : Locals) : Prop where
  length : L.length = sc.nextSlot
  locals : ∀ l ∈ sc.locals, ∃ k, l.ty.kind? = some k ∧ L[l.slot]? = some (some k)
  depth : ∀ l ∈ sc.locals, l.depth ≤ sc.depth

namespace Agrees

variable {sc sc' sc₁ : Scope} {L : Locals} {name : String} {ty : Ty} {slot : Nat} {k : Kind}

theorem enter (h : sc.Agrees L) : sc.enter.Agrees L :=
  ⟨h.length, h.locals, fun l hl => Nat.le_succ_of_le (h.depth l hl)⟩

theorem leave (h : sc.Agrees L) (hin : sc.enter.Extends sc₁) :
    sc₁.leave.2.Agrees L ∧ sc.Extends sc₁.leave.2 := by
  obtain ⟨hlocals, hnext, hext⟩ := hin.leave h.depth
  refine ⟨⟨?_, ?_, ?_⟩, hext⟩
  · rw [hnext]
    exact h.length
  · rw [hlocals]
    exact h.locals
  · rw [hlocals, hext.depth]
    exact h.depth

/-- A slot is handed out, of which nothing has to be known yet. -/
theorem reserve (h : sc.Agrees L) (hr : sc.reserve = .ok (slot, sc')) :
    slot = L.length ∧ sc.Extends sc' ∧ ∀ known, sc'.Agrees (L ++ [known]) := by
  rw [Scope.reserve] at hr
  split at hr
  · cases hr
  · obtain ⟨rfl, rfl⟩ := Prod.mk.inj (Except.ok.inj hr)
    refine ⟨h.length.symm, ⟨rfl, rfl, [], rfl, by simp⟩, fun known => ⟨?_, ?_, h.depth⟩⟩
    · rw [List.length_append, h.length]
      rfl
    · intro l hl
      obtain ⟨k, hk, hslot⟩ := h.locals l hl
      exact ⟨k, hk, Locals.below_append L [known] _ _ hslot⟩

theorem declare (h : sc.Agrees L) (hd : sc.declare name ty = .ok (slot, sc'))
    (hk : ty.kind? = some k) :
    slot = L.length ∧ sc.Extends sc' ∧ sc'.Agrees (L ++ [some k]) := by
  rw [Scope.declare] at hd
  split at hd
  · cases hd
  · cases hr : sc.reserve with
    | error e =>
        rw [hr] at hd
        cases hd
    | ok r =>
        obtain ⟨slot', sc₁⟩ := r
        rw [hr] at hd
        obtain ⟨rfl, rfl⟩ := Prod.mk.inj (Except.ok.inj hd)
        obtain ⟨hslot, hext, hagrees⟩ := h.reserve hr
        have hin := hagrees (some k)
        refine ⟨hslot, hext.trans ⟨rfl, rfl, [_], rfl, by simp⟩, hin.length, ?_, ?_⟩
        · refine List.forall_mem_cons.mpr ⟨⟨k, hk, ?_⟩, hin.locals⟩
          simp [hslot]
        · exact List.forall_mem_cons.mpr ⟨Nat.le_refl _, hin.depth⟩

theorem resolve {l : Local} (h : sc.Agrees L) (hl : sc.resolve? name = some l) :
    ∃ k, l.ty.kind? = some k ∧ L[l.slot]? = some (some k) :=
  h.locals l (List.mem_of_find?_eq_some hl)

end Agrees

end Scope

/-! ## Expressions -/

namespace Typing

open Annotated (Expr Place)

variable {sig : Signature} {L : Locals}

/-- An expression of a definite type that can be relied on, void only if it is a call. -/
structure Settled (sig : Signature) (L : Locals) (e : Source.Expr) (v : Expr) : Prop where
  typed : v.Typed sig L
  definite : v.ty ≠ .any
  void : v.ty = .void → e.isVoidCall

theorem Settled.of_kind {e : Source.Expr} {v : Expr} {k : Kind} (h : v.Typed sig L)
    (hk : v.ty.kind? = some k) : Settled sig L e v := by
  refine ⟨h, ?_, ?_⟩ <;> intro hty <;> rw [hty] at hk <;> cases hk

theorem Settled.valued {e : Source.Expr} {v : Expr} (h : Settled sig L e v)
    (hv : v.ty ≠ .void) : v.Valued sig L :=
  ⟨Ty.kind?_isSome ⟨hv, h.definite⟩, h.typed⟩

/-- What fits a type is represented like it. -/
theorem Settled.kind {e : Source.Expr} {v : Expr} (h : Settled sig L e v) {ty : Ty}
    (hfits : v.ty.fits ty) (hty : ty ≠ .any) : v.ty.kind? = ty.kind? :=
  Ty.kind?_of_fits hfits h.definite hty

theorem Settled.object {e : Source.Expr} {v : Expr} (h : Settled sig L e v) (hv : IsObject v) :
    v.ty.kind? = some .reference := by
  have hty := hv.resolve_right h.definite
  revert hty
  cases v.ty <;> simp [Ty.isReference, Ty.kind?]

/-- What is stored into a place of a type is represented as the type says. -/
theorem Settled.stored {e : Source.Expr} {v : Expr} (h : Settled sig L e v) {ty : Ty} {k : Kind}
    (hstores : Stores v ty) (hk : ty.kind? = some k) :
    (widen v ty).Typed sig L ∧ (widen v ty).ty.kind? = some k := by
  rw [widen]
  split
  · next hwidens => exact ⟨⟨hwidens, h.typed⟩, hk⟩
  · next hwidens =>
      have hany : ty ≠ .any := by
        rintro rfl
        cases hk
      rw [h.kind (hstores.resolve_right hwidens) hany]
      exact ⟨h.typed, hk⟩

/-- A number may be stored where the wider of two types is wanted. -/
theorem stores_wider {left right : Expr} (hl : left.ty.isNumeric) (hr : right.ty.isNumeric) :
    Stores left (left.ty.wider right.ty) ∧ Stores right (left.ty.wider right.ty) := by
  rw [Stores, Stores]
  revert hl hr
  cases left.ty <;> cases right.ty <;>
    simp [Ty.isNumeric, Ty.wider, Ty.rank, Ty.fits, Ty.widensTo]

theorem binary_typed {line : UInt32} {op : BinaryOp} {e e' : Source.Expr} {left right v : Expr}
    (hl : Settled sig L e left) (hr : Settled sig L e' right)
    (h : (binary line op left right).Gives v) :
    v.Typed sig L ∧ ∃ k, v.ty.kind? = some k := by
  obtain ⟨hop, hfl, hfr, rfl⟩ | ⟨hand, hor, ⟨hop, hfits, hvl, hvr, -, rfl⟩ | h⟩ := gives_binary_cases h
  · have hkl : left.ty.kind? = some .int := hl.kind hfl (by simp)
    have hkr : right.ty.kind? = some .int := hr.kind hfr (by simp)
    refine ⟨⟨?_, hl.typed, hr.typed⟩, .int, rfl⟩
    obtain rfl | rfl := hop <;> exact ⟨rfl, by simp [hkl], by simp [hkr]⟩
  · obtain ⟨k, hk⟩ := Option.isSome_iff_exists.mp (hr.valued hvr).1
    have hkl : left.ty.kind? = some k := (hl.kind hfits hr.definite).trans hk
    refine ⟨⟨?_, hl.typed, hr.typed⟩, .int, rfl⟩
    obtain rfl | rfl := hop <;> exact ⟨rfl, k, hkl, hk⟩
  · obtain ⟨hno, -⟩ | ⟨hnl, hnr, rfl⟩ := gives_numeric h
    · exact (hno.elim hl.definite hr.definite).elim
    · obtain ⟨k, hne, hk⟩ := Ty.kind?_of_isNumeric (Ty.isNumeric_wider hnl hnr)
      obtain ⟨hsl, hsr⟩ := stores_wider hnl hnr
      obtain ⟨htl, hkl⟩ := hl.stored hsl hk
      obtain ⟨htr, hkr⟩ := hr.stored hsr hk
      refine ⟨⟨?_, htl, htr⟩, ?_⟩
      · cases op <;> simp only [BinaryOp.Takes] <;> first
          | exact absurd rfl hand
          | exact absurd rfl hor
          | exact ⟨k, hne, hk, hkl, hkr⟩
          | exact ⟨rfl, k, hne, hkl, hkr⟩
          | exact ⟨rfl, k, hkl, hkr⟩
      · show ∃ k', (if op.isArithmetic then left.ty.wider right.ty else Ty.boolean).kind? = some k'
        split
        · exact ⟨k, hk⟩
        · exact ⟨.int, rfl⟩

theorem unary_typed {op : UnaryOp} {e : Source.Expr} {v : Expr} {option : Ty}
    (h : Settled sig L e v) (hoption : option ∈ unaryOperands op) (hfits : v.ty.fits option) :
    (Expr.unary v.ty op v).Typed sig L ∧ ∃ k, v.ty.kind? = some k := by
  have hnumeric : option ∈ Ty.numeric → ∃ k ≠ .reference, v.ty.kind? = some k := by
    intro hmem
    have hnumeric : option.isNumeric := by
      simp only [Ty.numeric, List.mem_cons, List.not_mem_nil, or_false] at hmem
      obtain rfl | rfl | rfl := hmem <;> rfl
    rw [h.kind hfits (by rintro rfl; cases hnumeric)]
    exact Ty.kind?_of_isNumeric hnumeric
  cases op with
  | minus | plus =>
      obtain ⟨k, hne, hk⟩ := hnumeric hoption
      exact ⟨⟨⟨k, hne, hk, hk⟩, h.typed⟩, k, hk⟩
  | logicalNot =>
      obtain rfl := List.mem_singleton.mp hoption
      have hk : v.ty.kind? = some .int := h.kind hfits (by simp)
      exact ⟨⟨⟨hk, by simp [hk]⟩, h.typed⟩, .int, hk⟩
  | bitwiseNot =>
      have hwhole : option = .int ∨ option = .long := by simpa [unaryOperands] using hoption
      obtain rfl | rfl := hwhole
      · have hk : v.ty.kind? = some .int := h.kind hfits (by simp)
        exact ⟨⟨⟨.int, .inl rfl, hk, hk⟩, h.typed⟩, .int, hk⟩
      · have hk : v.ty.kind? = some .long := h.kind hfits (by simp)
        exact ⟨⟨⟨.long, .inr rfl, hk, hk⟩, h.typed⟩, .long, hk⟩

/-- A place of a kind of values: a local that is known, or a field of an object. -/
def PlaceTyped (sig : Signature) (L : Locals) (k : Kind) : Place Expr → Prop
  | .slot slot => L[slot]? = some (some k)
  | .field target name => k = sig.field name ∧ target.ty.kind? = some .reference ∧
      target.Typed sig L

mutual

theorem expr_typed {sc : Scope} (hsc : sc.Agrees L) {used : Bool} (e : Source.Expr) {v : Expr}
    (he : e.Conforms sig) (h : (expr sc used e).Gives v) : Settled sig L e v := by
  match e with
  | .literal _ value =>
      obtain rfl := Reported.gives_pure.mp h
      cases value <;> exact .of_kind rfl rfl
  | .var line name =>
      obtain ⟨l, hl, rfl⟩ := gives_var h
      obtain ⟨k, hk, hslot⟩ := hsc.resolve hl
      exact .of_kind ⟨k, hk, hslot⟩ hk
  | .field line target name ty =>
      obtain ⟨o, ho, hobject, rfl⟩ := gives_field h
      have ih := expr_typed hsc target he.2 ho
      exact .of_kind ⟨he.1, ih.object hobject, ih.typed⟩ he.1
  | .assignment line target value =>
      obtain ⟨p, ty, v', hp, hv', hstores, rfl⟩ := gives_assignment h
      obtain ⟨k, hk, hplace⟩ := place_typed hsc target he.1 hp
      obtain ⟨htyped, hkind⟩ := (expr_typed hsc value he.2 hv').stored hstores hk
      cases p with
      | slot slot => exact .of_kind ⟨⟨k, hk, hplace, hkind⟩, htyped⟩ hk
      | field o name =>
          obtain ⟨rfl, hobject, ho⟩ := hplace
          exact .of_kind ⟨hk, hkind, hobject, ho, htyped⟩ hk
  | .binary line op left right =>
      obtain ⟨a, b, ha, hb, h⟩ := gives_binary h
      obtain ⟨htyped, k, hk⟩ :=
        binary_typed (expr_typed hsc left he.1 ha) (expr_typed hsc right he.2 hb) h
      exact .of_kind htyped hk
  | .unary line op argument =>
      obtain ⟨a, ha, ⟨option, hoption, hfits⟩, rfl⟩ := gives_unary h
      obtain ⟨htyped, k, hk⟩ := unary_typed (expr_typed hsc argument he ha) hoption hfits
      exact .of_kind htyped hk
  | .update line op argument =>
      obtain ⟨p, ty, hp, hsteps, rfl⟩ := gives_update h
      obtain ⟨k, hk, hplace⟩ := place_typed hsc argument he hp
      have hnumeric : ty.isNumeric := by
        revert hsteps hk
        cases ty <;> simp [Ty.isIncrementable, Ty.isNumeric, Ty.kind?]
      cases p with
      | slot slot => exact .of_kind ⟨hnumeric, by rw [hk]; exact hplace⟩ hk
      | field o name =>
          obtain ⟨rfl, hobject, ho⟩ := hplace
          exact .of_kind ⟨hnumeric, hk, hobject, ho⟩ hk
  | .call line name arguments returns =>
      obtain ⟨vs, hvs, rfl⟩ := gives_call h
      obtain ⟨hany, hreturns, hargs⟩ := he
      refine ⟨⟨hany, hreturns, exprs_typed hsc arguments hargs hvs⟩, hany, fun hvoid => ?_⟩
      obtain rfl : returns = .void := hvoid
      rfl
  | .new line className =>
      obtain rfl := Reported.gives_pure.mp h
      exact .of_kind rfl rfl
termination_by structural e

theorem exprs_typed {sc : Scope} (hsc : sc.Agrees L) (es : List Source.Expr) {vs : List Expr}
    (hes : Source.Expr.AllConform sig es) (h : (exprs sc es).Gives vs) :
    Expr.AllTyped sig L vs := by
  match es with
  | [] =>
      obtain rfl := gives_exprs_nil h
      exact trivial
  | e :: rest =>
      obtain ⟨hcall, he, hrest⟩ := hes
      obtain ⟨v, vs', hv, hvs', rfl⟩ := gives_exprs_cons h
      have ih := expr_typed hsc e he hv
      have hvoid : v.ty ≠ .void := fun hvoid => by simp [ih.void hvoid] at hcall
      exact ⟨(ih.valued hvoid).1, ih.typed, exprs_typed hsc rest hrest hvs'⟩
termination_by structural es

theorem place_typed {sc : Scope} (hsc : sc.Agrees L) {what : String} (e : Source.Expr)
    {p : Place Expr} {ty : Ty} (he : e.Conforms sig)
    (h : (place sc what e).Gives (some (p, ty))) :
    ∃ k, ty.kind? = some k ∧ PlaceTyped sig L k p := by
  match e with
  | .var line name =>
      obtain ⟨_, _, ⟨⟩, l, hl, rfl, rfl⟩ := gives_place h
      exact hsc.resolve hl
  | .field line target name ty' =>
      obtain ⟨_, _, ⟨⟩, o, ho, hobject, rfl, rfl⟩ := gives_place h
      have ih := expr_typed hsc target he.2 ho
      exact ⟨_, he.1, rfl, ih.object hobject, ih.typed⟩
  | .literal .. | .assignment .. | .binary .. | .unary .. | .update .. | .call .. | .new .. =>
      obtain ⟨_, _, -, hno⟩ := gives_place h
      exact hno.elim
termination_by structural e

end

end Typing

/-! ## Statements -/

namespace Analysis

open Annotated (Stmt Expr Catch)

variable {sig : Signature}

theorem Tests.valued {sc : Scope} {L : Locals} (hsc : sc.Agrees L) {e : Source.Expr}
    (he : e.Conforms sig) {v : Expr} (h : Tests sc e v) : v.Valued sig L :=
  (Typing.expr_typed hsc e he h.1).valued (Typing.ne_void_of_fits h.2 (by decide))

variable {policy : ContinuePolicy}

mutual

/-- The tree of a statement that conforms is typed well, and what it declares is known
afterwards. -/
theorem Becomes.typed (s : Source.Stmt) {st st' : Progress} {t : Stmt} {L : Locals}
    {declares : Bool} (h : Becomes policy s st t st') (hsc : st.scope.Agrees L)
    (hs : s.Conforms sig declares) :
    t.Typed sig declares L ∧ st'.scope.Agrees (t.declare L) ∧ st.scope.Extends st'.scope := by
  match s with
  | .block ⟨_, body⟩ =>
      obtain ⟨ts, st₁, hts, rfl, rfl⟩ := h
      obtain ⟨htyped, -, hext⟩ := AllBecome.typed body hts hsc.enter hs
      exact ⟨htyped, hsc.leave hext⟩
  | .localDecl _ name ty none =>
      obtain ⟨-, -, e, he, -⟩ := hs
      cases he
  | .localDecl _ name ty (some e) =>
      obtain ⟨hdeclares, hany, e', he', he⟩ := hs
      obtain rfl := Option.some.inj he'
      obtain ⟨hvoid, v, slot, sc, hv, hstores, hslot, rfl, rfl⟩ := h
      obtain ⟨k, hk⟩ := Option.isSome_iff_exists.mp (Ty.kind?_isSome ⟨hvoid, hany⟩)
      obtain ⟨htyped, hkind⟩ := (Typing.expr_typed hsc e he hv).stored hstores hk
      obtain ⟨hnext, hext, hagrees⟩ := hsc.declare hslot hk
      refine ⟨⟨hdeclares, hnext, by simp [hkind], htyped⟩, ?_, hext⟩
      rw [Stmt.declare, hkind]
      exact hagrees
  | .expression _ e =>
      obtain ⟨v, hv, rfl, rfl⟩ := h
      exact ⟨(Typing.expr_typed hsc e hs hv).typed, hsc, .refl _⟩
  | .ifElse _ c s none =>
      obtain ⟨v, t₁, hv, ht₁, rfl⟩ := h
      obtain ⟨htyped, hagrees, hext⟩ := Becomes.typed s ht₁ hsc hs.2
      rw [htyped.declare_eq] at hagrees
      exact ⟨⟨hv.valued hsc hs.1, htyped⟩, hagrees, hext⟩
  | .ifElse _ c s (some s') =>
      obtain ⟨v, t₁, st₁, t₂, hv, ht₁, ht₂, rfl⟩ := h
      obtain ⟨htyped₁, hagrees₁, hext₁⟩ := Becomes.typed s ht₁ hsc hs.2.1
      rw [htyped₁.declare_eq] at hagrees₁
      obtain ⟨htyped₂, hagrees₂, hext₂⟩ := Becomes.typed s' ht₂ hagrees₁ hs.2.2
      rw [htyped₂.declare_eq] at hagrees₂
      exact ⟨⟨hv.valued hsc hs.1, htyped₁, htyped₂⟩, hagrees₂, hext₁.trans hext₂⟩
  | .whileLoop _ c body =>
      obtain ⟨j, v, t₁, hv, -, ht₁, rfl⟩ := h
      obtain ⟨htyped, hagrees, hext⟩ := Becomes.typed body ht₁ hsc hs.2
      rw [htyped.declare_eq] at hagrees
      exact ⟨⟨hv.valued hsc hs.1, htyped⟩, hagrees, hext⟩
  | .doLoop _ body c =>
      obtain ⟨j, v, t₁, -, ht₁, hv, rfl⟩ := h
      obtain ⟨htyped, hagrees, hext⟩ := Becomes.typed body ht₁ hsc hs.2
      rw [htyped.declare_eq] at hagrees
      exact ⟨⟨hv.valued hagrees hs.1, htyped⟩, hagrees, hext⟩
  | .forLoop _ init c update body =>
      obtain ⟨j, v, ts₁, st₁, ts₂, st₂, t₁, st₃, hts₁, hv, hts₂, -, ht₁, rfl, rfl⟩ := h
      obtain ⟨hi, hc, hu, hb⟩ := hs
      obtain ⟨htyped₁, hagrees₁, hext₁⟩ := AllBecome.typed init hts₁ hsc.enter hi
      obtain ⟨htyped₂, hagrees₂, hext₂⟩ := AllBecome.typed update hts₂ hagrees₁ hu
      rw [htyped₂.declareAll_eq] at hagrees₂
      obtain ⟨htyped₃, -, hext₃⟩ := Becomes.typed body ht₁ hagrees₂ hb
      refine ⟨⟨htyped₁, fun e he => ?_, htyped₂, htyped₃⟩,
        hsc.leave (hext₁.trans (hext₂.trans hext₃))⟩
      cases hv with
      | none => cases he
      | some hv =>
          obtain rfl := Option.some.inj he
          exact hv.valued hagrees₁ (hc _ rfl)
  | .switch _ selector groups =>
      obtain ⟨id, hasBreak, v, labels, bodies, d, hv, hfits, -, -, hbodies, -, rfl⟩ := h
      obtain ⟨htyped, hagrees, hext⟩ := GroupsBecome.typed groups hbodies hsc hs.2
      have hselector := Typing.expr_typed hsc selector hs.1 hv
      exact ⟨⟨hselector.kind hfits nofun, hselector.typed, htyped⟩, hagrees, hext⟩
  | .breakJump _ =>
      obtain ⟨id, enclosing, -, rfl, rfl⟩ := h
      exact ⟨trivial, hsc, .refl _⟩
  | .continueJump _ =>
      obtain ⟨⟨id, rfl⟩ | rfl, enclosing, rfl⟩ := h.continueJump <;> exact ⟨trivial, hsc, .refl _⟩
  | .tryCatch _ ⟨_, body⟩ catches none =>
      obtain ⟨ts, st₁, cs, hts, hcs, rfl⟩ := h
      obtain ⟨htyped₁, -, hext₁⟩ := AllBecome.typed body hts hsc.enter hs.1
      obtain ⟨hagrees₁, hext₁⟩ := hsc.leave hext₁
      obtain ⟨htyped₂, hagrees₂, hext₂⟩ := ClausesBecome.typed catches hcs hagrees₁ hs.2
      exact ⟨⟨htyped₁, htyped₂⟩, hagrees₂, hext₁.trans hext₂⟩
  | .tryCatch _ ⟨_, body⟩ catches (some ⟨_, last⟩) =>
      obtain ⟨ts, st₁, cs, st₂, slot, sc, ts', st₃, hts, hcs, hslot, hts', rfl, rfl⟩ := h
      obtain ⟨htyped₁, -, hext₁⟩ := AllBecome.typed body hts hsc.enter hs.1
      obtain ⟨hagrees₁, hext₁⟩ := hsc.leave hext₁
      obtain ⟨htyped₂, hagrees₂, hext₂⟩ := ClausesBecome.typed catches hcs hagrees₁ hs.2.1
      obtain ⟨hnext, hext₃, hagrees₃⟩ := hagrees₂.enter.reserve hslot
      -- The finally body is typed twice: where nothing is in flight and where an object is.
      obtain ⟨htyped₃, -, hext₄⟩ := AllBecome.typed last hts' (hagrees₃ none) hs.2.2
      obtain ⟨htyped₄, -, -⟩ := AllBecome.typed last hts' (hagrees₃ (some .reference)) hs.2.2
      obtain ⟨hagrees₄, hext₄⟩ := hagrees₂.leave (hext₃.trans hext₄)
      exact ⟨⟨htyped₁, htyped₂, hnext, htyped₃, htyped₄⟩, hagrees₄, hext₁.trans (hext₂.trans hext₄)⟩
  | .throw _ e =>
      obtain ⟨v, hv, hobject, rfl, rfl⟩ := h
      have hthrown := Typing.expr_typed hsc e hs hv
      exact ⟨⟨hthrown.object hobject, hthrown.typed⟩, hsc, .refl _⟩
  | .empty =>
      obtain ⟨rfl, rfl⟩ := h
      exact ⟨trivial, hsc, .refl _⟩
termination_by structural s

theorem AllBecome.typed (body : List Source.Stmt) {st st' : Progress} {ts : List Stmt}
    {L : Locals} {declares : Bool} (h : AllBecome policy body st ts st') (hsc : st.scope.Agrees L)
    (hs : Source.Stmt.AllConform sig declares body) :
    Stmt.AllTyped sig declares L ts ∧ st'.scope.Agrees (Stmt.declareAll L ts) ∧ st.scope.Extends
      st'.scope := by
  match body with
  | [] =>
      obtain ⟨rfl, rfl⟩ := h
      exact ⟨trivial, hsc, .refl _⟩
  | s :: rest =>
      obtain ⟨t, st₁, ts', ht, hts', rfl⟩ := h
      obtain ⟨htyped, hagrees, hext⟩ := Becomes.typed s ht hsc hs.1
      obtain ⟨htyped', hagrees', hext'⟩ := AllBecome.typed rest hts' hagrees hs.2
      exact ⟨⟨htyped, htyped'⟩, hagrees', hext.trans hext'⟩
termination_by structural body

theorem GroupsBecome.typed (groups : List (Source.Group Source.Stmt)) {st st' : Progress}
    {bodies : List (List Stmt)} {L : Locals} (h : GroupsBecome policy groups st bodies st')
    (hsc : st.scope.Agrees L) (hs : Source.Stmt.GroupsConform sig groups) :
    Stmt.GroupsTyped sig L bodies ∧ st'.scope.Agrees L ∧ st.scope.Extends st'.scope := by
  match groups with
  | [] =>
      obtain ⟨rfl, rfl⟩ := h
      exact ⟨trivial, hsc, .refl _⟩
  | ⟨_, body⟩ :: rest =>
      obtain ⟨ts, st₁, bodies', hts, hbodies', rfl⟩ := h
      obtain ⟨htyped, -, hext⟩ := AllBecome.typed body hts hsc.enter hs.1
      obtain ⟨hagrees, hext⟩ := hsc.leave hext
      obtain ⟨htyped', hagrees', hext'⟩ := GroupsBecome.typed rest hbodies' hagrees hs.2
      exact ⟨⟨htyped, htyped'⟩, hagrees', hext.trans hext'⟩
termination_by structural groups

theorem ClausesBecome.typed (clauses : List (Source.CatchClause Source.Stmt)) {st st' : Progress}
    {cs : List (Catch Stmt)} {L : Locals} (h : ClausesBecome policy clauses st cs st')
    (hsc : st.scope.Agrees L) (hs : Source.Stmt.ClausesConform sig clauses) :
    Stmt.ClausesTyped sig L cs ∧ st'.scope.Agrees L ∧ st.scope.Extends st'.scope := by
  match clauses with
  | [] =>
      obtain ⟨rfl, rfl⟩ := h
      exact ⟨trivial, hsc, .refl _⟩
  | ⟨_, exceptionType, param, ⟨_, body⟩⟩ :: rest =>
      obtain ⟨slot, sc, ts, st₁, cs', hslot, hts, hcs', rfl⟩ := h
      obtain ⟨hnext, hext₁, hagrees₁⟩ := hsc.enter.declare hslot rfl
      obtain ⟨htyped, -, hext⟩ := AllBecome.typed body hts hagrees₁ hs.1
      obtain ⟨hagrees, hext⟩ := hsc.leave (hext₁.trans hext)
      obtain ⟨htyped', hagrees', hext'⟩ := ClausesBecome.typed rest hcs' hagrees hs.2
      exact ⟨⟨hnext, htyped, htyped'⟩, hagrees', hext.trans hext'⟩
termination_by structural clauses

end

end Analysis

theorem check_typed {settings : Settings} {p : Source.Program} {h : Annotated.Program}
    {sig : Signature} (hcheck : check settings p = .ok h)
    (hp : Source.Stmt.AllConform sig true p.body) :
    Annotated.Stmt.AllTyped sig true [] h.body := by
  obtain ⟨st, hbody, -⟩ := check_becomes hcheck
  have hempty : Scope.Agrees { limit := settings.maxLocals } [] := ⟨rfl, by simp, by simp⟩
  exact (Analysis.AllBecome.typed p.body hbody hempty hp).1

end MethodCompiler
