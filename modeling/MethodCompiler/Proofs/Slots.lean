import Mathlib.Data.List.TakeWhile
import MethodCompiler.Proofs.Checking
import MethodCompiler.Proofs.Subtrees

/-!
# The slots of a tree

Slots are handed out in order while a body is checked, and closing a scope winds the counter
back. So a statement names no slots but those of the locals in view and those that are free
when it starts. How many slots were in use at once only grows, and every slot that has got
into the tree by then is below that number. The number at the end of the body is enough for
all of its tree.

A tree writes a slot where a local gets its first value, where a local is stored into or
stepped, and where a try keeps the object it has caught or the object in flight. The slot of
an object in flight is neither in view nor free while the finally body is checked: it has
been handed out, and no name leads to it. Whatever stands in the body, at any depth, writes
other slots.
-/

namespace MethodCompiler

namespace Annotated

/-- The slot that an expression writes, its parts apart. -/
def Expr.writes : Expr → Option Nat
  | .assign _ (.slot i) _ _ | .increment _ _ (.slot i) _ => some i
  | _ => none

/-- The slots that an expression and its parts write are as said. -/
def Expr.WritesOnly (P : Nat → Prop) (e : Expr) : Prop :=
  ∀ part ∈ e.parts, ∀ i ∈ part.writes, P i

/-- The slots that a statement writes, its parts and its expressions apart. -/
def Stmt.writes : Stmt → List Nat
  | .localInit slot _ => [slot]
  | .tryCatch _ clauses last => clauses.map (·.slot) ++ (last.map (·.slot)).toList
  | _ => []

/-- The slots that a statement writes, its parts apart, are as said. -/
def Stmt.WritesOnly (P : Nat → Prop) (s : Stmt) : Prop :=
  (∀ i ∈ s.writes, P i) ∧ ∀ e ∈ s.exprs, e.WritesOnly P

/-- If the statement is a try with a finally body, nothing in that body writes the slot of
the object in flight. -/
def Stmt.Shields : Stmt → Prop
  | .tryCatch _ _ (some ⟨slot, body⟩) => ∀ s ∈ Stmt.allParts body, s.WritesOnly (· ≠ slot)
  | _ => True

/-- The slot that an expression reads or writes, its parts apart. -/
def Expr.slot? : Expr → Option Nat
  | .slot _ i | .assign _ (.slot i) _ _ | .increment _ _ (.slot i) _ => some i
  | _ => none

/-- The slots that an expression and its parts read and write are as said. -/
def Expr.NamesOnly (P : Nat → Prop) (e : Expr) : Prop :=
  ∀ part ∈ e.parts, ∀ i ∈ part.slot?, P i

/-- The slots that a statement reads and writes, its parts apart, are as said. -/
def Stmt.NamesOnly (P : Nat → Prop) (s : Stmt) : Prop :=
  (∀ i ∈ s.writes, P i) ∧ ∀ e ∈ s.exprs, e.NamesOnly P

variable {P Q : Nat → Prop}

theorem Expr.slot?_of_writes {e : Expr} {i : Nat} (h : e.writes = some i) : e.slot? = some i := by
  match e with
  | .assign _ (.slot _) _ _ | .increment _ _ (.slot _) _ => exact h
  | .int .. | .long .. | .double .. | .bool .. | .null _ | .slot .. | .new .. | .error _
  | .field .. | .widen .. | .assign _ (.field ..) _ _ | .binary .. | .unary ..
  | .increment _ _ (.field ..) _ | .call .. => cases h

theorem Expr.NamesOnly.mono {e : Expr} (h : e.NamesOnly P) (hPQ : ∀ i, P i → Q i) :
    e.NamesOnly Q :=
  fun part hpart i hi => hPQ i (h part hpart i hi)

theorem Stmt.NamesOnly.mono {s : Stmt} (h : s.NamesOnly P) (hPQ : ∀ i, P i → Q i) :
    s.NamesOnly Q :=
  ⟨fun i hi => hPQ i (h.1 i hi), fun e he => (h.2 e he).mono hPQ⟩

theorem Stmt.NamesOnly.writesOnly {s : Stmt} (h : s.NamesOnly P) : s.WritesOnly P :=
  ⟨h.1, fun e he part hpart i hi => h.2 e he part hpart i (Expr.slot?_of_writes hi)⟩

/-- An expression and its parts. -/
theorem Expr.namesOnly_of_parts {e : Expr} {rest : List Expr} (hparts : e.parts = e :: rest)
    (he : ∀ i ∈ e.slot?, P i) (hrest : ∀ part ∈ rest, ∀ i ∈ part.slot?, P i) : e.NamesOnly P := by
  rw [Expr.NamesOnly, hparts]
  exact List.forall_mem_cons.mpr ⟨he, hrest⟩

/-- An expression that names no slot by itself. -/
theorem Expr.namesOnly_of_none {e : Expr} (he : e.slot? = none) {rest : List Expr}
    (hparts : e.parts = e :: rest) (hrest : ∀ part ∈ rest, ∀ i ∈ part.slot?, P i) :
    e.NamesOnly P :=
  Expr.namesOnly_of_parts hparts (by simp [he]) hrest

end Annotated

/-! ## Scopes -/

namespace Scope

/-- Another scope at the same depth, with nothing but locals of that depth more. -/
structure Extends (sc sc' : Scope) : Prop where
  depth : sc'.depth = sc.depth
  saved : sc'.saved = sc.saved
  locals : ∃ new, sc'.locals = new ++ sc.locals ∧ ∀ l ∈ new, l.depth = sc.depth

theorem Extends.refl (sc : Scope) : sc.Extends sc :=
  ⟨rfl, rfl, [], rfl, by simp⟩

theorem Extends.trans {sc sc' sc'' : Scope} (h : sc.Extends sc') (h' : sc'.Extends sc'') :
    sc.Extends sc'' := by
  obtain ⟨new, hnew, hdepth⟩ := h.locals
  obtain ⟨new', hnew', hdepth'⟩ := h'.locals
  refine ⟨h'.depth.trans h.depth, h'.saved.trans h.saved, new' ++ new, ?_, fun l hl => ?_⟩
  · rw [hnew', hnew, List.append_assoc]
  · obtain hl | hl := List.mem_append.mp hl
    · exact (hdepth' l hl).trans h.depth
    · exact hdepth l hl

/-- After a scope was left everything is as it was before it was entered. -/
theorem Extends.leave {sc sc₁ : Scope} (hout : ∀ l ∈ sc.locals, l.depth ≤ sc.depth)
    (hin : sc.enter.Extends sc₁) : sc₁.leave.2.locals = sc.locals ∧
      sc₁.leave.2.nextSlot = sc.nextSlot ∧ sc.Extends sc₁.leave.2 := by
  obtain ⟨new, hnew, hdepth⟩ := hin.locals
  have hdepth : ∀ l ∈ new, l.depth = sc.depth + 1 := hdepth
  have hdepth₁ : sc₁.depth = sc.depth + 1 := hin.depth
  have hsaved : sc₁.saved = sc.nextSlot :: sc.saved := hin.saved
  have hlocals : sc₁.leave.2.locals = sc.locals := by
    show sc₁.locals.dropWhile _ = sc.locals
    rw [hnew, hdepth₁, List.dropWhile_append_of_pos (fun l hl => decide_eq_true (hdepth l hl))]
    have hout : ∀ l ∈ sc.locals, ¬ (decide (l.depth = sc.depth + 1) = true) := by
      intro l hl
      have := hout l hl
      simp only [decide_eq_true_eq]
      omega
    exact List.dropWhile_eq_self_iff.mpr fun hpos => hout _ (List.getElem_mem hpos)
  refine ⟨hlocals, ?_, ?_, ?_, [], ?_, by simp⟩
  · show sc₁.saved.headD sc₁.nextSlot = sc.nextSlot
    rw [hsaved]
    rfl
  · show sc₁.depth - 1 = sc.depth
    omega
  · show sc₁.saved.drop 1 = sc.saved
    rw [hsaved]
    rfl
  · rw [hlocals]
    rfl

/-- The slot of a local in view. -/
def Named (sc : Scope) (i : Nat) : Prop :=
  ∃ l ∈ sc.locals, l.slot = i

/-- A slot that a statement may write: of a local in view, or free. -/
def Open (sc : Scope) (i : Nat) : Prop :=
  sc.Named i ∨ sc.nextSlot ≤ i

/-- A slot that a statement may name which is checked between the two scopes. -/
def Between (sc sc' : Scope) (i : Nat) : Prop :=
  sc.Open i ∧ i < sc'.maxSlots

/-- The locals in view have slots that are not free, and none is from a scope further in.
All slots in use are counted. -/
structure Orderly (sc : Scope) : Prop where
  slot : ∀ l ∈ sc.locals, l.slot < sc.nextSlot
  depth : ∀ l ∈ sc.locals, l.depth ≤ sc.depth
  counted : sc.nextSlot ≤ sc.maxSlots

/-- A later scope at the same depth. What has come into view has slots that were free. -/
structure Grows (sc sc' : Scope) : Prop extends sc.Extends sc' where
  next : sc.nextSlot ≤ sc'.nextSlot
  most : sc.maxSlots ≤ sc'.maxSlots
  fresh : ∀ i, sc'.Named i → sc.Open i

variable {sc sc' sc₁ sc₂ sc₃ : Scope} {slot : Nat} {name : String} {ty : Ty}

theorem reserve_ok (h : sc.reserve = .ok (slot, sc')) : slot = sc.nextSlot ∧
    sc' = { sc with nextSlot := sc.nextSlot + 1, maxSlots := max sc.maxSlots (sc.nextSlot + 1) } := by
  rw [reserve] at h
  split at h
  · cases h
  · obtain ⟨rfl, rfl⟩ := Prod.mk.inj (Except.ok.inj h)
    exact ⟨rfl, rfl⟩

theorem declare_ok (h : sc.declare name ty = .ok (slot, sc')) :
    ∃ sc₁, sc.reserve = .ok (slot, sc₁) ∧
      sc' = { sc₁ with locals := ⟨name, sc₁.depth, slot, ty⟩ :: sc₁.locals } := by
  rw [declare] at h
  split at h
  · cases h
  · cases hr : sc.reserve with
    | error e => rw [hr] at h; cases h
    | ok r =>
        rw [hr] at h
        obtain ⟨rfl, rfl⟩ := Prod.mk.inj (Except.ok.inj h)
        exact ⟨_, rfl, rfl⟩

theorem Grows.refl (sc : Scope) : sc.Grows sc :=
  ⟨.refl sc, Nat.le_refl _, Nat.le_refl _, fun _ => .inl⟩

theorem Grows.open (h : sc.Grows sc') (i : Nat) (hi : sc'.Open i) : sc.Open i := by
  obtain hi | hi := hi
  · exact h.fresh i hi
  · exact .inr (Nat.le_trans h.next hi)

theorem Grows.trans (h₁ : sc.Grows sc₁) (h₂ : sc₁.Grows sc₂) : sc.Grows sc₂ where
  toExtends := h₁.toExtends.trans h₂.toExtends
  next := Nat.le_trans h₁.next h₂.next
  most := Nat.le_trans h₁.most h₂.most
  fresh := fun i hi => h₁.open i (h₂.fresh i hi)

theorem Grows.between (h : sc.Grows sc₁) (hle : sc₂.maxSlots ≤ sc₃.maxSlots) (i : Nat)
    (hi : sc₁.Between sc₂ i) : sc.Between sc₃ i :=
  ⟨h.open i hi.1, Nat.lt_of_lt_of_le hi.2 hle⟩

theorem Orderly.between (h : sc.Orderly) (hle : sc.maxSlots ≤ sc'.maxSlots) (i : Nat)
    (hi : sc.Named i) : sc.Between sc' i := by
  obtain ⟨l, hl, rfl⟩ := hi
  exact ⟨.inl ⟨l, hl, rfl⟩, Nat.lt_of_lt_of_le (h.slot l hl) (Nat.le_trans h.counted hle)⟩

theorem Orderly.enter (h : sc.Orderly) : sc.enter.Orderly :=
  ⟨h.slot, fun l hl => Nat.le_succ_of_le (h.depth l hl), h.counted⟩

theorem Orderly.leave (h : sc.Orderly) (hin : sc.enter.Grows sc₁) :
    sc₁.leave.2.Orderly ∧ sc.Grows sc₁.leave.2 := by
  obtain ⟨hlocals, hnext, hext⟩ := hin.toExtends.leave h.depth
  refine ⟨⟨?_, ?_, ?_⟩, hext, Nat.le_of_eq hnext.symm, hin.most, fun i hi => .inl ?_⟩
  · rw [hlocals, hnext]
    exact h.slot
  · rw [hlocals, hext.depth]
    exact h.depth
  · rw [hnext]
    exact Nat.le_trans h.counted hin.most
  · rwa [Named, hlocals] at hi

/-- A slot that is handed out is counted, and nothing may name it by then. -/
theorem Orderly.reserve (h : sc.Orderly) (hr : sc.reserve = .ok (slot, sc')) :
    sc.Between sc' slot ∧ sc'.Orderly ∧ sc.Grows sc' ∧ ¬ sc'.Open slot := by
  obtain ⟨rfl, rfl⟩ := reserve_ok hr
  refine ⟨⟨.inr (Nat.le_refl _), Nat.le_max_right ..⟩,
    ⟨fun l hl => Nat.lt_succ_of_lt (h.slot l hl), h.depth, Nat.le_max_right ..⟩,
    ⟨⟨rfl, rfl, [], rfl, by simp⟩, Nat.le_succ _, Nat.le_max_left .., fun _ => .inl⟩, ?_⟩
  rintro (⟨l, hl, hslot⟩ | hle)
  · exact Nat.ne_of_lt (h.slot l hl) hslot
  · exact Nat.not_succ_le_self _ hle

theorem Orderly.declare (h : sc.Orderly) (hd : sc.declare name ty = .ok (slot, sc')) :
    sc.Between sc' slot ∧ sc'.Orderly ∧ sc.Grows sc' := by
  obtain ⟨sc₁, hr, rfl⟩ := declare_ok hd
  obtain ⟨rfl, rfl⟩ := reserve_ok hr
  refine ⟨⟨.inr (Nat.le_refl _), Nat.le_max_right ..⟩,
    ⟨List.forall_mem_cons.mpr ⟨Nat.lt_succ_self _, fun l hl => Nat.lt_succ_of_lt (h.slot l hl)⟩,
      List.forall_mem_cons.mpr ⟨Nat.le_refl _, h.depth⟩, Nat.le_max_right ..⟩,
    ⟨rfl, rfl, [⟨name, sc.depth, sc.nextSlot, ty⟩], rfl, by simp⟩, Nat.le_succ _,
    Nat.le_max_left .., ?_⟩
  rintro _ ⟨l, hl, rfl⟩
  obtain rfl | hl := List.mem_cons.mp hl
  · exact .inr (Nat.le_refl _)
  · exact .inl ⟨l, hl, rfl⟩

theorem named_of_resolve {l : Local} (h : sc.resolve? name = some l) : sc.Named l.slot :=
  ⟨l, List.mem_of_find?_eq_some h, rfl⟩

end Scope

/-! ## Expressions -/

namespace Typing

open Annotated (Expr Place)

theorem widen_names {P : Nat → Prop} {v : Expr} {ty : Ty} (h : v.NamesOnly P) :
    (widen v ty).NamesOnly P := by
  rw [widen]
  split
  · exact Expr.namesOnly_of_none rfl rfl h
  · exact h

theorem binary_names {P : Nat → Prop} {line : UInt32} {op : BinaryOp} {left right v : Expr}
    (hl : left.NamesOnly P) (hr : right.NamesOnly P)
    (h : (binary line op left right).Gives v) : v.NamesOnly P := by
  have hboth : ∀ {a b : Expr} {ty : Ty}, a.NamesOnly P → b.NamesOnly P →
      (Expr.binary ty op a b).NamesOnly P := fun ha hb =>
    Expr.namesOnly_of_none rfl rfl (List.forall_mem_append.mpr ⟨ha, hb⟩)
  obtain ⟨-, -, -, rfl⟩ | ⟨-, -, ⟨-, -, -, -, -, rfl⟩ | h⟩ := gives_binary_cases h
  · exact hboth hl hr
  · exact hboth hl hr
  · obtain ⟨-, rfl⟩ | ⟨-, -, rfl⟩ := gives_numeric h
    · exact hboth hl hr
    · exact hboth (widen_names hl) (widen_names hr)

mutual

/-- An expression names the slots of locals in view. -/
theorem expr_names {scope : Scope} {used : Bool} (e : Source.Expr) {v : Expr}
    (h : (expr scope used e).Gives v) : v.NamesOnly scope.Named := by
  match e with
  | .literal _ value =>
      obtain rfl := Reported.gives_pure.mp h
      cases value <;> exact Expr.namesOnly_of_none rfl rfl (by simp)
  | .var line name =>
      obtain ⟨l, hl, rfl⟩ := gives_var h
      refine Expr.namesOnly_of_parts rfl (fun i hi => ?_) (by simp)
      obtain rfl := Option.some.inj hi
      exact Scope.named_of_resolve hl
  | .field line target name ty =>
      obtain ⟨o, ho, -, rfl⟩ := gives_field h
      exact Expr.namesOnly_of_none rfl rfl (expr_names target ho)
  | .assignment line target value =>
      obtain ⟨p, ty, v', hp, hv', -, rfl⟩ := gives_assignment h
      have hvalue : (widen v' ty).NamesOnly scope.Named := widen_names (expr_names value hv')
      have hplace := place_names target hp
      cases p with
      | slot slot =>
          refine Expr.namesOnly_of_parts rfl (fun i hi => ?_) hvalue
          obtain rfl := Option.some.inj hi
          exact hplace
      | field o name =>
          exact Expr.namesOnly_of_none rfl rfl (List.forall_mem_append.mpr ⟨hplace, hvalue⟩)
  | .binary line op left right =>
      obtain ⟨a, b, ha, hb, h⟩ := gives_binary h
      exact binary_names (expr_names left ha) (expr_names right hb) h
  | .unary line op argument =>
      obtain ⟨a, ha, -, rfl⟩ := gives_unary h
      exact Expr.namesOnly_of_none rfl rfl (expr_names argument ha)
  | .update line op argument =>
      obtain ⟨p, ty, hp, -, rfl⟩ := gives_update h
      have hplace := place_names argument hp
      cases p with
      | slot slot =>
          refine Expr.namesOnly_of_parts rfl (fun i hi => ?_) (by simp)
          obtain rfl := Option.some.inj hi
          exact hplace
      | field o name => exact Expr.namesOnly_of_none rfl rfl hplace
  | .call line name arguments returns =>
      obtain ⟨vs, hvs, rfl⟩ := gives_call h
      exact Expr.namesOnly_of_none rfl rfl (exprs_names arguments hvs)
  | .new line className =>
      obtain rfl := Reported.gives_pure.mp h
      exact Expr.namesOnly_of_none rfl rfl (by simp)
termination_by structural e

theorem exprs_names {scope : Scope} (es : List Source.Expr) {vs : List Expr}
    (h : (exprs scope es).Gives vs) : ∀ part ∈ Expr.allParts vs, ∀ i ∈ part.slot?,
      scope.Named i := by
  match es with
  | [] =>
      obtain rfl := gives_exprs_nil h
      intro part hpart
      cases hpart
  | e :: rest =>
      obtain ⟨v, vs', hv, hvs', rfl⟩ := gives_exprs_cons h
      exact List.forall_mem_append.mpr ⟨expr_names e hv, exprs_names rest hvs'⟩
termination_by structural es

/-- A place is the slot of a local in view, or an expression leads to it. -/
theorem place_names {scope : Scope} {what : String} (e : Source.Expr) {p : Place Expr} {ty : Ty}
    (h : (place scope what e).Gives (some (p, ty))) :
    match p with
    | .slot slot => scope.Named slot
    | .field target _ => target.NamesOnly scope.Named := by
  match e with
  | .var line name =>
      obtain ⟨_, _, ⟨⟩, l, hl, rfl, rfl⟩ := gives_place h
      exact Scope.named_of_resolve hl
  | .field line target name ty' =>
      obtain ⟨_, _, ⟨⟩, o, ho, -, rfl, rfl⟩ := gives_place h
      exact expr_names target ho
  | .literal .. | .assignment .. | .binary .. | .unary .. | .update .. | .call .. | .new .. =>
      obtain ⟨_, _, -, hno⟩ := gives_place h
      exact hno.elim
termination_by structural e

end

end Typing

/-! ## Statements -/

namespace Annotated.Stmt

/-- The slots that the statement names are as said, and if it is a try it shields the
object in flight. -/
structure Heeds (P : Nat → Prop) (s : Stmt) : Prop where
  names : s.NamesOnly P
  shields : s.Shields

variable {P Q : Nat → Prop} {s : Stmt}

theorem heeds_mono {ts : List Stmt} (h : ∀ t ∈ ts, t.Heeds P) (hPQ : ∀ i, P i → Q i) :
    ∀ t ∈ ts, t.Heeds Q :=
  fun t ht => ⟨(h t ht).names.mono hPQ, (h t ht).shields⟩

/-- A statement that is not a try and names slots at most in its expressions. -/
theorem heeds_of_exprs (hwrites : s.writes = []) (hshields : s.Shields)
    (h : ∀ e ∈ s.exprs, e.NamesOnly P) : s.Heeds P :=
  ⟨⟨by simp [hwrites], h⟩, hshields⟩

end Annotated.Stmt

namespace Analysis

open Annotated (Stmt Expr Catch)
open Annotated.Stmt (heeds_mono heeds_of_exprs)

theorem Tests.names {sc : Scope} {e : Source.Expr} {v : Expr} (h : Tests sc e v) : v.NamesOnly sc.Named :=
  Typing.expr_names e h.1

/-- What is checked one after the other. -/
theorem heeds_append {sc sc₁ sc₂ : Scope} {ts us : List Stmt}
    (ht : ∀ t ∈ ts, t.Heeds (sc.Between sc₁)) (hgrows : sc.Grows sc₁)
    (hu : ∀ u ∈ us, u.Heeds (sc₁.Between sc₂)) (hle : sc₁.maxSlots ≤ sc₂.maxSlots) :
    ∀ t ∈ ts ++ us, t.Heeds (sc.Between sc₂) :=
  List.forall_mem_append.mpr ⟨heeds_mono ht ((Scope.Grows.refl sc).between hle),
    heeds_mono hu (hgrows.between (Nat.le_refl _))⟩

variable {policy : ContinuePolicy}

mutual

theorem Becomes.heeds (s : Source.Stmt) {st st' : Progress} {t : Stmt}
    (h : Becomes policy s st t st') (hsc : st.scope.Orderly) :
    (∀ part ∈ t.parts, part.Heeds (st.scope.Between st'.scope)) ∧ st'.scope.Orderly ∧
      st.scope.Grows st'.scope := by
  match s with
  | .block ⟨_, body⟩ =>
      obtain ⟨ts, st₁, hts, rfl, rfl⟩ := h
      obtain ⟨hparts, -, hin⟩ := AllBecome.heeds body hts hsc.enter
      exact ⟨List.forall_mem_cons.mpr ⟨heeds_of_exprs rfl trivial (by simp [Stmt.exprs]), hparts⟩,
        hsc.leave hin⟩
  | .localDecl _ name ty none =>
      obtain ⟨-, rfl, slot, sc, hslot, rfl⟩ := h
      obtain ⟨-, hafter⟩ := hsc.declare hslot
      exact ⟨List.forall_mem_singleton.mpr (heeds_of_exprs rfl trivial (by simp [Stmt.exprs])),
        hafter⟩
  | .localDecl _ name ty (some e) =>
      obtain ⟨-, v, slot, sc, hv, -, hslot, rfl, rfl⟩ := h
      obtain ⟨hopen, hsc', hgrows⟩ := hsc.declare hslot
      have hvalue : (Typing.widen v ty).NamesOnly (st.scope.Between sc) :=
        (Typing.widen_names (Typing.expr_names e hv)).mono (hsc.between hgrows.most)
      exact ⟨List.forall_mem_singleton.mpr ⟨⟨List.forall_mem_singleton.mpr hopen,
        List.forall_mem_singleton.mpr hvalue⟩, trivial⟩, hsc', hgrows⟩
  | .expression _ e =>
      obtain ⟨v, hv, rfl, rfl⟩ := h
      have hvalue := (Typing.expr_names e hv).mono (hsc.between (Nat.le_refl _))
      exact ⟨List.forall_mem_singleton.mpr (heeds_of_exprs rfl trivial
        (List.forall_mem_singleton.mpr hvalue)), hsc, .refl _⟩
  | .ifElse _ c s none =>
      obtain ⟨v, t₁, hv, ht₁, rfl⟩ := h
      obtain ⟨hparts, hsc', hgrows⟩ := Becomes.heeds s ht₁ hsc
      have htest := hv.names.mono (hsc.between hgrows.most)
      exact ⟨List.forall_mem_cons.mpr ⟨heeds_of_exprs rfl trivial
        (List.forall_mem_singleton.mpr htest), hparts⟩, hsc', hgrows⟩
  | .ifElse _ c s (some s') =>
      obtain ⟨v, t₁, st₁, t₂, hv, ht₁, ht₂, rfl⟩ := h
      obtain ⟨hparts₁, hsc₁, hgrows₁⟩ := Becomes.heeds s ht₁ hsc
      obtain ⟨hparts₂, hsc', hgrows₂⟩ := Becomes.heeds s' ht₂ hsc₁
      have hgrows := hgrows₁.trans hgrows₂
      have htest := hv.names.mono (hsc.between hgrows.most)
      have hboth := heeds_append hparts₁ hgrows₁ hparts₂ hgrows₂.most
      exact ⟨List.forall_mem_cons.mpr ⟨heeds_of_exprs rfl trivial
        (List.forall_mem_singleton.mpr htest), hboth⟩, hsc', hgrows⟩
  | .whileLoop _ c body =>
      obtain ⟨j, v, t₁, hv, -, ht₁, rfl⟩ := h
      obtain ⟨hparts, hsc', hgrows⟩ := Becomes.heeds body ht₁ hsc
      have htest := hv.names.mono (hsc.between hgrows.most)
      exact ⟨List.forall_mem_cons.mpr ⟨heeds_of_exprs rfl trivial
        (List.forall_mem_singleton.mpr htest), hparts⟩, hsc', hgrows⟩
  | .doLoop _ body c =>
      obtain ⟨j, v, t₁, -, ht₁, hv, rfl⟩ := h
      obtain ⟨hparts, hsc', hgrows⟩ := Becomes.heeds body ht₁ hsc
      -- The condition is checked last, where locals of the body may still be in view.
      have htest := (hv.names.mono (hsc'.between (Nat.le_refl _))).mono
        (hgrows.between (Nat.le_refl _))
      exact ⟨List.forall_mem_cons.mpr ⟨heeds_of_exprs rfl trivial
        (List.forall_mem_singleton.mpr htest), hparts⟩, hsc', hgrows⟩
  | .forLoop _ init c update body =>
      obtain ⟨j, v, ts₁, st₁, ts₂, st₂, t₁, st₃, hts₁, hv, hts₂, -, ht₁, rfl, rfl⟩ := h
      obtain ⟨hparts₁, hsc₁, hgrows₁⟩ := AllBecome.heeds init hts₁ hsc.enter
      obtain ⟨hparts₂, hsc₂, hgrows₂⟩ := AllBecome.heeds update hts₂ hsc₁
      obtain ⟨hparts₃, -, hgrows₃⟩ := Becomes.heeds body ht₁ hsc₂
      have hlater := hgrows₂.trans hgrows₃
      have htest : ∀ e ∈ v.toList, e.NamesOnly (st.scope.enter.Between st₃.scope) := by
        intro e he
        cases hv with
        | none => cases he
        | some hv =>
            obtain rfl := List.mem_singleton.mp he
            exact (hv.names.mono (hsc₁.between (Nat.le_refl _))).mono (hgrows₁.between hlater.most)
      have hlists := List.forall_mem_append.mpr ⟨heeds_mono hparts₁
        ((Scope.Grows.refl st.scope.enter).between hlater.most), heeds_mono hparts₂
        (hgrows₁.between hgrows₃.most)⟩
      exact ⟨List.forall_mem_cons.mpr ⟨heeds_of_exprs rfl trivial htest,
        List.forall_mem_append.mpr ⟨hlists, heeds_mono hparts₃
          ((hgrows₁.trans hgrows₂).between (Nat.le_refl _))⟩⟩, hsc.leave (hgrows₁.trans hlater)⟩
  | .switch _ selector groups =>
      obtain ⟨id, hasBreak, v, labels, bodies, d, hv, -, -, -, hbodies, -, rfl⟩ := h
      obtain ⟨hparts, hsc', hgrows⟩ := GroupsBecome.heeds groups hbodies hsc
      have hkey := (Typing.expr_names selector hv).mono (hsc.between hgrows.most)
      exact ⟨List.forall_mem_cons.mpr ⟨heeds_of_exprs rfl trivial
        (List.forall_mem_singleton.mpr hkey), hparts⟩, hsc', hgrows⟩
  | .breakJump _ =>
      obtain ⟨id, enclosing, -, rfl, rfl⟩ := h
      exact ⟨List.forall_mem_singleton.mpr (heeds_of_exprs rfl trivial (by simp [Stmt.exprs])),
        hsc, .refl _⟩
  | .continueJump _ =>
      obtain ⟨⟨id, rfl⟩ | rfl, enclosing, rfl⟩ := h.continueJump <;>
        exact ⟨List.forall_mem_singleton.mpr (heeds_of_exprs rfl trivial (by simp [Stmt.exprs])),
          hsc, .refl _⟩
  | .tryCatch _ ⟨_, body⟩ catches none =>
      obtain ⟨ts, st₁, cs, hts, hcs, rfl⟩ := h
      obtain ⟨hparts₁, -, hgrows₁⟩ := AllBecome.heeds body hts hsc.enter
      obtain ⟨hsc₁, hgrows₁⟩ := hsc.leave hgrows₁
      obtain ⟨hslots, hparts₂, hsc', hgrows₂⟩ := ClausesBecome.heeds catches hcs hsc₁
      have hself : ∀ i ∈ Stmt.writes (.tryCatch ts cs none), st.scope.Between st'.scope i := by
        intro i hi
        exact hgrows₁.between (Nat.le_refl _) i (hslots i (by simpa [Stmt.writes] using hi))
      have hparts₁ : ∀ part ∈ Stmt.allParts ts, part.Heeds (st.scope.Between st₁.leave.scope) :=
        hparts₁
      exact ⟨List.forall_mem_cons.mpr ⟨⟨⟨hself, by simp [Stmt.exprs]⟩, trivial⟩,
        heeds_append hparts₁ hgrows₁ hparts₂ hgrows₂.most⟩, hsc', hgrows₁.trans hgrows₂⟩
  | .tryCatch _ ⟨_, body⟩ catches (some ⟨_, last⟩) =>
      obtain ⟨ts, st₁, cs, st₂, slot, sc, ts', st₃, hts, hcs, hslot, hts', rfl, rfl⟩ := h
      obtain ⟨hparts₁, -, hgrows₁⟩ := AllBecome.heeds body hts hsc.enter
      obtain ⟨hsc₁, hgrows₁⟩ := hsc.leave hgrows₁
      obtain ⟨hslots, hparts₂, hsc₂, hgrows₂⟩ := ClausesBecome.heeds catches hcs hsc₁
      obtain ⟨hopen, hsc₃, hgrows₃, hclosed⟩ := hsc₂.enter.reserve hslot
      obtain ⟨hparts₃, -, hgrows₄⟩ := AllBecome.heeds last hts' hsc₃
      obtain ⟨hsc', hgrows'⟩ := hsc₂.leave (hgrows₃.trans hgrows₄)
      have hgrows := hgrows₁.trans hgrows₂
      have hself : ∀ i ∈ Stmt.writes (.tryCatch ts cs (some ⟨slot, ts'⟩)),
          st.scope.Between st₃.leave.scope i := by
        intro i hi
        obtain hi | rfl : i ∈ cs.map (·.slot) ∨ i = slot := by simpa [Stmt.writes] using hi
        · exact hgrows₁.between hgrows'.most i (hslots i hi)
        · exact hgrows.between hgrows₄.most i hopen
      -- What the body names is open after the slot was handed out, and the slot is not.
      have hshields : Stmt.Shields (.tryCatch ts cs (some ⟨slot, ts'⟩)) := by
        intro s hs
        refine ((hparts₃ s hs).names.mono ?_).writesOnly
        rintro _ hi rfl
        exact hclosed hi.1
      have hlists := List.forall_mem_append.mpr ⟨heeds_mono hparts₁
        ((Scope.Grows.refl st.scope).between (hgrows₂.trans hgrows').most), heeds_mono hparts₂
        (hgrows₁.between hgrows'.most)⟩
      have hlast := heeds_mono (heeds_mono hparts₃ (hgrows₃.between (Nat.le_refl _)))
        (hgrows.between (Nat.le_refl _))
      exact ⟨List.forall_mem_cons.mpr ⟨⟨⟨hself, by simp [Stmt.exprs]⟩, hshields⟩,
        List.forall_mem_append.mpr ⟨hlists, hlast⟩⟩, hsc', hgrows.trans hgrows'⟩
  | .throw _ e =>
      obtain ⟨v, hv, -, rfl, rfl⟩ := h
      have hvalue := (Typing.expr_names e hv).mono (hsc.between (Nat.le_refl _))
      exact ⟨List.forall_mem_singleton.mpr (heeds_of_exprs rfl trivial
        (List.forall_mem_singleton.mpr hvalue)), hsc, .refl _⟩
  | .empty =>
      obtain ⟨rfl, rfl⟩ := h
      exact ⟨List.forall_mem_singleton.mpr (heeds_of_exprs rfl trivial (by simp [Stmt.exprs])),
        hsc, .refl _⟩
termination_by structural s

theorem AllBecome.heeds (body : List Source.Stmt) {st st' : Progress} {ts : List Stmt}
    (h : AllBecome policy body st ts st') (hsc : st.scope.Orderly) :
    (∀ part ∈ Stmt.allParts ts, part.Heeds (st.scope.Between st'.scope)) ∧ st'.scope.Orderly ∧
      st.scope.Grows st'.scope := by
  match body with
  | [] =>
      obtain ⟨rfl, rfl⟩ := h
      exact ⟨by simp [Stmt.allParts], hsc, .refl _⟩
  | s :: rest =>
      obtain ⟨t, st₁, ts', ht, hts', rfl⟩ := h
      obtain ⟨hparts, hsc₁, hgrows⟩ := Becomes.heeds s ht hsc
      obtain ⟨hparts', hsc', hgrows'⟩ := AllBecome.heeds rest hts' hsc₁
      exact ⟨heeds_append hparts hgrows hparts' hgrows'.most, hsc', hgrows.trans hgrows'⟩
termination_by structural body

theorem GroupsBecome.heeds (groups : List (Source.Group Source.Stmt)) {st st' : Progress}
    {bodies : List (List Stmt)} (h : GroupsBecome policy groups st bodies st')
    (hsc : st.scope.Orderly) :
    (∀ part ∈ Stmt.groupParts bodies, part.Heeds (st.scope.Between st'.scope)) ∧ st'.scope.Orderly
      ∧ st.scope.Grows st'.scope := by
  match groups with
  | [] =>
      obtain ⟨rfl, rfl⟩ := h
      exact ⟨by simp [Stmt.groupParts], hsc, .refl _⟩
  | ⟨_, body⟩ :: rest =>
      obtain ⟨ts, st₁, bodies', hts, hbodies', rfl⟩ := h
      obtain ⟨hparts, -, hin⟩ := AllBecome.heeds body hts hsc.enter
      obtain ⟨hsc₁, hgrows⟩ := hsc.leave hin
      obtain ⟨hparts', hsc', hgrows'⟩ := GroupsBecome.heeds rest hbodies' hsc₁
      have hparts : ∀ part ∈ Stmt.allParts ts, part.Heeds (st.scope.Between st₁.leave.scope) :=
        hparts
      exact ⟨heeds_append hparts hgrows hparts' hgrows'.most, hsc', hgrows.trans hgrows'⟩
termination_by structural groups

theorem ClausesBecome.heeds (clauses : List (Source.CatchClause Source.Stmt)) {st st' : Progress}
    {cs : List (Catch Stmt)} (h : ClausesBecome policy clauses st cs st') (hsc : st.scope.Orderly) :
    (∀ i ∈ cs.map (·.slot), st.scope.Between st'.scope i) ∧
      (∀ part ∈ Stmt.clauseParts cs, part.Heeds (st.scope.Between st'.scope)) ∧
      st'.scope.Orderly ∧ st.scope.Grows st'.scope := by
  match clauses with
  | [] =>
      obtain ⟨rfl, rfl⟩ := h
      exact ⟨by simp, by simp [Stmt.clauseParts], hsc, .refl _⟩
  | ⟨_, exceptionType, param, ⟨_, body⟩⟩ :: rest =>
      obtain ⟨slot, sc, ts, st₁, cs', hslot, hts, hcs', rfl⟩ := h
      obtain ⟨hopen, hsc₁, hgrows₁⟩ := hsc.enter.declare hslot
      obtain ⟨hparts, -, hgrows₂⟩ := AllBecome.heeds body hts hsc₁
      obtain ⟨hsc₂, hgrows⟩ := hsc.leave (hgrows₁.trans hgrows₂)
      obtain ⟨hslots', hparts', hsc', hgrows'⟩ := ClausesBecome.heeds rest hcs' hsc₂
      have hparts : ∀ part ∈ Stmt.allParts ts, part.Heeds (st.scope.Between st₁.leave.scope) :=
        heeds_mono hparts (hgrows₁.between (Nat.le_refl _))
      refine ⟨List.forall_mem_cons.mpr ⟨?_, fun i hi => ?_⟩,
        heeds_append hparts hgrows hparts' hgrows'.most, hsc', hgrows.trans hgrows'⟩
      · exact (Scope.Grows.refl st.scope).between (Nat.le_trans hgrows₂.most hgrows'.most) slot
          hopen
      · exact hgrows.between (Nat.le_refl _) i (hslots' i hi)
termination_by structural clauses

end

end Analysis

theorem check_heeds {settings : Settings} {p : Source.Program} {h : Annotated.Program}
    (hcheck : check settings p = .ok h) :
    ∀ s ∈ Annotated.Stmt.allParts h.body, s.Heeds (· < h.maxSlots) := by
  obtain ⟨st, hbody, -, hmax, -⟩ := check_becomes hcheck
  have hstart : Scope.Orderly { limit := settings.maxLocals } :=
    ⟨by simp, by simp, Nat.le_refl _⟩
  obtain ⟨hparts, -⟩ := Analysis.AllBecome.heeds p.body hbody hstart
  rw [hmax]
  exact Annotated.Stmt.heeds_mono hparts fun _ hi => hi.2

/-- A tree that checking hands on names no slot that it does not count. -/
theorem check_slots {settings : Settings} {p : Source.Program} {h : Annotated.Program}
    (hcheck : check settings p = .ok h) :
    ∀ s ∈ Annotated.Stmt.allParts h.body, s.NamesOnly (· < h.maxSlots) :=
  fun s hs => (check_heeds hcheck s hs).names

/-- Every try of a tree that checking hands on shields the object in flight. -/
theorem check_shields {settings : Settings} {p : Source.Program} {h : Annotated.Program}
    (hcheck : check settings p = .ok h) : ∀ s ∈ Annotated.Stmt.allParts h.body, s.Shields :=
  fun s hs => (check_heeds hcheck s hs).shields

end MethodCompiler
