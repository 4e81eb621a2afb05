import MethodCompiler.Compile
import MethodCompiler.Proofs.Elaboration
import Mathlib.Data.Fintype.Card

/-!
# Checking gives sound trees

Checking never comes upon a defect, and where it has nothing to complain about the
tree it gives is sound. The first holds of every body, whatever there is to
complain about: constructs are closed in the order in which they were opened,
scopes too, and the case values of a switch are distinct, so that even the
estimates of its cost stay within 64 bits.

A step of checking is followed through the open constructs. It leaves them as they
are, except that jumps inside it have marked the innermost one. The tree of a step
is sound for that construct with the marks it has at the end, when it is closed,
and not yet with those it has after the step. So `Encloses` speaks of every frame
that has at least the marks so far.

Slots, and the numbers of constructs, are kept in a few bits, and are natural numbers
here. What makes up for it is said along the way, of steps with complaints too: slots
never pass their limit, and checking hands out one number for each loop and switch of
the text.
-/

namespace MethodCompiler

theorem ok_bind {a : α} {f : α → Except ε β} : (Except.ok a >>= f) = f a := rfl

/-! ## Dispatch -/

theorem Checked.within_ok {op : CheckedOp} {n : Int}
    (h : -9223372036854775808 ≤ n ∧ n < 9223372036854775808) : Checked.within op n = .ok n :=
  if_pos h

theorem DispatchCost.estimate_ok (lo hi : Int32) {count : Nat} (h : count ≤ 4294967296) :
    DispatchCost.estimate lo hi count =
      .ok ⟨5 + hi.toInt - lo.toInt, 3, 3 + 2 * count, count⟩ := by
  have hn : (Int64.ofNat count).toInt = count := Int64.toInt_ofNat_of_lt (by omega)
  have hlo := Int32.toInt_lt lo
  have hlo' := Int32.le_toInt lo
  have hhi := Int32.toInt_lt hi
  have hhi' := Int32.le_toInt hi
  simp only [DispatchCost.estimate, hn, Checked.add, Checked.subtract, Checked.multiply]
  rw [Checked.within_ok (by omega), ok_bind, Checked.within_ok (by omega), ok_bind,
    Checked.within_ok (by omega), ok_bind, Checked.within_ok (by omega), ok_bind]
  rfl

theorem DispatchCost.tableWins_ok {a b n : Int} (ha : 0 ≤ a + 4294967296 ∧ a < 8589934592)
    (hb : 0 ≤ b ∧ b < 17179869184) (hn : 0 ≤ n ∧ n ≤ 4294967296) :
    DispatchCost.tableWins ⟨a, 3, b, n⟩ = .ok (decide (a + 9 ≤ b + 3 * n)) := by
  simp only [DispatchCost.tableWins, Checked.add, Checked.multiply]
  rw [Checked.within_ok (by omega), ok_bind, Checked.within_ok (by omega), ok_bind,
    Checked.within_ok (by omega), ok_bind, Checked.within_ok (by omega), ok_bind]
  rfl

/-- Estimates for at most as many values as there are ints stay within 64 bits. -/
theorem DispatchKind.choose_ok (lo hi : Int32) {count : Nat} (h : count ≤ 4294967296) :
    ∃ kind, DispatchKind.choose lo hi count = .ok kind := by
  have hlo := Int32.toInt_lt lo
  have hlo' := Int32.le_toInt lo
  have hhi := Int32.toInt_lt hi
  have hhi' := Int32.le_toInt hi
  by_cases h0 : count = 0
  · exact ⟨.lookup, by rw [DispatchKind.choose, if_pos h0]; rfl⟩
  · rw [DispatchKind.choose, if_neg h0, DispatchCost.estimate_ok lo hi h, ok_bind,
      DispatchCost.tableWins_ok (by omega) (by omega) (by omega), ok_bind]
    exact ⟨_, rfl⟩

namespace Dispatch

/-- There are at most as many distinct case values as there are ints. -/
theorem length_le_of_nodup {values : List Int32} (h : values.Nodup) :
    values.length ≤ 4294967296 := by
  have hbits : (values.map Int32.toBitVec).Nodup :=
    h.map fun a b hab => Int32.toBitVec_inj.mp hab
  have hfin : ((values.map Int32.toBitVec).map BitVec.toFin).Nodup :=
    hbits.map fun a b hab => BitVec.toFin_inj.mp hab
  simpa using hfin.length_le_card

instance : Std.LawfulOrderMax Int32 where
  max_le_iff a b c := by simp only [max]; grind
  max_eq_or a b := by simp only [max]; grind

theorem lo_le_hi {values : List Int32} : values.min?.getD 0 ≤ values.max?.getD 0 := by
  cases hmin : values.min? with
  | none =>
      obtain rfl := List.min?_eq_none_iff.mp hmin
      decide
  | some lo =>
      cases hmax : values.max? with
      | none =>
          obtain rfl := List.max?_eq_none_iff.mp hmax
          simp at hmin
      | some hi =>
          exact (List.max?_eq_some_iff.mp hmax).2 lo (List.min?_mem hmin)

theorem min_le {values : List Int32} {v : Int32} (h : v ∈ values) : values.min?.getD 0 ≤ v := by
  cases hmin : values.min? with
  | none =>
      obtain rfl := List.min?_eq_none_iff.mp hmin
      simp at h
  | some lo => exact (List.min?_eq_some_iff.mp hmin).2 v h

theorem le_max {values : List Int32} {v : Int32} (h : v ∈ values) : v ≤ values.max?.getD 0 := by
  cases hmax : values.max? with
  | none =>
      obtain rfl := List.max?_eq_none_iff.mp hmax
      simp at h
  | some hi => exact (List.max?_eq_some_iff.mp hmax).2 v h

/-- Distinct case values always have a dispatch. -/
theorem ofCases_ok {cases : List (Int32 × Nat)} (defaultGroup : Option Nat)
    (h : (cases.map (·.1)).Nodup) :
    ∃ d, ofCases cases defaultGroup = .ok d ∧ ∀ groups, (∀ c ∈ cases, c.2 < groups) →
      (∀ g, defaultGroup = some g → g < groups) → d.Sound groups := by
  have hlen := length_le_of_nodup h
  rw [List.length_map] at hlen
  obtain ⟨kind, hkind⟩ := DispatchKind.choose_ok ((cases.map (·.1)).min?.getD 0)
    ((cases.map (·.1)).max?.getD 0) hlen
  have hok : ofCases cases defaultGroup = .ok ⟨(cases.map (·.1)).min?.getD 0,
      (cases.map (·.1)).max?.getD 0, cases.length, cases, defaultGroup, kind⟩ := by
    rw [ofCases, hkind, ok_bind]
    rfl
  refine ⟨_, hok, ?_⟩
  intro groups hcases hdefault
  exact {
    count_eq := rfl
    nodup := h
    group_lt := hcases
    default_lt := hdefault
    lo_le_hi := lo_le_hi
    lo_le := fun c hc => min_le (List.mem_map_of_mem hc)
    le_hi := fun c hc => le_max (List.mem_map_of_mem hc) }

end Dispatch

/-! ## Expressions -/

namespace Typing

open Annotated (Expr Place)

/-- A place whose object, if it has one, is sound. -/
def SoundPlace : Place Expr → Prop
  | .slot _ => True
  | .field target _ => target.Sound true

theorem widen_sound {e : Expr} (h : e.Sound true) (target : Ty) : (widen e target).Sound true := by
  rw [widen]
  split
  · next hw => exact ⟨hw, h⟩
  · exact h

theorem coerce_sound {e : Expr} {target : Ty} {line : UInt32} (h : e.Sound true) :
    (coerce e target line).value.Sound true := by
  rw [coerce]
  split
  · exact h
  · split
    · exact widen_sound h target
    · exact h

theorem asObject_value {line : UInt32} {e : Expr} : (asObject line e).value = e := by
  rw [asObject]
  split <;> rfl

theorem assign_sound {ty : Ty} {p : Place Expr} {v : Expr} {used : Bool} (hp : SoundPlace p)
    (hv : v.Sound true) : (Expr.assign ty p v used).Sound used := by
  cases p with
  | slot slot => exact ⟨rfl, hv⟩
  | field target name => exact ⟨rfl, hp, hv⟩

theorem binary_sound {line : UInt32} {op : BinaryOp} {left right : Expr} (hl : left.Sound true)
    (hr : right.Sound true) (used : Bool) : (binary line op left right).value.Sound used := by
  have hnumeric : (binary.numeric line op left right).value.Sound used := by
    rw [binary.numeric]
    simp only [Reported.value_bind]
    split
    · exact ⟨hl, hr⟩
    · exact ⟨widen_sound hl _, widen_sound hr _⟩
  rw [binary.eq_def]
  split
  · exact ⟨hl, hr⟩
  · exact ⟨hl, hr⟩
  all_goals first
    | exact hnumeric
    | split
      · exact hnumeric
      · split <;> exact ⟨hl, hr⟩

/-- A step of a place fails only with a complaint. -/
theorem increment_sound {line : UInt32} {op : UpdateOp} {used : Bool} {p : Place Expr} {ty : Ty}
    (hp : SoundPlace p) (h : (increment line op used (some (p, ty))).diagnostics = []) :
    (increment line op used (some (p, ty))).value.Sound used := by
  rw [increment] at h ⊢
  split
  · cases p with
    | slot slot => rfl
    | field target name => exact ⟨rfl, hp⟩
  · next hty =>
      -- A type that cannot be stepped is none of the numeric ones.
      rw [if_neg hty] at h
      revert h hty
      cases ty <;> simp [Ty.isIncrementable, Ty.expectOneOf, Ty.numeric, Ty.fits, Reported.report]

mutual

theorem expr_sound (scope : Scope) (used : Bool) (e : Source.Expr)
    (h : (expr scope used e).diagnostics = []) : (expr scope used e).value.Sound used := by
  match e with
  | .literal _ v => cases v <;> exact trivial
  | .var line name =>
      rw [expr] at h ⊢
      cases hr : scope.resolve? name with
      | none => simp [hr, Reported.report] at h
      | some l => exact trivial
  | .field line target name ty =>
      simp only [expr, Reported.diagnostics_bind, List.append_eq_nil_iff] at h
      simp only [expr, Reported.value_bind, asObject_value]
      exact expr_sound scope true target h.1
  | .assignment line target value =>
      simp only [expr, Reported.diagnostics_bind, List.append_eq_nil_iff] at h
      obtain ⟨p, ty, hp, hsound⟩ := place_sound scope "assignment" target h.1
      simp only [hp, Reported.diagnostics_bind, List.append_eq_nil_iff] at h
      simp only [expr, Reported.value_bind, hp]
      exact assign_sound hsound (coerce_sound (expr_sound scope true value h.2.1))
  | .binary line op left right =>
      simp only [expr, Reported.diagnostics_bind, List.append_eq_nil_iff] at h
      exact binary_sound (expr_sound scope true left h.1) (expr_sound scope true right h.2.1) used
  | .unary line op argument =>
      simp only [expr, Reported.diagnostics_bind, List.append_eq_nil_iff] at h
      exact expr_sound scope true argument h.1
  | .update line op argument =>
      rw [expr] at h ⊢
      split
      · next hplace =>
          simp only [hplace, if_true, Reported.diagnostics_bind, List.append_eq_nil_iff] at h
          obtain ⟨p, ty, hp, hsound⟩ := place_sound scope op.symbol argument h.1
          simp only [hp] at h
          simp only [Reported.value_bind, hp]
          exact increment_sound hsound h.2
      · next hplace => simp [hplace, Reported.report] at h
  | .call line callee arguments returns =>
      simp only [expr, Reported.diagnostics_bind, List.append_eq_nil_iff] at h
      exact exprs_sound scope arguments h.1
  | .new line className => exact trivial
termination_by structural e

theorem exprs_sound (scope : Scope) (es : List Source.Expr)
    (h : (exprs scope es).diagnostics = []) : Expr.AllSound (exprs scope es).value := by
  match es with
  | [] => exact trivial
  | e :: rest =>
      simp only [exprs, Reported.diagnostics_bind, List.append_eq_nil_iff] at h
      exact ⟨expr_sound scope true e h.1, exprs_sound scope rest h.2.1⟩
termination_by structural es

theorem place_sound (scope : Scope) (what : String) (e : Source.Expr)
    (h : (place scope what e).diagnostics = []) :
    ∃ p ty, (place scope what e).value = some (p, ty) ∧ SoundPlace p := by
  match e with
  | .var line name =>
      rw [place] at h ⊢
      cases hr : scope.resolve? name with
      | none => simp [hr, Reported.report] at h
      | some l => exact ⟨.slot l.slot, l.ty, rfl, trivial⟩
  | .field line target name ty =>
      simp only [place, Reported.diagnostics_bind, List.append_eq_nil_iff] at h
      refine ⟨.field (expr scope true target).value name, ty, ?_, ?_⟩
      · simp only [place, Reported.value_bind, asObject_value, Reported.value_pure]
      · exact expr_sound scope true target h.1
  | .literal .. | .assignment .. | .binary .. | .unary .. | .update .. | .call .. | .new .. =>
      simp [place, Reported.report] at h
termination_by structural e

end

theorem gives_sound {scope : Scope} {used : Bool} {e : Source.Expr} {v : Expr}
    (h : (expr scope used e).Gives v) : v.Sound used :=
  h.1 ▸ expr_sound scope used e h.2

end Typing

/-! ## Labels of a switch -/

namespace Analysis

/-- Labels of a switch with `groups` groups, among which no value comes twice. -/
structure Labels.Fit (groups : Nat) (labels : Labels) : Prop where
  nodup : (labels.cases.map (·.1)).Nodup
  group_lt : ∀ c ∈ labels.cases, c.2 < groups
  default_lt : ∀ g, labels.defaultGroup = some g → g < groups

theorem addLabel_fit {groups group : Nat} {labels : Labels} (hfit : labels.Fit groups)
    (hg : group < groups) (scope : Scope) (line : UInt32) (l : Source.CaseLabel) :
    (addLabel scope line labels group l).value.Fit groups := by
  cases l with
  | case e =>
      rw [addLabel, Reported.value_bind]
      cases hv : (Typing.caseValue scope e).value with
      | none => exact hfit
      | some v =>
          simp only
          split
          · exact hfit
          · next hnew =>
              have hnot : v ∉ labels.cases.map (·.1) := by
                simpa using hnew
              refine ⟨?_, ?_, hfit.default_lt⟩
              · simp only [Reported.value_pure, List.map_append, List.map_cons, List.map_nil]
                exact hfit.nodup.append (List.nodup_singleton v) (by simpa using hnot)
              · intro c hc
                simp only [Reported.value_pure, List.mem_append, List.mem_singleton] at hc
                obtain hc | rfl := hc
                · exact hfit.group_lt c hc
                · exact hg
  | default =>
      rw [addLabel]
      split
      · exact hfit
      · refine ⟨hfit.nodup, hfit.group_lt, ?_⟩
        intro g hdefault
        obtain rfl := Option.some.inj hdefault
        exact hg

theorem foldlM_fit {groups group : Nat} (hg : group < groups) (scope : Scope) (line : UInt32)
    (ls : List Source.CaseLabel) {labels : Labels} (hfit : labels.Fit groups) :
    (ls.foldlM (fun labels l => addLabel scope line labels group l) labels).value.Fit groups := by
  induction ls generalizing labels with
  | nil => exact hfit
  | cons l rest ih =>
      rw [List.foldlM_cons, Reported.value_bind]
      exact ih (addLabel_fit hfit hg scope line l)

theorem switchLabels_fit {groups : Nat} (scope : Scope) (line : UInt32)
    (gs : List (Source.Group Source.Stmt)) {labels : Labels} {index : Nat}
    (hfit : labels.Fit groups) (hlen : index + gs.length = groups) :
    (switchLabels scope line labels index gs).value.Fit groups := by
  induction gs generalizing labels index with
  | nil => exact hfit
  | cons group rest ih =>
      rw [List.length_cons] at hlen
      rw [switchLabels, Reported.value_bind]
      exact ih (foldlM_fit (by omega) scope line group.labels hfit) (by omega)

theorem labels_fit (scope : Scope) (line : UInt32) (groups : List (Source.Group Source.Stmt)) :
    (switchLabels scope line {} 0 groups).value.Fit groups.length :=
  switchLabels_fit scope line groups ⟨List.nodup_nil, by simp, by simp⟩ (by simp)

end Analysis

/-! ## Loops and switches -/

namespace Source

mutual

/-- How many loops and switches there are in a statement. -/
def Stmt.constructs : Stmt → Nat
  | .block ⟨_, body⟩ => Stmt.allConstructs body
  | .ifElse _ _ s none => s.constructs
  | .ifElse _ _ s (some t) => s.constructs + t.constructs
  | .whileLoop _ _ body | .doLoop _ body _ => body.constructs + 1
  | .forLoop _ init _ update body =>
    Stmt.allConstructs init + Stmt.allConstructs update + (body.constructs + 1)
  | .switch _ _ groups => Stmt.groupConstructs groups + 1
  | .tryCatch _ ⟨_, body⟩ catches none => Stmt.allConstructs body + Stmt.clauseConstructs catches
  | .tryCatch _ ⟨_, body⟩ catches (some ⟨_, last⟩) =>
    Stmt.allConstructs body + Stmt.clauseConstructs catches + Stmt.allConstructs last
  | .localDecl .. | .expression .. | .breakJump _ | .continueJump _ | .throw .. | .empty => 0
termination_by structural s => s

def Stmt.allConstructs : List Stmt → Nat
  | [] => 0
  | s :: rest => s.constructs + Stmt.allConstructs rest
termination_by structural body => body

def Stmt.groupConstructs : List (Group Stmt) → Nat
  | [] => 0
  | ⟨_, body⟩ :: rest => Stmt.allConstructs body + Stmt.groupConstructs rest
termination_by structural groups => groups

def Stmt.clauseConstructs : List (CatchClause Stmt) → Nat
  | [] => 0
  | ⟨_, _, _, ⟨_, body⟩⟩ :: rest => Stmt.allConstructs body + Stmt.clauseConstructs rest
termination_by structural clauses => clauses

end

end Source

/-! ## Steps of checking -/

/-- No slot is above the limit, and none that is free again after a scope. -/
structure Scope.Within (s : Scope) : Prop where
  next : s.nextSlot ≤ s.limit
  saved : ∀ slot ∈ s.saved, slot ≤ s.limit
  most : s.maxSlots ≤ s.limit

namespace Scope

variable {s s' : Scope}

theorem Within.enter (h : s.Within) : s.enter.Within where
  next := h.next
  saved slot hslot := by
    obtain rfl | hslot := List.mem_cons.mp hslot
    · exact h.next
    · exact h.saved slot hslot
  most := h.most

theorem Within.leave (h : s.Within) : s.leave.2.Within where
  next := by
    cases hsaved : s.saved with
    | nil => simpa [Scope.leave, hsaved] using h.next
    | cons slot rest => simpa [Scope.leave, hsaved] using h.saved slot (by simp [hsaved])
  saved slot hslot := h.saved slot (List.mem_of_mem_drop hslot)
  most := h.most

theorem reserve_within {slot : Nat} (hs : s.reserve = .ok (slot, s')) :
    s'.depth = s.depth ∧ s'.limit = s.limit ∧ (s.Within → s'.Within) := by
  rw [reserve] at hs
  split at hs
  · cases hs
  · next hlt =>
      obtain ⟨rfl, rfl⟩ := Prod.mk.inj (Except.ok.inj hs)
      have hroom : s.nextSlot + 1 ≤ s.limit := Nat.not_le.mp hlt
      exact ⟨rfl, rfl, fun h => ⟨hroom, h.saved, Nat.max_le.mpr ⟨h.most, hroom⟩⟩⟩

theorem declare_within {slot : Nat} {name : String} {ty : Ty}
    (hs : s.declare name ty = .ok (slot, s')) :
    s'.depth = s.depth ∧ s'.limit = s.limit ∧ (s.Within → s'.Within) := by
  rw [declare] at hs
  split at hs
  · cases hs
  · cases hreserve : s.reserve with
    | error e =>
        rw [hreserve] at hs
        cases hs
    | ok r =>
        rw [hreserve] at hs
        obtain ⟨rfl, rfl⟩ := Prod.mk.inj (Except.ok.inj hs)
        obtain ⟨hdepth, hlimit, hwithin⟩ := reserve_within hreserve
        refine ⟨hdepth, hlimit, fun h => ?_⟩
        have h' := hwithin h
        exact ⟨h'.next, h'.saved, h'.most⟩

end Scope

/-- A frame that has at least the marks of another. -/
def Frame.Grows : Frame → Frame → Prop
  | .loop f, .loop g =>
    g.id = f.id ∧ g.kind = f.kind ∧ (f.hasBreak → g.hasBreak) ∧ (f.hasContinue → g.hasContinue)
  | .switch f, .switch g => g.id = f.id ∧ (f.hasBreak → g.hasBreak)
  | _, _ => False

namespace Frame.Grows

theorem refl (f : Frame) : f.Grows f := by
  cases f <;> simp [Frame.Grows]

theorem trans {f g h : Frame} (hfg : f.Grows g) (hgh : g.Grows h) : f.Grows h := by
  cases f <;> cases g <;> cases h <;> simp_all [Frame.Grows]

theorem id_eq {f g : Frame} (h : f.Grows g) : g.id = f.id := by
  cases f <;> cases g <;> simp_all [Frame.Grows, Frame.id]

theorem hasBreak {f g : Frame} (h : f.Grows g) (hb : f.hasBreak) : g.hasBreak := by
  cases f <;> cases g <;> simp_all [Frame.Grows, Frame.hasBreak]

theorem hasContinue {f g : Frame} (h : f.Grows g) (hc : f.hasContinue) : g.hasContinue := by
  cases f <;> cases g <;> simp_all [Frame.Grows, Frame.hasContinue]

end Frame.Grows

/-- The innermost construct may have got marks, the ones outside are as they were. -/
inductive Marked : List Frame → List Frame → Prop
  | nil : Marked [] []
  | cons {f g : Frame} {rest : List Frame} (h : f.Grows g) : Marked (f :: rest) (g :: rest)

namespace Marked

theorem refl (fs : List Frame) : Marked fs fs := by
  cases fs with
  | nil => exact .nil
  | cons f rest => exact .cons (.refl f)

theorem trans {fs gs hs : List Frame} (h₁ : Marked fs gs) (h₂ : Marked gs hs) : Marked fs hs := by
  cases h₁ with
  | nil => exact h₂
  | cons hfg =>
      cases h₂ with
      | cons hgh => exact .cons (hfg.trans hgh)

theorem outside {f g : Frame} {fs gs : List Frame} (h : Marked (f :: fs) (g :: gs)) : fs = gs := by
  cases h
  rfl

end Marked

/-- Where checking may have got to after it has opened and closed `count` constructs. -/
structure Progress.Leads (count : Nat) (s s' : Progress) : Prop where
  depth : s'.scope.depth = s.scope.depth
  limit : s'.scope.limit = s.scope.limit
  within : s.scope.Within → s'.scope.Within
  frames : Marked s.enclosing.frames s'.enclosing.frames
  nextId : s'.enclosing.nextId = s.enclosing.nextId + count
  diagnostics : s'.diagnostics = [] → s.diagnostics = []

namespace Progress.Leads

theorem refl (s : Progress) : Leads 0 s s :=
  ⟨rfl, rfl, id, .refl _, rfl, id⟩

theorem trans {m n : Nat} {s t u : Progress} (h₁ : Leads m s t) (h₂ : Leads n t u) :
    Leads (m + n) s u where
  depth := h₂.depth.trans h₁.depth
  limit := h₂.limit.trans h₁.limit
  within := fun h => h₂.within (h₁.within h)
  frames := h₁.frames.trans h₂.frames
  nextId := by rw [h₂.nextId, h₁.nextId, Nat.add_assoc]
  diagnostics := fun h => h₁.diagnostics (h₂.diagnostics h)

end Progress.Leads

/-- The construct right around a step, with at least the marks it has by then. -/
inductive Innermost : List Frame → Option Frame → Prop
  | nil : Innermost [] none
  | cons {f g : Frame} {rest : List Frame} (h : f.Grows g) : Innermost (f :: rest) (some g)

theorem Marked.innermost {fs gs : List Frame} {inner : Option Frame} (h : Marked fs gs)
    (hi : Innermost gs inner) : Innermost fs inner := by
  cases h with
  | nil => exact hi
  | cons hfg =>
      cases hi with
      | cons hgi => exact .cons (hfg.trans hgi)

/-- A step leaves the open constructs in place. `P` holds of the one right around it and of the
numbers of the next construct before and after it. -/
structure Encloses (e e' : Enclosing) (P : Option Frame → Nat → Nat → Prop) : Prop where
  marked : Marked e.frames e'.frames
  holds : ∀ inner, Innermost e'.frames inner → P inner e.nextId e'.nextId

namespace Encloses

variable {e e₁ e' : Enclosing} {P Q : Option Frame → Nat → Nat → Prop}

theorem refl (h : ∀ inner lo, P inner lo lo) : Encloses e e P :=
  ⟨.refl _, fun inner _ => h inner _⟩

theorem mono (h : Encloses e e' P) (hPQ : ∀ inner lo hi, P inner lo hi → Q inner lo hi) :
    Encloses e e' Q :=
  ⟨h.marked, fun inner hi => hPQ _ _ _ (h.holds inner hi)⟩

theorem trans (h : Encloses e e₁ P) (h' : Encloses e₁ e' Q) :
    Encloses e e' fun inner lo hi => ∃ m, P inner lo m ∧ Q inner m hi :=
  ⟨h.marked.trans h'.marked, fun inner hi =>
    ⟨_, h.holds inner (h'.marked.innermost hi), h'.holds inner hi⟩⟩

/-- A construct is opened before a step and closed after it. -/
theorem construct {f₀ f : Frame} {id : Nat} (hid : id = e.nextId)
    (h : Encloses ⟨f₀ :: e.frames, e.nextId + 1⟩ ⟨f :: e'.frames, e'.nextId⟩ P) :
    Encloses e e' fun _ lo hi => id = lo ∧ P (some f) (lo + 1) hi := by
  refine ⟨?_, fun _ _ => ⟨hid, h.holds (some f) (.cons (.refl f))⟩⟩
  rw [h.marked.outside]
  exact .refl _

theorem breakJump {id : Nat} (h : e.resolveBreak = .ok (id, e')) :
    Encloses e e' fun inner lo hi => (Annotated.Stmt.breakJump id).Sound inner lo hi := by
  obtain ⟨frames, nextId⟩ := e
  match frames, h with
  | .loop f :: rest, h | .switch f :: rest, h =>
      obtain ⟨rfl, rfl⟩ := Prod.mk.inj (Except.ok.inj h)
      refine ⟨.cons (by simp [Frame.Grows]), fun inner hi => ?_⟩
      cases hi with
      | cons hg => exact ⟨⟨_, rfl, hg.id_eq, hg.hasBreak rfl⟩, rfl⟩

theorem continueJump {target : ContinueTarget} (h : e.resolveContinue = .ok (target, e')) :
    Encloses e e' fun inner lo hi =>
      match target with
      | .loop id => (Annotated.Stmt.continueJump id).Sound inner lo hi
      | .switch _ => lo = hi := by
  obtain ⟨frames, nextId⟩ := e
  match frames, h with
  | .loop f :: rest, h =>
      obtain ⟨rfl, rfl⟩ := Prod.mk.inj (Except.ok.inj h)
      refine ⟨.cons (by simp [Frame.Grows]), fun inner hi => ?_⟩
      cases hi with
      | cons hg => exact ⟨⟨_, rfl, hg.id_eq, hg.hasContinue rfl⟩, rfl⟩
  | .switch f :: rest, h =>
      obtain ⟨rfl, rfl⟩ := Prod.mk.inj (Except.ok.inj h)
      exact .refl fun _ _ => rfl

end Encloses

namespace Check

/-- From `s` the step comes upon no defect, and what it gives satisfies `Q`. Running
out of slots is allowed if there are no more than `limit`. -/
def Spec (x : Check α) (s : Progress) (limit : Nat) (Q : α → Progress → Prop) : Prop :=
  match x s with
  | .ok (a, s') => Q a s'
  | .error (.slotsExhausted n) => n = limit
  | .error (.defect _) => False

variable {limit : Nat}

theorem Spec.mono {x : Check α} {s : Progress} {Q Q' : α → Progress → Prop}
    (h : x.Spec s limit Q) (hQ : ∀ a s', Q a s' → Q' a s') : x.Spec s limit Q' := by
  rw [Spec] at h ⊢
  split <;> simp_all

theorem Spec.bind {x : Check α} {f : α → Check β} {s : Progress} {Q : β → Progress → Prop}
    (h : x.Spec s limit fun a s' => (f a).Spec s' limit Q) : (x >>= f).Spec s limit Q := by
  rw [Spec] at h
  rw [Spec]
  simp only [Bind.bind, Except.bind]
  split at h <;> simp_all [Spec]

theorem Spec.get_bind {f : Progress → Check β} {s : Progress} {Q : β → Progress → Prop}
    (h : (f s).Spec s limit Q) : (get >>= f).Spec s limit Q :=
  h

theorem Spec.set_bind {f : PUnit → Check β} {s t : Progress} {Q : β → Progress → Prop}
    (h : (f ⟨⟩).Spec t limit Q) : (set t >>= f).Spec s limit Q :=
  h

theorem Spec.orDefect_bind {x : Except Defect α} {a : α} {f : α → Check β} {s : Progress}
    {Q : β → Progress → Prop} (hx : x = .ok a) (h : (f a).Spec s limit Q) :
    (orDefect x >>= f).Spec s limit Q := by
  subst hx
  exact h

/-- The step comes upon no defect, leaves the open constructs in place and opens `count`
more. Without complaints, `P` holds of what it gives and of how far checking has come before
and after it. -/
def Accepts (x : Check α) (count : Nat) (P : Progress → α → Progress → Prop) : Prop :=
  ∀ s, x.Spec s s.scope.limit fun a s' =>
    Progress.Leads count s s' ∧ (s'.diagnostics = [] → P s a s')

variable {x : Check α} {f : α → Check β} {k : Check β} {m n : Nat}
  {P P' : Progress → α → Progress → Prop} {Q : Progress → β → Progress → Prop}

theorem Accepts.mono (h : Accepts x n P) (hP : ∀ s a s', P s a s' → P' s a s') : Accepts x n P' := by
  intro s
  exact (h s).mono fun a t hst => ⟨hst.1, fun hd => hP _ _ _ (hst.2 hd)⟩

theorem Accepts.of_eq (h : Accepts x m P) (hcount : m = n := by omega) : Accepts x n P :=
  hcount ▸ h

theorem accepts_pure {a : α} : Accepts (pure a) 0 fun s b s' => b = a ∧ s' = s :=
  fun s => ⟨.refl s, fun _ => ⟨rfl, rfl⟩⟩

theorem accepts_bind {W : α → Progress → β → Progress → Prop} (hx : Accepts x m P)
    (hf : ∀ a, Accepts (f a) n (W a)) :
    Accepts (x >>= f) (m + n) fun s b s'' => ∃ a s', P s a s' ∧ W a s' b s'' := by
  intro s
  refine .bind ((hx s).mono fun a t hst => ?_)
  rw [← hst.1.limit]
  refine (hf a t).mono fun b u htu => ⟨hst.1.trans htu.1, fun hd => ?_⟩
  exact ⟨a, t, hst.2 (htu.1.diagnostics hd), htu.2 hd⟩

/-- Typing changes nothing but the complaints. What follows may go by what it gives whatever
there is to complain about. -/
theorem accepts_typed_bind {f : Scope → Reported α} {k : α → Check β}
    {W : Scope → Progress → β → Progress → Prop}
    (hk : ∀ scope, Accepts (k (f scope).value) n (W scope)) :
    Accepts (typed f >>= k) n fun s b s' =>
      (f s.scope).Gives (f s.scope).value ∧ W s.scope s b s' := by
  intro s
  refine .bind ?_
  refine (hk s.scope { s with diagnostics := s.diagnostics ++ (f s.scope).diagnostics }).mono
    fun b u hu => ?_
  have hnil : u.diagnostics = [] → s.diagnostics = [] ∧ (f s.scope).diagnostics = [] :=
    fun h => List.append_eq_nil_iff.mp (hu.1.diagnostics h)
  refine ⟨⟨hu.1.depth, hu.1.limit, hu.1.within, hu.1.frames, hu.1.nextId, fun h => (hnil h).1⟩,
    fun hd => ⟨⟨rfl, (hnil hd).2⟩, ?_⟩⟩
  have hW := hu.2 hd
  rwa [(hnil hd).2, List.append_nil] at hW

theorem accepts_typed {f : Scope → Reported α} :
    Accepts (typed f) 0 fun s a s' => (f s.scope).Gives a ∧ s' = s := by
  have hpure : typed f = (do let a ← typed f; return a) := rfl
  rw [hpure]
  refine (accepts_typed_bind fun _ => accepts_pure).mono ?_
  rintro s a s' ⟨hgives, rfl, rfl⟩
  exact ⟨hgives, rfl⟩

/-- After a complaint nothing more is promised. -/
theorem accepts_report {line : UInt32} {problem : Problem} (hk : Accepts k n Q)
    {W : Progress → β → Progress → Prop} : Accepts (do report line problem; k) n W := by
  refine (accepts_typed_bind fun _ => hk).mono ?_
  rintro s b s' ⟨hreport, -⟩
  exact (Reported.not_gives_report hreport).elim

/-- There may be something to complain about first. -/
theorem accepts_reportIf {line : UInt32} {problem : Problem} {c : Prop} [Decidable c]
    (hk : Accepts k n Q) :
    Accepts (if c then (do report line problem; k) else k) n fun s b s' => ¬ c ∧ Q s b s' := by
  split
  · exact accepts_report hk
  · next hc => exact hk.mono fun _ _ _ h => ⟨hc, h⟩

/-! ### Scopes -/

theorem leaveScope_eq {t : Progress} (h : t.scope.depth ≠ 0) : leaveScope t = .ok ((), t.leave) := by
  have hleave : t.scope.leave.1 = .ok () := if_neg h
  have hrun : leaveScope t = orDefect t.scope.leave.1 { t with scope := t.scope.leave.2 } := rfl
  rw [hrun, hleave]
  rfl

theorem accepts_inScope (hx : Accepts x n P) :
    Accepts (inScope x) n fun s a s' => ∃ s₁, P s.enter a s₁ ∧ s' = s₁.leave := by
  intro s
  refine .bind (s := s) ?_
  refine .bind ((hx s.enter).mono fun a t ht => ?_)
  have hdepth : t.scope.depth = s.scope.depth + 1 := ht.1.depth
  refine .bind (s := t) ?_
  rw [Spec, leaveScope_eq (by omega)]
  refine ⟨⟨?_, ht.1.limit, fun h => (ht.1.within h.enter).leave, ht.1.frames, ht.1.nextId,
    ht.1.diagnostics⟩, fun hd => ⟨t, ht.2 hd, rfl⟩⟩
  simp [Progress.leave, Scope.leave, hdepth]

theorem accepts_reserve : Accepts reserve 0 fun s slot s' =>
    ∃ sc, s.scope.reserve = .ok (slot, sc) ∧ s' = { s with scope := sc } := by
  intro s
  refine .get_bind ?_
  cases hr : s.scope.reserve with
  | error e => exact rfl
  | ok r =>
      obtain ⟨hdepth, hlimit, hwithin⟩ := Scope.reserve_within hr
      exact .set_bind ⟨⟨hdepth, hlimit, hwithin, .refl _, rfl, id⟩, fun _ => ⟨_, hr, rfl⟩⟩

theorem accepts_declare {line : UInt32} {name : String} {ty : Ty} :
    Accepts (declare line name ty) 0 fun s slot s' =>
      ∃ sc, s.scope.declare name ty = .ok (slot, sc) ∧ s' = { s with scope := sc } := by
  intro s
  refine .get_bind ?_
  cases hd : s.scope.declare name ty with
  | error e =>
      cases e with
      | duplicate name =>
          have hreported : Accepts (do report line (.alreadyDefined name); reserve) 0
              fun _ _ _ => False := accepts_report accepts_reserve
          exact (hreported s).mono fun _ _ h => ⟨h.1, fun hd => (h.2 hd).elim⟩
      | exhausted => exact rfl
  | ok r =>
      obtain ⟨hdepth, hlimit, hwithin⟩ := Scope.declare_within hd
      exact .set_bind ⟨⟨hdepth, hlimit, hwithin, .refl _, rfl, id⟩, fun _ => ⟨_, hd, rfl⟩⟩

/-! ### Constructs -/

/-- The body of a loop is checked with the loop innermost, and the marks of the loop
are those it has after its body. -/
theorem accepts_loopBody {kind : ConstructKind} (hkind : kind ≠ .switch) (hx : Accepts x n P) :
    Accepts (loopBody kind x) (n + 1) fun s r s' => r.1.id = s.enclosing.nextId ∧
      P (s.opening (.loop ⟨r.1.id, kind, false, false⟩)) r.2 (s'.inside (r.1.frame kind)) := by
  intro s
  refine .get_bind (.orDefect_bind (if_neg hkind) (.set_bind (.bind ?_)))
  refine (hx _).mono fun a t ht => ?_
  obtain ⟨hlead, hP⟩ := ht
  obtain ⟨scope, ⟨frames, nextId⟩, ds⟩ := t
  have hmarked : Marked (.loop ⟨s.enclosing.nextId, kind, false, false⟩ :: s.enclosing.frames) frames :=
    hlead.frames
  cases hmarked with
  | cons hgrows =>
      next g =>
      obtain ⟨id, k, hasBreak, hasContinue⟩ | g := g
      · simp only [Frame.Grows] at hgrows
        obtain ⟨rfl, rfl, -⟩ := hgrows
        refine .get_bind (.set_bind (.orDefect_bind
          (a := ⟨s.enclosing.nextId, k, hasBreak, hasContinue⟩) (if_pos rfl) ?_))
        refine ⟨⟨hlead.depth, hlead.limit, hlead.within, .refl _, ?_, hlead.diagnostics⟩,
          fun hd => ⟨rfl, hP hd⟩⟩
        exact hlead.nextId.trans (Nat.add_right_comm ..)
      · exact hgrows.elim

/-- The groups of a switch are checked with the switch innermost. -/
theorem accepts_switchBody (hx : Accepts x n P) :
    Accepts (switchBody x) (n + 1) fun s r s' => r.1 = s.enclosing.nextId ∧
      P (s.opening (.switch ⟨r.1, false⟩)) r.2.2 (s'.inside (.switch ⟨r.1, r.2.1⟩)) := by
  intro s
  refine .get_bind (.set_bind (.bind ?_))
  refine (hx _).mono fun a t ht => ?_
  obtain ⟨hlead, hP⟩ := ht
  obtain ⟨scope, ⟨frames, nextId⟩, ds⟩ := t
  have hmarked : Marked (.switch ⟨s.enclosing.nextId, false⟩ :: s.enclosing.frames) frames :=
    hlead.frames
  cases hmarked with
  | cons hgrows =>
      next g =>
      obtain g | ⟨id, hasBreak⟩ := g
      · exact hgrows.elim
      · simp only [Frame.Grows] at hgrows
        obtain ⟨rfl, -⟩ := hgrows
        refine .get_bind (.set_bind (.orDefect_bind (a := ⟨s.enclosing.nextId, hasBreak⟩)
          (if_pos rfl) ?_))
        refine ⟨⟨hlead.depth, hlead.limit, hlead.within, .refl _, ?_, hlead.diagnostics⟩,
          fun hd => ⟨rfl, hP hd⟩⟩
        exact hlead.nextId.trans (Nat.add_right_comm ..)

end Check

/-! ## Statements -/

namespace Analysis

open Check
open Annotated (Stmt)

variable {policy : ContinuePolicy}

theorem accepts_breakJump {line : UInt32} :
    Accepts (breakJump line) 0 (Becomes policy (.breakJump line)) := by
  rintro ⟨scope, ⟨frames, nextId⟩, ds⟩
  refine .get_bind ?_
  match frames with
  | [] => exact accepts_report accepts_pure _
  | .loop f :: rest | .switch f :: rest =>
      refine .orDefect_bind rfl (.set_bind ?_)
      exact ⟨⟨rfl, rfl, id, (Encloses.breakJump (e := ⟨_, nextId⟩) rfl).marked, rfl, id⟩,
        fun _ => ⟨_, _, rfl, rfl, rfl⟩⟩

theorem accepts_continueJump {line : UInt32} :
    Accepts (continueJump policy line) 0 (Becomes policy (.continueJump line)) := by
  rintro ⟨scope, ⟨frames, nextId⟩, ds⟩
  refine .get_bind ?_
  match frames with
  | [] => exact accepts_report accepts_pure _
  | .loop f :: rest =>
      refine .orDefect_bind rfl (.set_bind ?_)
      exact ⟨⟨rfl, rfl, id, (Encloses.continueJump (e := ⟨_, nextId⟩) rfl).marked, rfl, id⟩,
        fun _ => ⟨_, _, rfl, rfl, rfl⟩⟩
  | .switch f :: rest =>
      refine .orDefect_bind rfl ((accepts_reportIf accepts_pure _).mono fun t s' h => ⟨h.1, fun hd => ?_⟩)
      obtain ⟨hpolicy, rfl, rfl⟩ := h.2 hd
      refine ⟨_, _, rfl, rfl, ?_, rfl⟩
      cases policy with
      | reject => exact absurd rfl hpolicy
      | ignore => rfl

theorem accepts_localDecl {line : UInt32} {name : String} {ty : Ty} {init : Option Source.Expr} :
    Accepts (localDecl line name ty init) 0 (Becomes policy (.localDecl line name ty init)) := by
  cases init with
  | none =>
      refine (accepts_reportIf (accepts_bind accepts_declare fun _ => accepts_pure)).mono ?_
      rintro s t s' ⟨hvoid, slot, _, ⟨sc, hslot, rfl⟩, rfl, rfl⟩
      exact ⟨hvoid, rfl, slot, sc, hslot, rfl⟩
  | some e =>
      refine (accepts_reportIf (accepts_bind accepts_typed fun _ =>
        accepts_bind accepts_declare fun _ => accepts_pure)).mono ?_
      rintro s t s' ⟨hvoid, w, _, ⟨hw, rfl⟩, slot, _, ⟨sc, hslot, rfl⟩, rfl, rfl⟩
      obtain ⟨v, hv, hcoerce⟩ := Reported.gives_bind.mp hw
      obtain ⟨hstores, rfl⟩ := Typing.gives_coerce hcoerce
      exact ⟨hvoid, v, slot, sc, hv, hstores, hslot, rfl, rfl⟩

theorem accepts_condition {line : UInt32} {e : Source.Expr} :
    Accepts (typed fun scope => Typing.condition scope line e) 0
      fun s v s' => Tests s.scope e v ∧ s' = s :=
  accepts_typed.mono fun _ _ _ h => ⟨Typing.gives_condition h.1, h.2⟩

theorem accepts_loopCondition_bind {line : UInt32} {condition : Option Source.Expr}
    {k : Option Annotated.Expr → Check β} {n : Nat}
    {W : Option Annotated.Expr → Progress → β → Progress → Prop} (hk : ∀ v, Accepts (k v) n (W v)) :
    Accepts (match condition with
      | none => pure none >>= k
      | some c => (some <$> typed fun scope => Typing.condition scope line c) >>= k) n
      fun s b s' => ∃ v, Option.Rel (Tests s.scope) condition v ∧ W v s b s' := by
  match condition with
  | none =>
      refine .of_eq ((accepts_bind accepts_pure hk).mono ?_)
      rintro s b s' ⟨_, _, ⟨rfl, rfl⟩, hW⟩
      exact ⟨none, .none, hW⟩
  | some c =>
      have hmap (f : Scope → Reported Annotated.Expr) :
          ((some <$> typed f) >>= k) = (typed f >>= fun v => k (some v)) := rfl
      simp only [hmap]
      refine .of_eq ((accepts_bind accepts_condition fun v => hk (some v)).mono ?_)
      rintro s b s' ⟨v, _, ⟨hv, rfl⟩, hW⟩
      exact ⟨some v, .some hv, hW⟩

theorem accepts_dispatch {labels : Labels} {groups : Nat} (hfit : labels.Fit groups) :
    Accepts (orDefect (Dispatch.ofCases labels.cases labels.defaultGroup)) 0 fun s d s' =>
      Dispatch.ofCases labels.cases labels.defaultGroup = .ok d ∧ s' = s := by
  obtain ⟨d, hd, -⟩ := Dispatch.ofCases_ok labels.defaultGroup hfit.nodup
  rw [hd]
  exact accepts_pure.mono fun _ _ _ h => ⟨congrArg _ h.1.symm, h.2⟩

mutual

/-- Every statement is accepted: without complaints it becomes the tree that it gives. Each loop
and switch in it is given a number. -/
theorem accepts_stmt (policy : ContinuePolicy) (s : Source.Stmt) :
    Accepts (stmt policy s) s.constructs (Becomes policy s) := by
  match s with
  | .block ⟨_, body⟩ =>
      refine (accepts_bind (n := 0) (accepts_inScope (accepts_stmts policy body)) fun _ =>
        accepts_pure).mono ?_
      rintro st t st' ⟨ts, _, ⟨st₁, hts, rfl⟩, rfl, rfl⟩
      exact ⟨ts, st₁, hts, rfl, rfl⟩
  | .localDecl line name ty init => exact accepts_localDecl
  | .expression _ e =>
      refine (accepts_bind accepts_typed fun _ => accepts_pure).mono ?_
      rintro st t st' ⟨v, _, ⟨hv, rfl⟩, rfl, rfl⟩
      exact ⟨v, hv, rfl, rfl⟩
  | .ifElse line c s none =>
      rw [Source.Stmt.constructs]
      refine .of_eq ((accepts_bind accepts_condition fun _ => accepts_bind (accepts_stmt policy s)
        fun _ => accepts_pure).mono ?_)
      rintro st t st' ⟨v, _, ⟨hv, rfl⟩, t₁, _, ht₁, rfl, rfl⟩
      exact ⟨v, t₁, hv, ht₁, rfl⟩
  | .ifElse line c s (some s') =>
      rw [Source.Stmt.constructs]
      refine .of_eq ((accepts_bind accepts_condition fun _ => accepts_bind (accepts_stmt policy s)
        fun _ => accepts_bind (accepts_stmt policy s') fun _ => accepts_pure).mono ?_)
      rintro st t st' ⟨v, _, ⟨hv, rfl⟩, t₁, st₁, ht₁, t₂, _, ht₂, rfl, rfl⟩
      exact ⟨v, t₁, st₁, t₂, hv, ht₁, ht₂, rfl⟩
  | .whileLoop line c body =>
      rw [Source.Stmt.constructs]
      refine .of_eq ((accepts_bind accepts_condition fun _ =>
        accepts_bind (accepts_loopBody (by decide) (accepts_stmt policy body)) fun _ =>
        accepts_pure).mono ?_)
      rintro st t st' ⟨v, _, ⟨hv, rfl⟩, ⟨j, t₁⟩, _, ⟨hid, ht₁⟩, rfl, rfl⟩
      exact ⟨j, v, t₁, hv, hid, ht₁, rfl⟩
  | .doLoop line body c =>
      rw [Source.Stmt.constructs]
      refine .of_eq ((accepts_bind (accepts_loopBody (by decide) (accepts_stmt policy body)) fun _ =>
        accepts_bind accepts_condition fun _ => accepts_pure).mono ?_)
      rintro st t st' ⟨⟨j, t₁⟩, _, ⟨hid, ht₁⟩, v, _, ⟨hv, rfl⟩, rfl, rfl⟩
      exact ⟨j, v, t₁, hid, ht₁, hv, rfl⟩
  | .forLoop line init c update body =>
      rw [Source.Stmt.constructs]
      refine .of_eq ((accepts_inScope (accepts_bind (accepts_stmts policy init) fun _ =>
        accepts_loopCondition_bind fun _ => accepts_bind (accepts_stmts policy update) fun _ =>
        accepts_bind (accepts_loopBody (by decide) (accepts_stmt policy body)) fun _ =>
        accepts_pure)).mono ?_)
      rintro st t st' ⟨_, ⟨ts₁, st₁, hts₁, v, hv, ts₂, st₂, hts₂, ⟨j, t₁⟩, _, ⟨hid, ht₁⟩, rfl, rfl⟩, rfl⟩
      exact ⟨j, v, ts₁, st₁, ts₂, st₂, t₁, _, hts₁, hv, hts₂, hid, ht₁, rfl, rfl⟩
  | .switch line selector groups =>
      rw [Source.Stmt.constructs]
      refine .of_eq (.mono (accepts_bind accepts_typed fun _ => accepts_typed_bind fun scope =>
        accepts_bind (accepts_switchBody (accepts_groups policy groups)) fun _ =>
        accepts_bind (accepts_dispatch (labels_fit scope line groups)) fun _ => accepts_pure) ?_)
      rintro st t st' ⟨w, _, ⟨hw, rfl⟩, hlabels, ⟨id, hasBreak, bodies⟩, _, ⟨hid, hbodies⟩, d, _,
        ⟨hd, rfl⟩, rfl, rfl⟩
      simp only [Reported.gives_bind, Reported.gives_pure] at hw
      obtain ⟨v, hv, _, hexpect, rfl⟩ := hw
      exact ⟨id, hasBreak, v, _, bodies, d, hv, (Ty.gives_expect hexpect).2, hlabels, hid, hbodies, hd,
        rfl⟩
  | .breakJump line => exact accepts_breakJump
  | .continueJump line => exact accepts_continueJump
  | .tryCatch line ⟨_, body⟩ catches none =>
      refine (accepts_reportIf (accepts_bind (accepts_inScope (accepts_stmts policy body)) fun _ =>
        accepts_bind (n := 0) (accepts_clauses policy catches) fun _ => accepts_pure)).mono ?_
      rintro st t st' ⟨-, ts, _, ⟨st₁, hts, rfl⟩, cs, _, hcs, rfl, rfl⟩
      exact ⟨ts, st₁, cs, hts, hcs, rfl⟩
  | .tryCatch line ⟨_, body⟩ catches (some ⟨_, last⟩) =>
      rw [Source.Stmt.constructs]
      refine (accepts_reportIf (.of_eq (accepts_bind (accepts_inScope (accepts_stmts policy body))
        fun _ => accepts_bind (accepts_clauses policy catches) fun _ =>
        accepts_bind (accepts_inScope (accepts_bind accepts_reserve fun _ =>
          accepts_bind (accepts_stmts policy last) fun _ => accepts_pure)) fun _ =>
        accepts_pure))).mono ?_
      rintro st t st' ⟨-, ts, _, ⟨st₁, hts, rfl⟩, cs, st₂, hcs, f, _,
        ⟨_, ⟨slot, _, ⟨sc, hslot, rfl⟩, ts', st₃, hts', rfl, rfl⟩, rfl⟩, rfl, rfl⟩
      exact ⟨ts, st₁, cs, st₂, slot, sc, ts', _, hts, hcs, hslot, hts', rfl, rfl⟩
  | .throw line e =>
      refine (accepts_bind accepts_typed fun _ => accepts_pure).mono ?_
      rintro st t st' ⟨w, _, ⟨hw, rfl⟩, rfl, rfl⟩
      obtain ⟨v, hv, hthrown⟩ := Reported.gives_bind.mp hw
      obtain ⟨hobject, rfl⟩ := Typing.gives_object hthrown
      exact ⟨_, hv, hobject, rfl, rfl⟩
  | .empty => exact accepts_pure
termination_by structural s

theorem accepts_stmts (policy : ContinuePolicy) (body : List Source.Stmt) :
    Accepts (stmts policy body) (Source.Stmt.allConstructs body) (AllBecome policy body) := by
  match body with
  | [] => exact accepts_pure
  | s :: rest =>
      refine (accepts_bind (accepts_stmt policy s) fun _ =>
        accepts_bind (n := 0) (accepts_stmts policy rest) fun _ => accepts_pure).mono ?_
      rintro st ts st' ⟨t, st₁, ht, ts', _, hts', rfl, rfl⟩
      exact ⟨t, st₁, ts', ht, hts', rfl⟩
termination_by structural body

theorem accepts_groups (policy : ContinuePolicy) (groups : List (Source.Group Source.Stmt)) :
    Accepts (groupBodies policy groups) (Source.Stmt.groupConstructs groups)
      (GroupsBecome policy groups) := by
  match groups with
  | [] => exact accepts_pure
  | ⟨_, body⟩ :: rest =>
      refine (accepts_bind (accepts_inScope (accepts_stmts policy body)) fun _ =>
        accepts_bind (n := 0) (accepts_groups policy rest) fun _ => accepts_pure).mono ?_
      rintro st bodies st' ⟨ts, _, ⟨st₁, hts, rfl⟩, bodies', _, hbodies', rfl, rfl⟩
      exact ⟨ts, st₁, bodies', hts, hbodies', rfl⟩
termination_by structural groups

theorem accepts_clauses (policy : ContinuePolicy)
    (clauses : List (Source.CatchClause Source.Stmt)) :
    Accepts (catchClauses policy clauses) (Source.Stmt.clauseConstructs clauses)
      (ClausesBecome policy clauses) := by
  match clauses with
  | [] => exact accepts_pure
  | ⟨line, exceptionType, param, ⟨_, body⟩⟩ :: rest =>
      rw [Source.Stmt.clauseConstructs]
      refine .of_eq ((accepts_bind (accepts_inScope (accepts_bind accepts_declare fun _ =>
        accepts_bind (accepts_stmts policy body) fun _ => accepts_pure)) fun _ =>
        accepts_bind (accepts_clauses policy rest) fun _ => accepts_pure).mono ?_)
      rintro st cs st' ⟨_, _, ⟨_, ⟨slot, _, ⟨sc, hslot, rfl⟩, ts, st₁, hts, rfl, rfl⟩, rfl⟩, cs', _, hcs',
        rfl, rfl⟩
      exact ⟨slot, sc, ts, _, cs', hslot, hts, hcs', rfl⟩
termination_by structural clauses

end

/-! ## Sound trees -/

theorem Tests.sound {sc : Scope} {e : Source.Expr} {v : Annotated.Expr} (h : Tests sc e v) :
    v.Sound true :=
  Typing.gives_sound h.1

mutual

/-- What a statement becomes is sound. -/
theorem Becomes.sound (s : Source.Stmt) {st st' : Progress} {t : Stmt}
    (h : Becomes policy s st t st') :
    Encloses st.enclosing st'.enclosing fun inner lo hi => t.Sound inner lo hi := by
  match s with
  | .block ⟨_, body⟩ =>
      obtain ⟨ts, st₁, hts, rfl, rfl⟩ := h
      have hbody := AllBecome.sound body hts
      exact hbody
  | .localDecl _ name ty none =>
      obtain ⟨-, rfl, slot, sc, -, rfl⟩ := h
      exact .refl fun _ _ => rfl
  | .localDecl _ name ty (some e) =>
      obtain ⟨-, v, slot, sc, hv, -, -, rfl, rfl⟩ := h
      exact .refl fun _ _ => ⟨Typing.widen_sound (Typing.gives_sound hv) ty, rfl⟩
  | .expression _ e =>
      obtain ⟨v, hv, rfl, rfl⟩ := h
      exact .refl fun _ _ => ⟨Typing.gives_sound hv, rfl, rfl⟩
  | .ifElse _ c s none =>
      obtain ⟨v, t₁, hv, ht₁, rfl⟩ := h
      exact (Becomes.sound s ht₁).mono fun _ _ _ h => ⟨hv.sound, h⟩
  | .ifElse _ c s (some s') =>
      obtain ⟨v, t₁, st₁, t₂, hv, ht₁, ht₂, rfl⟩ := h
      exact ((Becomes.sound s ht₁).trans (Becomes.sound s' ht₂)).mono fun _ _ _ h => ⟨hv.sound, h⟩
  | .whileLoop _ c body =>
      obtain ⟨j, v, t₁, hv, hid, ht₁, rfl⟩ := h
      exact ((Becomes.sound body ht₁).construct hid).mono fun _ _ _ h => ⟨hv.sound, h⟩
  | .doLoop _ body c =>
      obtain ⟨j, v, t₁, hid, ht₁, hv, rfl⟩ := h
      exact ((Becomes.sound body ht₁).construct hid).mono fun _ _ _ h => ⟨hv.sound, h⟩
  | .forLoop _ init c update body =>
      obtain ⟨j, v, ts₁, st₁, ts₂, st₂, t₁, st₃, hts₁, hv, hts₂, hid, ht₁, rfl, rfl⟩ := h
      have hv : ∀ e ∈ v, e.Sound true := by
        cases hv with
        | none => simp
        | some hv => simpa using hv.sound
      have hinit := AllBecome.sound init hts₁
      have hlists := hinit.trans (AllBecome.sound update hts₂)
      refine (hlists.trans ((Becomes.sound body ht₁).construct hid)).mono ?_
      rintro inner lo hi ⟨_, ⟨m, hinit, hupdate⟩, rfl, hbody⟩
      exact ⟨hv, m, hinit, hupdate, hbody⟩
  | .switch line selector groups =>
      obtain ⟨id, hasBreak, v, labels, bodies, d, hv, -, ⟨hlabels, -⟩, hid, hbodies, hd, rfl⟩ := h
      have hfit : labels.Fit groups.length := hlabels ▸ labels_fit st.scope line groups
      obtain ⟨d', hd', hsound⟩ := Dispatch.ofCases_ok labels.defaultGroup hfit.nodup
      obtain rfl := Except.ok.inj (hd'.symm.trans hd)
      refine ((GroupsBecome.sound groups hbodies).construct hid).mono fun _ _ _ h => ?_
      refine ⟨Typing.gives_sound hv, ?_, h⟩
      rw [hbodies.length]
      exact hsound _ hfit.group_lt hfit.default_lt
  | .breakJump _ =>
      obtain ⟨id, enclosing, hresolve, rfl, rfl⟩ := h
      exact .breakJump hresolve
  | .continueJump _ =>
      obtain ⟨target, enclosing, hresolve, rfl, ht⟩ := h
      have hencloses := Encloses.continueJump hresolve
      cases target with
      | loop id =>
          obtain rfl := ht
          exact hencloses
      | switch id =>
          obtain ⟨-, rfl⟩ := ht
          exact hencloses
  | .tryCatch _ ⟨_, body⟩ catches none =>
      obtain ⟨ts, st₁, cs, hts, hcs, rfl⟩ := h
      have hbody := AllBecome.sound body hts
      have hcatches := ClausesBecome.sound catches hcs
      exact hbody.trans hcatches
  | .tryCatch _ ⟨_, body⟩ catches (some ⟨_, last⟩) =>
      obtain ⟨ts, st₁, cs, st₂, slot, sc, ts', st₃, hts, hcs, -, hts', rfl, rfl⟩ := h
      have hbody := AllBecome.sound body hts
      have hcatches := ClausesBecome.sound catches hcs
      have hlast := AllBecome.sound last hts'
      refine ((hbody.trans hcatches).trans hlast).mono ?_
      rintro inner lo hi ⟨m', ⟨m, hbody, hcatches⟩, hlast⟩
      exact ⟨m, m', hbody, hcatches, hlast⟩
  | .throw _ e =>
      obtain ⟨v, hv, -, rfl, rfl⟩ := h
      exact .refl fun _ _ => ⟨Typing.gives_sound hv, rfl⟩
  | .empty =>
      obtain ⟨rfl, rfl⟩ := h
      exact .refl fun _ _ => rfl
termination_by structural s

theorem AllBecome.sound (body : List Source.Stmt) {st st' : Progress} {ts : List Stmt}
    (h : AllBecome policy body st ts st') :
    Encloses st.enclosing st'.enclosing fun inner lo hi => Stmt.AllSound inner lo ts hi := by
  match body with
  | [] =>
      obtain ⟨rfl, rfl⟩ := h
      exact .refl fun _ _ => rfl
  | s :: rest =>
      obtain ⟨t, st₁, ts', ht, hts', rfl⟩ := h
      exact (Becomes.sound s ht).trans (AllBecome.sound rest hts')
termination_by structural body

theorem GroupsBecome.sound (groups : List (Source.Group Source.Stmt)) {st st' : Progress}
    {bodies : List (List Stmt)} (h : GroupsBecome policy groups st bodies st') :
    Encloses st.enclosing st'.enclosing fun inner lo hi => Stmt.GroupsSound inner lo bodies hi := by
  match groups with
  | [] =>
      obtain ⟨rfl, rfl⟩ := h
      exact .refl fun _ _ => rfl
  | ⟨_, body⟩ :: rest =>
      obtain ⟨ts, st₁, bodies', hts, hbodies', rfl⟩ := h
      have hbody := AllBecome.sound body hts
      have hrest := GroupsBecome.sound rest hbodies'
      exact hbody.trans hrest
termination_by structural groups

theorem ClausesBecome.sound (clauses : List (Source.CatchClause Source.Stmt)) {st st' : Progress}
    {cs : List (Annotated.Catch Stmt)} (h : ClausesBecome policy clauses st cs st') :
    Encloses st.enclosing st'.enclosing fun inner lo hi => Stmt.ClausesSound inner lo cs hi := by
  match clauses with
  | [] =>
      obtain ⟨rfl, rfl⟩ := h
      exact .refl fun _ _ => rfl
  | ⟨_, exceptionType, param, ⟨_, body⟩⟩ :: rest =>
      obtain ⟨slot, sc, ts, st₁, cs', -, hts, hcs', rfl⟩ := h
      have hbody := AllBecome.sound body hts
      have hrest := ClausesBecome.sound rest hcs'
      exact hbody.trans hrest
termination_by structural clauses

end

/-! ## Method bodies -/

/-- Checking a whole body ends with a tree and complaints, or runs out of slots. There are
never more slots than there may be, and each loop and switch has got its number. -/
theorem program_cases (settings : Settings) (p : Source.Program) :
    let start : Progress := { scope := { limit := settings.maxLocals } }
    let run := stmts settings.continueInSwitch p.body start
    (run = .error (.slotsExhausted settings.maxLocals) ∧
      program settings p = .error (.slotsExhausted settings.maxLocals)) ∨
    ∃ body s, run = .ok (body, s) ∧
      program settings p = .ok ⟨⟨body, s.scope.maxSlots⟩, s.diagnostics⟩ ∧
      (s.diagnostics = [] → AllBecome settings.continueInSwitch p.body start body s) ∧
      s.enclosing.frames = [] ∧ s.scope.maxSlots ≤ settings.maxLocals ∧
      s.enclosing.nextId = Source.Stmt.allConstructs p.body := by
  intro start run
  have hspec := accepts_stmts settings.continueInSwitch p.body start
  rw [Spec] at hspec
  have hprogram : program settings p = (do
      let r ← stmts settings.continueInSwitch p.body start
      if r.2.enclosing.frames.isEmpty then
        return ⟨⟨r.1, r.2.scope.maxSlots⟩, r.2.diagnostics⟩
      else throw (.defect .constructLeftOpen)) := rfl
  have hrun : run = stmts settings.continueInSwitch p.body start := rfl
  rw [hprogram, hrun]
  cases hrun : stmts settings.continueInSwitch p.body start with
  | error abort =>
      rw [hrun] at hspec
      cases abort with
      | slotsExhausted limit =>
          obtain rfl : limit = settings.maxLocals := hspec
          exact .inl ⟨rfl, rfl⟩
      | defect d => exact hspec.elim
  | ok r =>
      obtain ⟨body, s⟩ := r
      rw [hrun] at hspec
      obtain ⟨hlead, hbecomes⟩ := hspec
      -- Nothing was open at the start, so nothing is open at the end.
      have hframes : s.enclosing.frames = [] := by
        cases hf : s.enclosing.frames with
        | nil => rfl
        | cons f rest =>
            have hmarked := hlead.frames
            rw [hf] at hmarked
            cases hmarked
      have hwithin : s.scope.Within := hlead.within ⟨Nat.zero_le _, by simp [start], Nat.zero_le _⟩
      have hlimit : s.scope.limit = settings.maxLocals := hlead.limit
      refine .inr ⟨body, s, rfl, ?_, hbecomes, hframes, hlimit ▸ hwithin.most,
        hlead.nextId.trans (Nat.zero_add _)⟩
      rw [ok_bind]
      simp only [hframes, List.isEmpty_nil, if_true]
      rfl

end Analysis

variable {settings : Settings} {p : Source.Program}

/-- A tree that checking hands on is what the body becomes. -/
theorem check_becomes {h : Annotated.Program} (hc : check settings p = .ok h) :
    ∃ s, Analysis.AllBecome settings.continueInSwitch p.body
        { scope := { limit := settings.maxLocals } } h.body s ∧
      s.enclosing.frames = [] ∧ h.maxSlots = s.scope.maxSlots ∧
      s.scope.maxSlots ≤ settings.maxLocals := by
  obtain ⟨-, hp⟩ | ⟨body, s, -, hp, hbecomes, hframes, hmost, -⟩ := Analysis.program_cases settings p
  · simp [check, hp] at hc
  · rw [check, hp] at hc
    simp only at hc
    split at hc
    · next hd =>
        obtain rfl := Except.ok.inj hc
        exact ⟨s, hbecomes (List.isEmpty_iff.mp hd), hframes, rfl, hmost⟩
    · simp at hc

/-- It is sound. -/
theorem check_sound {h : Annotated.Program} (hc : check settings p = .ok h) :
    ∃ hi, Annotated.Stmt.AllSound none 0 h.body hi := by
  obtain ⟨s, hbecomes, hframes, -⟩ := check_becomes hc
  refine ⟨_, (Analysis.AllBecome.sound p.body hbecomes).holds none ?_⟩
  rw [hframes]
  exact .nil

end MethodCompiler
