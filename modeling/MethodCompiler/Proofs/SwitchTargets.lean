import Mathlib.Algebra.Ring.Nat
import MethodCompiler.Proofs.Parts
import MethodCompiler.Proofs.Preservation
import MethodCompiler.Proofs.SwitchRuns

/-!
# Where a switch goes

A switch of the text says by its labels which group an int leads to. Three things are made
from the labels: the list of case values that checking collects, the dispatch with its
range and its estimates, and the instruction with its table or its sorted pairs. They all
agree with the labels. From every int the instruction jumps to the start of the group that
has the int for a case value, or else to the default group, or else behind the last group;
and it would jump there as well if the other way of looking had been chosen.

A case value is an int literal with signs in front. Negation wraps around, so the least int
is its own opposite here as it is in a run.
-/

namespace MethodCompiler

/-! ## What the labels say -/

namespace Source

/-- The value of a constant: an int, perhaps with signs in front. -/
def Expr.constant? : Expr → Option Int32
  | .literal _ (.int v) => some v
  | .unary _ .minus e => e.constant?.map fun v => -v
  | .unary _ .plus e => e.constant?
  | _ => none

/-- The value of a label, if it is that of a constant. -/
def CaseLabel.value? : CaseLabel → Option Int32
  | .case e => e.constant?
  | .default => none

/-- The case values of a group. -/
def Group.values (group : Group Stmt) : List Int32 :=
  group.labels.filterMap CaseLabel.value?

/-- The case values of groups that are numbered from `index` on. -/
def casesFrom (index : Nat) : List (Group Stmt) → List (Int32 × Nat)
  | [] => []
  | group :: rest => group.values.map (·, index) ++ casesFrom (index + 1) rest

/-- The group with a number has a case label with a value. -/
def HasCase (groups : List (Group Stmt)) (key : Int32) (g : Nat) : Prop :=
  ∃ group, groups[g]? = some group ∧ key ∈ group.values

/-- The group with a number has the default label. -/
def HasDefault (groups : List (Group Stmt)) (g : Nat) : Prop :=
  ∃ group, groups[g]? = some group ∧ .default ∈ group.labels

/-- The number of case values. -/
def caseCount (groups : List (Group Stmt)) : Nat :=
  (groups.map (·.values.length)).sum

theorem length_casesFrom (index : Nat) (groups : List (Group Stmt)) :
    (casesFrom index groups).length = caseCount groups := by
  induction groups generalizing index with
  | nil => rfl
  | cons group rest ih =>
      rw [casesFrom, List.length_append, List.length_map, ih, caseCount, caseCount, List.map_cons,
        List.sum_cons]

theorem mem_casesFrom {index : Nat} {groups : List (Group Stmt)} {key : Int32} {g : Nat} :
    (key, g) ∈ casesFrom index groups ↔ ∃ i, g = index + i ∧ HasCase groups key i := by
  induction groups generalizing index with
  | nil => simp [casesFrom, HasCase]
  | cons group rest ih =>
      rw [casesFrom, List.mem_append, ih]
      constructor
      · intro h
        rcases h with h | ⟨i, rfl, hi⟩
        · obtain ⟨v, hv, heq⟩ := List.mem_map.mp h
          obtain ⟨rfl, rfl⟩ := Prod.mk.inj heq
          exact ⟨0, rfl, group, rfl, hv⟩
        · exact ⟨i + 1, by omega, hi⟩
      · intro h
        obtain ⟨i, rfl, hi⟩ := h
        cases i with
        | zero =>
            obtain ⟨_, hgroup, hv⟩ := hi
            obtain rfl := Option.some.inj hgroup
            exact .inl (List.mem_map.mpr ⟨key, hv, rfl⟩)
        | succ i => exact .inr ⟨i, by omega, hi⟩

end Source

/-! ## Constants -/

namespace Typing

open Annotated (Expr)
open Reported (gives_bind gives_pure not_gives_report)
open Simulation

/-- Typing keeps constants, and what is no constant does not become one. -/
theorem gives_constant {scope : Scope} {used : Bool} (e : Source.Expr) {v : Expr}
    (h : (expr scope used e).Gives v) : constantInt? v = e.constant? := by
  fun_induction Source.Expr.constant? e generalizing used v with
  | case1 line w =>
      obtain rfl := gives_pure.mp h
      rfl
  | case2 line e ih =>
      obtain ⟨a, ha, -, rfl⟩ := gives_unary h
      rw [constantInt?, ih ha]
  | case3 line e ih =>
      obtain ⟨a, ha, -, rfl⟩ := gives_unary h
      rw [constantInt?, ih ha]
  | case4 e hint hminus hplus =>
      cases e with
      | literal line value =>
          obtain rfl := gives_pure.mp h
          cases value with
          | int w => exact (hint line w rfl).elim
          | long | double | boolean | null => rfl
      | var =>
          obtain ⟨l, -, rfl⟩ := gives_var h
          rfl
      | field =>
          obtain ⟨o, -, -, rfl⟩ := gives_field h
          rfl
      | assignment =>
          obtain ⟨p, ty, e, -, -, -, rfl⟩ := gives_assignment h
          rfl
      | binary =>
          obtain ⟨a, b, -, -, h⟩ := gives_binary h
          rcases gives_binary_cases h with ⟨-, -, -, rfl⟩ | ⟨-, -, ⟨-, -, -, -, -, rfl⟩ | h⟩
          · rfl
          · rfl
          · rcases gives_numeric h with ⟨-, rfl⟩ | ⟨-, -, rfl⟩ <;> rfl
      | unary line op e =>
          obtain ⟨a, -, -, rfl⟩ := gives_unary h
          cases op with
          | minus => exact (hminus line e rfl).elim
          | plus => exact (hplus line e rfl).elim
          | bitwiseNot | logicalNot => rfl
      | update =>
          obtain ⟨p, ty, -, -, rfl⟩ := gives_update h
          rfl
      | call =>
          obtain ⟨vs, -, rfl⟩ := gives_call h
          rfl
      | new =>
          obtain rfl := gives_pure.mp h
          rfl

/-- The typed form of a constant, which is an int all through. -/
structure Constant (v : Int32) (e : Expr) : Prop where
  ty : e.ty = .int
  sound : e.Sound true
  types : e.Types (· ≠ .void)
  value : ∀ {σ : Type} (host : Host σ), (Interpretation.expr Interpretation.tested host e).value =
    pure (.int v)

theorem constant_typed (scope : Scope) (used : Bool) (e : Source.Expr) {v : Int32}
    (h : e.constant? = some v) : ∃ e', (expr scope used e).Gives e' ∧ Constant v e' := by
  have hsigned : ∀ (used : Bool) (line : UInt32) (op : UnaryOp), .int ∈ unaryOperands op →
      ∀ {a : Source.Expr} {a' : Expr}, (expr scope true a).Gives a' → a'.ty = .int →
      (expr scope used (.unary line op a)).Gives (.unary .int op a') := by
    intro used line op hop a a' ha hty
    have hfits : (unaryOperands op).any a'.ty.fits = true :=
      List.any_eq_true.mpr ⟨.int, hop, by rw [hty]; rfl⟩
    rw [expr, gives_bind]
    refine ⟨a', ha, ?_⟩
    rw [unary, Ty.expectOneOf, if_pos hfits, hty]
    exact gives_pure.mpr rfl
  fun_induction Source.Expr.constant? e generalizing used v with
  | case1 line w =>
      obtain rfl := Option.some.inj h
      exact ⟨.int .int w, gives_pure.mpr rfl, rfl, trivial, by simp [Annotated.Expr.Types],
        fun _ => rfl⟩
  | case2 line a ih =>
      obtain ⟨w, hw, rfl⟩ := Option.map_eq_some_iff.mp h
      obtain ⟨a', ha', hty, hsound, htypes, hvalue⟩ := ih true hw
      refine ⟨.unary .int .minus a',
        hsigned used line _ (by simp [unaryOperands, Ty.numeric]) ha' hty, rfl, hsound,
        ⟨by simp, htypes⟩, ?_⟩
      intro σ host
      show (do Interpretation.Eval.ofExcept (← (Interpretation.expr _ host a').value).negate) = _
      rw [hvalue host, pure_bind]
      rfl
  | case3 line a ih =>
      obtain ⟨a', ha', hty, hsound, htypes, hvalue⟩ := ih true h
      exact ⟨.unary .int .plus a',
        hsigned used line _ (by simp [unaryOperands, Ty.numeric]) ha' hty, rfl, hsound,
        ⟨by simp, htypes⟩, fun host => hvalue host⟩
  | case4 => cases h

/-- A label without a value is only accepted if its type fits everywhere. -/
theorem gives_label {scope : Scope} {e : Source.Expr} {o : Option Int32}
    (h : (caseValue scope e).Gives o) : ∃ v, (expr scope true e).Gives v ∧ v.ty.fits .int ∧
      constantInt? v = o ∧ (o = none → v.ty = .any) := by
  rw [caseValue, gives_bind] at h
  obtain ⟨v, hv, h⟩ := h
  rw [gives_bind] at h
  obtain ⟨ok, hok, h⟩ := h
  obtain ⟨rfl, hfits⟩ := Ty.gives_expect hok
  refine ⟨v, hv, hfits, ?_⟩
  rw [if_pos rfl] at h
  split at h
  · next w hw =>
      obtain rfl := gives_pure.mp h
      exact ⟨hw, nofun⟩
  · next hnone =>
      split at h
      · obtain ⟨_, hreport, -⟩ := gives_bind.mp h
        exact (not_gives_report hreport).elim
      · next hany =>
          obtain rfl := gives_pure.mp h
          exact ⟨hnone, fun _ => by simpa using hany⟩

theorem gives_caseValue {scope : Scope} {e : Source.Expr} {o : Option Int32}
    (h : (caseValue scope e).Gives o) : o = e.constant? := by
  obtain ⟨v, hv, -, rfl, -⟩ := gives_label h
  exact gives_constant e hv

/-- The code of a constant leaves its value on the stack, wherever it stands. -/
theorem runs_constant {σ : Type} (host : Host σ) (code : Code) {e : Expr} {v : Int32}
    (h : Constant v e) : Runs host code 0 (Lowering.value e) [] (pure (Value.int v)) (fun w => [w]) := by
  rw [← h.value host]
  exact (means_exprCode e h.sound h.types).value

end Typing

/-! ## Collected labels -/

namespace Analysis

open Source (CaseLabel)
open Reported (gives_bind gives_pure not_gives_report)

theorem gives_addLabel {scope : Scope} {line : UInt32} {labels labels' : Labels} {g : Nat}
    {l : CaseLabel} (h : (addLabel scope line labels g l).Gives labels') :
    labels'.cases = labels.cases ++ l.value?.toList.map (·, g) ∧
      ∀ k, labels'.defaultGroup = some k ↔
        labels.defaultGroup = some k ∨ (l = .default ∧ k = g) := by
  cases l with
  | case e =>
      rw [addLabel, gives_bind] at h
      obtain ⟨o, ho, h⟩ := h
      obtain rfl := Typing.gives_caseValue ho
      rw [CaseLabel.value?]
      cases hv : e.constant? with
      | none =>
          rw [hv] at h
          obtain rfl := gives_pure.mp h
          simp
      | some v =>
          rw [hv] at h
          simp only at h
          split at h
          · obtain ⟨_, hreport, -⟩ := gives_bind.mp h
            exact (not_gives_report hreport).elim
          · obtain rfl := gives_pure.mp h
            simp
  | default =>
      rw [addLabel] at h
      split at h
      · obtain ⟨_, hreport, -⟩ := gives_bind.mp h
        exact (not_gives_report hreport).elim
      · next hnone =>
          obtain rfl := gives_pure.mp h
          have hnone : labels.defaultGroup = none := by simpa using hnone
          refine ⟨by simp [CaseLabel.value?], fun k => ?_⟩
          simp [hnone, eq_comm]

theorem gives_addLabels {scope : Scope} {line : UInt32} {labels labels' : Labels} {g : Nat}
    {ls : List CaseLabel}
    (h : (ls.foldlM (fun labels l => addLabel scope line labels g l) labels).Gives labels') :
    labels'.cases = labels.cases ++ (ls.filterMap CaseLabel.value?).map (·, g) ∧
      ∀ k, labels'.defaultGroup = some k ↔
        labels.defaultGroup = some k ∨ (.default ∈ ls ∧ k = g) := by
  induction ls generalizing labels with
  | nil =>
      obtain rfl := gives_pure.mp h
      simp
  | cons l rest ih =>
      rw [List.foldlM_cons, gives_bind] at h
      obtain ⟨labels₁, h₁, h⟩ := h
      obtain ⟨hcases₁, hdefault₁⟩ := gives_addLabel h₁
      obtain ⟨hcases, hdefault⟩ := ih h
      refine ⟨?_, fun k => ?_⟩
      · rw [hcases, hcases₁, List.append_assoc, ← List.map_append]
        cases hv : l.value? <;> simp [hv]
      · rw [hdefault, hdefault₁, or_assoc, ← or_and_right, List.mem_cons, eq_comm (a := l)]

/-- Checking collects the case values in the order of the groups, and notes where the
default label is. -/
theorem gives_switchLabels {scope : Scope} {line : UInt32} {labels labels' : Labels} {index : Nat}
    {groups : List (Source.Group Source.Stmt)}
    (h : (switchLabels scope line labels index groups).Gives labels') :
    labels'.cases = labels.cases ++ Source.casesFrom index groups ∧
      ∀ k, labels'.defaultGroup = some k ↔
        labels.defaultGroup = some k ∨ ∃ i, k = index + i ∧ Source.HasDefault groups i := by
  induction groups generalizing labels index with
  | nil =>
      obtain rfl := gives_pure.mp h
      simp [Source.casesFrom, Source.HasDefault]
  | cons group rest ih =>
      rw [switchLabels, gives_bind] at h
      obtain ⟨labels₁, h₁, h⟩ := h
      obtain ⟨hcases₁, hdefault₁⟩ := gives_addLabels h₁
      obtain ⟨hcases, hdefault⟩ := ih h
      refine ⟨?_, fun k => ?_⟩
      · rw [hcases, hcases₁, List.append_assoc]
        rfl
      · rw [hdefault, hdefault₁, or_assoc]
        refine or_congr_right ⟨?_, ?_⟩
        · intro h
          rcases h with ⟨hmem, rfl⟩ | ⟨i, rfl, hi⟩
          · exact ⟨0, rfl, group, rfl, hmem⟩
          · exact ⟨i + 1, by omega, hi⟩
        · intro h
          obtain ⟨i, rfl, hi⟩ := h
          cases i with
          | zero =>
              obtain ⟨_, hgroup, hmem⟩ := hi
              obtain rfl := Option.some.inj hgroup
              exact .inl ⟨hmem, rfl⟩
          | succ i => exact .inr ⟨i, by omega, hi⟩

end Analysis

/-! ## The choice of a dispatch -/

/-- A table is only chosen if it is small for the number of its cases. -/
theorem DispatchKind.table_le {lo hi : Int32} {count : Nat} (hcount : count ≤ 4294967296)
    (h : DispatchKind.choose lo hi count = .ok .table) :
    hi.toInt - lo.toInt + 1 ≤ 5 * (count : Int) - 10 := by
  have hlo := Int32.toInt_lt lo
  have hlo' := Int32.le_toInt lo
  have hhi := Int32.toInt_lt hi
  have hhi' := Int32.le_toInt hi
  by_cases h0 : count = 0
  · rw [DispatchKind.choose, if_pos h0] at h
    cases h
  · rw [DispatchKind.choose, if_neg h0, DispatchCost.estimate_ok lo hi hcount, ok_bind,
      DispatchCost.tableWins_ok (by omega) (by omega) (by omega), ok_bind] at h
    by_cases hwins : 5 + hi.toInt - lo.toInt + 9 ≤ 3 + 2 * (count : Int) + 3 * count
    · omega
    · rw [decide_eq_false hwins] at h
      cases h

/-- The dispatch of a switch agrees with its labels. -/
structure Dispatch.Follows (d : Dispatch) (groups : List (Source.Group Source.Stmt)) : Prop where
  sound : d.Sound groups.length
  mem_cases : ∀ key g, (key, g) ∈ d.cases ↔ Source.HasCase groups key g
  default_iff : ∀ g, d.defaultGroup = some g ↔ Source.HasDefault groups g
  count_eq : d.count = Source.caseCount groups
  chosen : DispatchKind.choose d.lo d.hi (Source.caseCount groups) = .ok d.kind

namespace Dispatch.Follows

open Source (HasCase HasDefault)

variable {d : Dispatch} {groups : List (Source.Group Source.Stmt)} (h : d.Follows groups)

include h

theorem lookup_eq_some_iff {key : Int32} {g : Nat} :
    d.groupFor key = some g ↔ HasCase groups key g := by
  rw [← h.mem_cases, Dispatch.groupFor]
  constructor
  · intro hlookup
    obtain ⟨l₁, l₂, hcases, -⟩ := List.lookup_eq_some_iff.mp hlookup
    rw [hcases]
    simp
  · intro hmem
    cases hlookup : d.cases.lookup key with
    | none =>
        have hne := List.lookup_eq_none_iff.mp hlookup (key, g) hmem
        simp at hne
    | some g' =>
        obtain ⟨l₁, l₂, hcases, -⟩ := List.lookup_eq_some_iff.mp hlookup
        have hmem' : (key, g') ∈ d.cases := by
          rw [hcases]
          simp
        have heq := List.inj_on_of_nodup_map h.sound.nodup hmem hmem' rfl
        rw [Prod.mk.inj heq |>.2]

theorem hasCase_unique {key : Int32} {g g' : Nat} (hg : HasCase groups key g)
    (hg' : HasCase groups key g') : g = g' :=
  Option.some.inj ((h.lookup_eq_some_iff.mpr hg).symm.trans (h.lookup_eq_some_iff.mpr hg'))

theorem hasDefault_unique {g g' : Nat} (hg : HasDefault groups g) (hg' : HasDefault groups g') :
    g = g' :=
  Option.some.inj (((h.default_iff g).mpr hg).symm.trans ((h.default_iff g').mpr hg'))

theorem count_le : Source.caseCount groups ≤ 4294967296 := by
  have hlen := length_le_of_nodup h.sound.nodup
  rw [List.length_map, ← h.sound.count_eq, h.count_eq] at hlen
  exact hlen

end Dispatch.Follows

theorem Analysis.follows_of_labels {scope : Scope} {line : UInt32} {labels : Analysis.Labels}
    {groups : List (Source.Group Source.Stmt)} {d : Dispatch}
    (hlabels : (Analysis.switchLabels scope line {} 0 groups).Gives labels)
    (hd : Dispatch.ofCases labels.cases labels.defaultGroup = .ok d) : d.Follows groups := by
  have hfit : labels.Fit groups.length := by
    rw [← hlabels.1]
    exact Analysis.switchLabels_fit scope line groups ⟨by simp, by simp, by simp⟩ (by simp)
  obtain ⟨hcases, hdefault⟩ := Analysis.gives_switchLabels hlabels
  rw [List.nil_append] at hcases
  have hlen : labels.cases.length = Source.caseCount groups := by
    rw [hcases, Source.length_casesFrom]
  obtain ⟨d', hd', hsound⟩ := Dispatch.ofCases_ok labels.defaultGroup hfit.nodup
  obtain rfl : d' = d := Except.ok.inj (hd'.symm.trans hd)
  have hsound := hsound _ hfit.group_lt hfit.default_lt
  cases hkind : DispatchKind.choose ((labels.cases.map (·.1)).min?.getD 0)
      ((labels.cases.map (·.1)).max?.getD 0) labels.cases.length with
  | error e =>
      rw [Dispatch.ofCases, hkind] at hd
      cases hd
  | ok kind =>
      rw [Dispatch.ofCases, hkind, ok_bind] at hd
      obtain rfl := Except.ok.inj hd
      refine ⟨hsound, fun key g => ?_, fun g => ?_, hlen, hlen ▸ hkind⟩
      · show (key, g) ∈ labels.cases ↔ _
        rw [hcases, Source.mem_casesFrom]
        simp
      · show labels.defaultGroup = some g ↔ _
        rw [hdefault]
        simp

/-! ## Groups in the code -/

namespace Simulation

open Annotated (Stmt)
open Lowering hiding stmt stmts groups catches catching
open Machine
open Source (HasCase HasDefault)

variable {σ : Type} {code : Code}

/-- The code of groups, one after another from `pc` up to `past`, and where each starts. -/
def GroupsAt (code : Code) (T : Targets) (R : List Region) (around : List Guard) :
    List (List Stmt) → Nat → List Nat → Nat → Prop
  | [], pc, starts, past => starts = [] ∧ past = pc
  | body :: rest, pc, starts, past => ∃ n ps n' starts',
    (Lowering.stmts T R body).Yields n () ps n' ∧ Standing code around pc ps ∧
      starts = pc :: starts' ∧ GroupsAt code T R around rest (pc + size (layOut ps)) starts' past

/-- A group starts where its labels are. -/
theorem groupsAt_of_standing {T : Targets} {R : List Region} {around : List Guard} {d : Dispatch}
    {default : Label} {cases : List CaseTarget} (bodies : List (List Stmt)) {index n n' pc : Nat}
    {ps : List Piece}
    (hy : (Lowering.groups T R (placeGroup d default cases) index bodies).Yields n () ps n')
    (hps : Standing code around pc ps) :
    ∃ starts, GroupsAt code T R around bodies pc starts (pc + size (layOut ps)) ∧
      ∀ g < bodies.length, ∃ q, starts[g]? = some q ∧
        ∀ l ∈ labelsOfGroup d default cases (index + g), code.position l = some q := by
  induction bodies generalizing index n pc ps with
  | nil =>
      obtain ⟨rfl, rfl⟩ := yields_groups_nil hy
      exact ⟨[], ⟨rfl, rfl⟩, fun g hg => absurd hg (Nat.not_lt_zero g)⟩
  | cons body rest ih =>
      obtain ⟨first, m, others, hfirst, hothers, rfl⟩ := yields_groups_cons hy
      simp only [standing_append, layOut_append, size_append, size_groupLabels, Nat.zero_add,
        Nat.add_zero, ← Nat.add_assoc] at hps ⊢
      obtain ⟨⟨hlabels, hsf⟩, hso⟩ := hps
      obtain ⟨starts, hgroups, hstarts⟩ := ih hothers hso
      refine ⟨pc :: starts, ⟨n, first, m, starts, hfirst, hsf, rfl, hgroups⟩, fun g hg => ?_⟩
      cases g with
      | zero => exact ⟨pc, rfl, standing_groupLabels hlabels⟩
      | succ g =>
          obtain ⟨q, hq, hl⟩ := hstarts g (by simpa using hg)
          rw [Nat.add_right_comm, Nat.add_assoc] at hl
          exact ⟨q, hq, hl⟩

/-- Where an int leads by the labels of a switch. -/
structure Leads (groups : List (Source.Group Source.Stmt)) (starts : List Nat) (past : Nat)
    (key : Int32) (dest : Nat) : Prop where
  toCase : ∀ g, HasCase groups key g → starts[g]? = some dest
  toDefault : (∀ g, ¬ HasCase groups key g) → ∀ g, HasDefault groups g → starts[g]? = some dest
  toEnd : (∀ g, ¬ HasCase groups key g) → (∀ g, ¬ HasDefault groups g) → dest = past

/-- The instruction of a dispatch for either way of looking. -/
def dispatchInstruction (d : Dispatch) (default : Label) (cases : List CaseTarget) :
    DispatchKind → Instruction
  | .table => ⟨.tableSwitch, some (.table ⟨default, d.lo, d.hi,
      (tableTargets d.lo d.hi default (sortedTargets cases)).toArray⟩)⟩
  | .lookup => ⟨.lookupSwitch, some (.lookup ⟨default, (sortedTargets cases).toArray⟩)⟩

theorem instruction_dispatchDirective (d : Dispatch) (default : Label) (cases : List CaseTarget)
    (kind : DispatchKind) :
    (dispatchDirective { d with kind := kind } default cases).instruction? =
      some (dispatchInstruction d default cases kind) := by
  cases kind <;> rfl

/-- The label of every int is where the int leads. -/
theorem leads_picked {d : Dispatch} {groups : List (Source.Group Source.Stmt)}
    (hd : d.Follows groups) {n past : Nat} {default : Label} {starts : List Nat}
    (hstarts : ∀ g < groups.length, ∃ q, starts[g]? = some q ∧
      ∀ l ∈ labelsOfGroup d default (numbered n d.cases) g, code.position l = some q)
    (hpast : d.defaultGroup.isNone → code.position default = some past) (key : Int32) :
    ∃ dest, code.position (picked default (numbered n d.cases) key) = some dest ∧
      Leads groups starts past key dest := by
  cases hg : (d.groupFor key <|> d.defaultGroup) with
  | none =>
      obtain ⟨hpicked, hnone⟩ : picked default (numbered n d.cases) key = default ∧ _ :=
        picked_default hd.sound key hg
      have hnoDefault : ∀ g, ¬ HasDefault groups g := by
        intro g hdefault
        rw [(hd.default_iff g).mpr hdefault] at hnone
        cases hnone
      refine ⟨past, ?_, ?_, ?_, fun _ _ => rfl⟩
      · rw [hpicked]
        exact hpast (by rw [hnone]; rfl)
      · intro g hcase
        rw [hd.lookup_eq_some_iff.mpr hcase] at hg
        cases hg
      · intro _ g hdefault
        exact absurd hdefault (hnoDefault g)
  | some g =>
      have hcases : HasCase groups key g ∨ ((∀ g, ¬ HasCase groups key g) ∧ HasDefault groups g) := by
        cases hfor : d.groupFor key with
        | none =>
            rw [hfor] at hg
            refine .inr ⟨fun g' hcase => ?_, (hd.default_iff g).mp hg⟩
            rw [hd.lookup_eq_some_iff.mpr hcase] at hfor
            cases hfor
        | some g' =>
            rw [hfor] at hg
            obtain rfl := Option.some.inj hg
            exact .inl (hd.lookup_eq_some_iff.mp hfor)
      have hlt : g < groups.length := by
        rcases hcases with ⟨group, hgroup, -⟩ | ⟨-, group, hgroup, -⟩ <;>
          exact (List.getElem?_eq_some_iff.mp hgroup).1
      obtain ⟨dest, hdest, hlabels⟩ := hstarts g hlt
      refine ⟨dest, hlabels _ (picked_mem hd.sound key hg), fun g' hcase => ?_,
        fun hnone g' hdefault => ?_, fun hnone hnoDefault => ?_⟩
      · rcases hcases with hcase' | ⟨hnone, -⟩
        · rw [hd.hasCase_unique hcase hcase']
          exact hdest
        · exact absurd hcase (hnone g')
      · rcases hcases with hcase | ⟨-, hdefault'⟩
        · exact absurd hcase (hnone g)
        · rw [hd.hasDefault_unique hdefault hdefault']
          exact hdest
      · rcases hcases with hcase | ⟨-, hdefault⟩
        · exact absurd hcase (hnone g)
        · exact absurd hdefault (hnoDefault g)

/-- The code of a switch: at `q` the instruction that picks a group, then the groups. -/
structure SwitchAt (code : Code) (groups : List (Source.Group Source.Stmt))
    (bodies : List (List Stmt)) (d : Dispatch) (default : Label) (cases : List CaseTarget)
    (q past : Nat) (starts : List Nat) : Prop where
  instruction : code.instructions[q]? = some (dispatchInstruction d default cases d.kind)
  standing : ∃ T R around, GroupsAt code T R around bodies (q + 1) starts past
  leads : ∀ key, ∃ dest, Leads groups starts past key dest ∧
    ∀ {σ : Type} (host : Host σ) (m : Machine σ) (S : List Value) (kind : DispatchKind),
      (m.on (.int key :: S)).step host code (dispatchInstruction d default cases kind) =
        .jump dest (m.on S)

theorem switchAt_of_standing {groups : List (Source.Group Source.Stmt)} {d : Dispatch}
    (hd : d.Follows groups) {T : Targets} {R : List Region} {id n n' pc : Nat} {hasBreak : Bool}
    {selector : Annotated.Expr} {bodies : List (List Stmt)} {ps : List Piece}
    {around : List Guard} (hlength : bodies.length = groups.length)
    (hy : (Lowering.stmt T R (.switch id hasBreak selector bodies d)).Yields n () ps n')
    (hps : Standing code around pc ps) :
    ∃ default cases q starts, SwitchAt code groups bodies d default cases q
      (pc + size (layOut ps)) starts := by
  obtain ⟨-, -, key, k, codes, -, hcodes, rfl⟩ := yields_switch hy
  have hi := instruction_dispatchDirective d (k + 1) (numbered (k + 2) d.cases) d.kind
  have hwidth : (dispatchDirective d (k + 1) (numbered (k + 2) d.cases)).width = 1 := by
    rw [Directive.width, hi]
    rfl
  simp only [switchPieces, standing_statement, standing_append, standing_created,
    standing_instruction hi, standing_placedIf, standing_nil, layOut_append, layOut_cons_give,
    layOut_nil, size_append, size_cons, size_nil, size_created, size_placedIf, hwidth, and_true,
    Nat.add_zero, ← Nat.add_assoc] at hps
  obtain ⟨⟨⟨⟨-, ⟨hat, -⟩⟩, hsc⟩, hdefault⟩, -⟩ := hps
  obtain ⟨starts, hgroups, hstarts⟩ := groupsAt_of_standing bodies hcodes hsc
  have hsize : size (layOut (switchPieces d hasBreak k key codes)) =
      size (layOut key) + 1 + size (layOut codes) := by
    simp [switchPieces, layOut_append, hwidth, Nat.add_assoc]
  rw [hsize, ← Nat.add_assoc, ← Nat.add_assoc]
  refine ⟨k + 1, numbered (k + 2) d.cases, pc + size (layOut key), starts, hat,
    ⟨_, R, around, hgroups⟩, fun key => ?_⟩
  rw [hlength] at hstarts
  simp only [Nat.zero_add] at hstarts
  obtain ⟨dest, hdest, hleads⟩ := leads_picked hd hstarts hdefault key
  refine ⟨dest, hleads, fun host m S kind => ?_⟩
  exact step_dispatch hd.sound key kind (instruction_dispatchDirective d _ _ kind) hdest m S

end Simulation

/-! ## Every switch -/

open Simulation

/-- From every int the code of a switch goes where the labels of the text lead, by a table
or by a search. A table is small for the number of its cases, and every int in its range has
an entry. -/
theorem switch_dispatches {settings : Settings} {p : Source.Program} {h : Annotated.Program}
    {maxLabels : Nat} {code : Code} (hcheck : check settings p = .ok h)
    (hgen : generate maxLabels h = .ok code) {i : Nat} {line : UInt32} {selector : Source.Expr}
    {groups : List (Source.Group Source.Stmt)}
    (hi : (Source.Stmt.allParts p.body)[i]? = some (.switch line selector groups)) :
    -- at most one group for each int, and the value of a label is that of its code
    (∀ key g g', Source.HasCase groups key g → Source.HasCase groups key g' → g = g') ∧
    (∀ g g', Source.HasDefault groups g → Source.HasDefault groups g' → g = g') ∧
    (∀ e v, e.constant? = some v → ∀ scope, ∃ e', (Typing.expr scope true e).Gives e' ∧
      ∀ {σ : Type} (host : Host σ) (code : Code),
        Runs host code 0 (Lowering.value e') [] (pure (Value.int v)) fun w => [w]) ∧
    ∃ id hasBreak v bodies d,
      (Annotated.Stmt.allParts h.body)[i]? = some (.switch id hasBreak v bodies d) ∧
      DispatchKind.choose d.lo d.hi (Source.caseCount groups) = .ok d.kind ∧
      StandsSomewhere code (.switch id hasBreak v bodies d) ∧
      ∀ T R n ps n' around pc,
        (Lowering.stmt T R (.switch id hasBreak v bodies d)).Yields n () ps n' →
        Standing code around pc ps →
        ∃ default cases q starts,
          SwitchAt code groups bodies d default cases q (pc + size (Lowering.layOut ps)) starts ∧
          ∀ t, code.instructions[q]? = some ⟨.tableSwitch, some (.table t)⟩ →
            (t.targets.size : Int) = t.high.toInt - t.low.toInt + 1 ∧
            (t.targets.size : Int) ≤ 5 * (Source.caseCount groups : Int) - 10 := by
  obtain ⟨t, ht, policy, st, st', hbecomes⟩ := check_parts hcheck hi
  obtain ⟨id, hasBreak, v, labels, bodies, d, -, -, hlabels, -, hbodies, hd, rfl⟩ := hbecomes
  have hfollows := Analysis.follows_of_labels hlabels hd
  obtain ⟨-, ps, n', hps, hst⟩ := standing_program hgen
  obtain ⟨body, hbody, rfl⟩ := Lowering.yields_program.mp hps
  have hstands := stands_allParts h.body hbody (standing_append.mp hst).1 _
    (List.mem_of_getElem? ht)
  refine ⟨fun key g g' => hfollows.hasCase_unique, fun g g' => hfollows.hasDefault_unique, ?_,
    id, hasBreak, v, bodies, d, ht, hfollows.chosen, hstands, ?_⟩
  · intro e v he scope
    obtain ⟨e', he', hconstant⟩ := Typing.constant_typed scope true e he
    exact ⟨e', he', fun host code => Typing.runs_constant host code hconstant⟩
  · intro T R n ps n' around pc hy hps
    obtain ⟨default, cases, q, starts, hat⟩ := switchAt_of_standing hfollows hbodies.length hy hps
    refine ⟨default, cases, q, starts, hat, fun t htable => ?_⟩
    rw [hat.instruction] at htable
    have htable := Option.some.inj htable
    have hchosen := hfollows.chosen
    cases hkind : d.kind with
    | lookup =>
        rw [hkind] at htable
        cases htable
    | table =>
        rw [hkind] at htable hchosen
        cases htable
        have hle := DispatchKind.table_le hfollows.count_le hchosen
        have hrange := Int32.le_iff_toInt_le.mp hfollows.sound.lo_le_hi
        have hsize : ((Lowering.tableTargets d.lo d.hi default
            (Lowering.sortedTargets cases)).toArray.size : Int) = d.hi.toInt - d.lo.toInt + 1 := by
          rw [List.size_toArray, Lowering.tableTargets, List.length_map, List.length_range]
          omega
        exact ⟨hsize, by rw [hsize]; exact hle⟩

/-- Groups for both ends of the ints. The least one is written as its own opposite, and the
default label is at the first group. -/
def extremeGroups : List (Source.Group Source.Stmt) :=
  [⟨[.case (.literal 2 (.int 2147483647)), .default], [.breakJump 2]⟩,
    ⟨[.case (.unary 3 .minus (.literal 3 (.int (-2147483648)))),
      .case (.unary 3 .plus (.literal 3 (.int 7)))], [.empty]⟩]

/-- A switch of these groups in a loop. -/
def extremes : Source.Program :=
  ⟨[.whileLoop 1 (.literal 1 (.boolean true))
    (.switch 1 (.call 1 "key" [] .int) extremeGroups)]⟩

theorem switch_dispatches_extremes :
    Source.HasCase extremeGroups (-2147483648) 1 ∧
    ∃ h code, check {} extremes = .ok h ∧ generate 4294967295 h = .ok code ∧
      ∃ (q dest : Nat) (i : Instruction) (starts : List Nat), code.instructions[q]? = some i ∧
        starts[1]? = some dest ∧ ∀ {σ : Type} (host : Host σ) (m : Machine σ) (S : List Value),
          (m.on (.int (-2147483648) :: S)).step host code i = .jump dest (m.on S) := by
  have hpart : (Source.Stmt.allParts extremes.body)[1]? =
      some (.switch 1 (.call 1 "key" [] .int) extremeGroups) := rfl
  have hcase : Source.HasCase extremeGroups (-2147483648) 1 := ⟨_, rfl, by decide⟩
  refine ⟨hcase, ?_⟩
  have hcode : (compile {} extremes).toOption.isSome := by decide +kernel
  rw [compile] at hcode
  cases hcheck : check {} extremes with
  | error e =>
      rw [hcheck] at hcode
      cases hcode
  | ok h =>
      rw [hcheck, ok_bind] at hcode
      cases hgen : generate 4294967295 h with
      | error e =>
          rw [show ({} : Settings).maxLabels = 4294967295 from rfl, hgen] at hcode
          cases hcode
      | ok code =>
          obtain ⟨-, -, -, id, hasBreak, v, bodies, d, -, -, hstands, hplaces⟩ :=
            switch_dispatches hcheck hgen hpart
          obtain ⟨T, R, n, n', ps, around, pc, hy, hps⟩ := hstands
          obtain ⟨default, cases, q, starts, hat, -⟩ := hplaces T R n ps n' around pc hy hps
          obtain ⟨dest, hleads, hstep⟩ := hat.leads (-2147483648)
          exact ⟨h, code, rfl, hgen, q, dest, _, starts, hat.instruction, hleads.toCase 1 hcase,
            fun host m S => hstep host m S d.kind⟩

end MethodCompiler
