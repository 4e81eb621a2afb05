import MethodCompiler.Proofs.Shapes
import MethodCompiler.Proofs.StructuredRuns

/-!
# Runs of the code of switches

A switch looks its key up among the labels of its cases, in a table or by a search, and
finds the label of the first group that the key stands at, or else the default label. All
labels of a group are placed at its start, and the default label, if there is no default
group, behind the last one. So the run comes to the group that the tree picks, and from
there each group runs into the next.
-/

namespace MethodCompiler.Simulation

open Lowering hiding stmt stmts groups catches catching
open Interpretation Machine

variable {σ : Type} {host : Host σ} {code : Code} {rounds : Nat}

/-! ## Picking a label -/

/-- The label that a key leads to. -/
def picked (default : Label) (cases : List CaseTarget) (key : Int32) : Label :=
  ((sortedTargets cases).lookup key).getD default

/-- Among sorted pairs a search from the end finds what a search from the start does. -/
theorem findRev?_eq_lookup {l : List (Int32 × Label)} (h : (l.map (·.1)).Pairwise (· < ·))
    (key : Int32) : (l.toArray.findRev? (·.1 == key)).map (·.2) = l.lookup key := by
  rw [Array.findRev?_eq_find?_reverse, List.reverse_toArray, List.find?_toArray]
  induction l with
  | nil => rfl
  | cons p rest ih =>
      obtain ⟨k, label⟩ := p
      rw [List.map_cons, List.pairwise_cons] at h
      rw [List.reverse_cons, List.find?_append, List.lookup_cons]
      by_cases hk : key = k
      · subst hk
        have hnone : rest.reverse.find? (·.1 == key) = none := by
          rw [List.find?_eq_none]
          intro p hp heq
          have hlt := h.1 p.1 (List.mem_map_of_mem (List.mem_reverse.mp hp))
          rw [eq_of_beq heq] at hlt
          exact Int32.lt_irrefl hlt
        simp [hnone]
      · have hne : (k == key) = false := beq_false_of_ne (Ne.symm hk)
        rw [beq_false_of_ne hk, ← ih h.2]
        simp [hne]

/-- A table leads from each key in its range where a search would. -/
theorem getElem?_tableTargets {lo hi key : Int32} (hlo : lo ≤ key) (hhi : key ≤ hi)
    (default : Label) (sorted : List (Int32 × Label)) :
    (tableTargets lo hi default sorted)[(key.toInt - lo.toInt).toNat]? =
      some ((sorted.lookup key).getD default) := by
  have hlo := Int32.le_iff_toInt_le.mp hlo
  have hhi := Int32.le_iff_toInt_le.mp hhi
  have hlt : (key.toInt - lo.toInt).toNat < (hi.toInt - lo.toInt + 1).toNat := by omega
  have hkey : lo.toInt + ((key.toInt - lo.toInt).toNat : Int) = key.toInt := by omega
  rw [tableTargets, List.getElem?_map, List.getElem?_range hlt, Option.map_some, hkey,
    Int32.ofInt_toInt]

theorem lookup_cases (n : Nat) (cases : List (Int32 × Nat)) (key : Int32) :
    cases.lookup key = ((numbered n cases).find? (·.value == key)).map (·.group) := by
  induction cases generalizing n with
  | nil => rfl
  | cons c rest ih =>
      obtain ⟨v, g⟩ := c
      rw [List.lookup_cons, numbered, List.find?_cons]
      by_cases hv : key = v
      · subst hv
        simp
      · simp only [beq_false_of_ne hv, beq_false_of_ne (Ne.symm hv)]
        exact ih (n + 1)

section Picking

variable {groups n : Nat} {default : Label} {d : Dispatch} (hd : d.Sound groups) (key : Int32)

include hd

theorem lookup_sorted_cases (n : Nat) : (sortedTargets (numbered n d.cases)).lookup key =
    ((numbered n d.cases).find? (·.value == key)).map (·.label) := by
  have hnodup : ((numbered n d.cases).map (·.value)).Nodup := by
    rw [map_value_numbered]
    exact hd.nodup
  exact lookup_sortedTargets hnodup

/-- The label of a key is one of those that its group places. -/
theorem picked_mem {g : Nat} (hg : (d.groupFor key <|> d.defaultGroup) = some g) :
    picked default (numbered n d.cases) key ∈
      labelsOfGroup d default (numbered n d.cases) g := by
  rw [mem_labelsOfGroup, picked, lookup_sorted_cases hd]
  rw [Dispatch.groupFor, lookup_cases n] at hg
  cases hfind : (numbered n d.cases).find? (·.value == key) with
  | none =>
      rw [hfind] at hg
      exact .inl ⟨hg, rfl⟩
  | some c =>
      rw [hfind] at hg
      exact .inr ⟨c, List.mem_of_find?_eq_some hfind, Option.some.inj hg, rfl⟩

theorem picked_default (hnone : (d.groupFor key <|> d.defaultGroup) = none) :
    picked default (numbered n d.cases) key = default ∧ d.defaultGroup = none := by
  rw [picked, lookup_sorted_cases hd]
  rw [Dispatch.groupFor, lookup_cases n] at hnone
  cases hfind : (numbered n d.cases).find? (·.value == key) with
  | none =>
      rw [hfind] at hnone
      exact ⟨rfl, hnone⟩
  | some c =>
      rw [hfind] at hnone
      cases hnone

/-- A key outside the range of a table is no case. -/
theorem picked_outside (hkey : ¬ (d.lo ≤ key ∧ key ≤ d.hi)) :
    picked default (numbered n d.cases) key = default := by
  rw [picked, lookup_sorted_cases hd]
  cases hfind : (numbered n d.cases).find? (·.value == key) with
  | none => rfl
  | some c =>
      have hvalue : c.value = key := by simpa using List.find?_some hfind
      have hmem : key ∈ d.cases.map (·.1) := by
        rw [← map_value_numbered (n := n), ← hvalue]
        exact List.mem_map_of_mem (List.mem_of_find?_eq_some hfind)
      obtain ⟨p, hp, rfl⟩ := List.mem_map.mp hmem
      exact (hkey ⟨hd.lo_le p hp, hd.le_hi p hp⟩).elim

/-- The instruction that picks a group jumps to the label of its key, whichever way it
looks for it. -/
theorem step_dispatch (kind : DispatchKind) {i : Instruction}
    (hi : (dispatchDirective { d with kind := kind } default (numbered n d.cases)).instruction? =
      some i) {dest : Nat}
    (hdest : code.position (picked default (numbered n d.cases) key) = some dest)
    (m : Machine σ) (S : List Value) :
    (m.on (.int key :: S)).step host code i = .jump dest (m.on S) := by
  rw [dispatchDirective] at hi
  cases kind with
  | table =>
      obtain rfl := Option.some.inj hi
      simp only [step, switchByTable, withInt, withTop, on_stack, Value.int?]
      by_cases hrange : d.lo ≤ key ∧ key ≤ d.hi
      · rw [if_pos hrange]
        simp only [List.getElem?_toArray, getElem?_tableTargets hrange.1 hrange.2, goTo]
        rw [picked] at hdest
        rw [hdest]
        rfl
      · rw [if_neg hrange, goTo]
        rw [picked_outside hd key hrange] at hdest
        simp only [hdest]
        rfl
  | lookup =>
      obtain rfl := Option.some.inj hi
      have hfind := findRev?_eq_lookup (pairwise_sortedTargets (numbered n d.cases)) key
      rw [picked, ← hfind] at hdest
      simp only [step, switchByLookup, withInt, withTop, on_stack, Value.int?]
      cases hpair : (sortedTargets (numbered n d.cases)).toArray.findRev? (·.1 == key) with
      | none =>
          rw [hpair] at hdest
          have hdest : code.position default = some dest := hdest
          simp only [goTo, hdest]
          rfl
      | some p =>
          rw [hpair] at hdest
          have hdest : code.position p.2 = some dest := hdest
          simp only [goTo, hdest]
          rfl

theorem onward_dispatch {i : Instruction}
    (hi : (dispatchDirective d default (numbered n d.cases)).instruction? = some i) {pc dest : Nat}
    (hat : code.instructions[pc]? = some i)
    (hdest : code.position (picked default (numbered n d.cases) key) = some dest)
    (m : Machine σ) : Onward host code (pc, m.on [.int key]) (dest, m.on []) := by
  show (m.on [.int key]).advance host code pc = _
  rw [advance, hat]
  simp only [step_dispatch hd key d.kind hi hdest m []]

end Picking

theorem instruction_dispatch (d : Dispatch) (default : Label) (cases : List CaseTarget) :
    ∃ i, (dispatchDirective d default cases).instruction? = some i := by
  rw [dispatchDirective]
  cases d.kind with
  | table | lookup => exact ⟨_, rfl⟩

theorem advance_notAnInt {d : Dispatch} {default : Label} {cases : List CaseTarget}
    {i : Instruction} (hi : (dispatchDirective d default cases).instruction? = some i) {pc : Nat}
    (hat : code.instructions[pc]? = some i) {v : Value} (hv : v.int? = none) (m : Machine σ) :
    (m.on [v]).advance host code pc = .ended (.stopped (.value (.notAnInt v))) (m.on []) := by
  rw [advance, hat]
  rw [dispatchDirective] at hi
  cases hkind : d.kind with
  | table | lookup =>
      rw [hkind] at hi
      obtain rfl := Option.some.inj hi
      simp only [step, switchByTable, switchByLookup, withInt, withTop, on_stack, hv]
      rfl

/-! ## Groups -/

variable {C : Context}

theorem standing_groupLabels {around : List Guard} {pc : Nat} {d : Dispatch} {default : Label}
    {cases : List CaseTarget} {group : Nat}
    (h : Standing code around pc (groupLabels d default cases group)) :
    ∀ l ∈ labelsOfGroup d default cases group, code.position l = some pc := by
  have hlaid := h.laid
  rw [layOut_groupLabels] at hlaid
  generalize labelsOfGroup d default cases group = ls at hlaid
  induction ls with
  | nil => simp
  | cons l ls ih =>
      rw [List.map_cons, laid_cons] at hlaid
      exact List.forall_mem_cons.mpr ⟨hlaid.1, ih hlaid.2⟩

@[simp]
theorem size_groupLabels (d : Dispatch) (default : Label) (cases : List CaseTarget) (group : Nat) :
    size (layOut (groupLabels d default cases group)) = 0 := by
  rw [layOut_groupLabels]
  induction labelsOfGroup d default cases group with
  | nil => rfl
  | cons l ls ih => rw [List.map_cons, size_cons, ih, Directive.width_place]

/-- Groups of a switch, the first of which stands at `pc`. Each can be entered at its labels
and runs into the next, up to the end of the last one. -/
structure RunsGroups (host : Host σ) (code : Code) (rounds : Nat) (C : Context)
    (labels : Nat → List Label) (pc next index count : Nat) (bodies : Nat → Eval σ Flow) :
    Prop where
  first : ∀ m, Ends host code rounds C.guards.flatten (pc, m.on []) (bodies 0 m)
    (Goes host code C next (pc, m.on []))
  entered : ∀ g < count, ∃ q, (∀ l ∈ labels (index + g), code.position l = some q) ∧
    ∀ m, Ends host code rounds C.guards.flatten (q, m.on []) (bodies g m)
      (Goes host code C next (q, m.on []))

theorem runsGroups_nil {labels : Nat → List Label} {pc index : Nat} :
    RunsGroups host code rounds C labels pc pc index 0 fun _ => pure .normal :=
  ⟨fun _ => Relation.ReflTransGen.refl, nofun⟩

theorem runsGroups_cons {labels : Nat → List Label} {pc mid next index count : Nat}
    {body : Eval σ Flow} {bodies rest : Nat → Eval σ Flow}
    (hfirst : bodies 0 = Eval.andThen body (rest 0)) (hlater : ∀ g, bodies (g + 1) = rest g)
    (hlabels : ∀ l ∈ labels index, code.position l = some pc)
    (hbody : ∀ m, Ends host code rounds C.guards.flatten (pc, m.on []) (body m)
      (Goes host code C mid (pc, m.on [])))
    (hrest : RunsGroups host code rounds C labels mid next (index + 1) count rest) :
    RunsGroups host code rounds C labels pc next index (count + 1) bodies := by
  have hall : ∀ m, Ends host code rounds C.guards.flatten (pc, m.on []) (bodies 0 m)
      (Goes host code C next (pc, m.on [])) := by
    intro m
    rw [hfirst]
    exact ends_andThen (hbody m) hrest.first
  refine ⟨hall, fun g hg => ?_⟩
  cases g with
  | zero => exact ⟨pc, hlabels, hall⟩
  | succ g =>
      obtain ⟨q, hq, hends⟩ := hrest.entered g (by omega)
      rw [Nat.add_right_comm, Nat.add_assoc] at hq
      rw [hlater]
      exact ⟨q, hq, hends⟩

/-- A switch picks a group and is left where that ends or breaks. -/
theorem ends_switch {d : Dispatch} {count n : Nat} {default b : Label} {i : Instruction}
    {id : Nat} {hasBreak : Bool} {mid next : Nat} {c : Nat × Machine σ} {sel : Eval σ Value}
    {bodies : Nat → Eval σ Flow} {m : Machine σ} (hd : d.Sound count)
    (hsel : Ends host code rounds C.guards.flatten c (sel m) fun v m' =>
      Reaches host code c (mid, m'.on [v]))
    (hi : (dispatchDirective d default (numbered n d.cases)).instruction? = some i)
    (hat : code.instructions[mid]? = some i)
    (hgroups : RunsGroups host code rounds (C.enter (.switch ⟨id, hasBreak⟩) b none)
      (labelsOfGroup d default (numbered n d.cases)) (mid + 1) next 0 count bodies)
    (hdefault : d.defaultGroup.isNone → code.position default = some next)
    (hbreak : hasBreak → code.position b = some next) :
    Ends host code rounds C.guards.flatten c ((do
      let v ← sel
      match v.int? with
      | none => Eval.stop (.value (.notAnInt v))
      | some key =>
        match d.groupFor key <|> d.defaultGroup with
        | none => return .normal
        | some group => return leavesSwitch id (← bodies group) : Eval σ Flow) m)
      (Goes host code C next c) := by
  refine hsel.bind fun v m' hr => ?_
  cases hv : v.int? with
  | none => exact ⟨[], .of_reaches hr (.here (advance_notAnInt hi hat hv m'))⟩
  | some key =>
      obtain rfl : v = .int key := by
        cases v with
        | int x => exact congrArg _ (Option.some.inj hv)
        | long _ | double _ | null | ref _ => cases hv
      simp only
      cases hg : (d.groupFor key <|> d.defaultGroup) with
      | none =>
          obtain ⟨hpicked, hnone⟩ : picked default (numbered n d.cases) key = default ∧ _ :=
            picked_default hd key hg
          have hdest := hdefault (by simp [hnone])
          rw [← hpicked] at hdest
          exact hr.tail (onward_dispatch hd key hi hat hdest m')
      | some g =>
          have hlt : g < count := by
            rw [Dispatch.groupFor] at hg
            cases hfind : d.cases.lookup key with
            | none =>
                rw [hfind] at hg
                exact hd.default_lt g hg
            | some g' =>
                rw [hfind] at hg
                obtain rfl : g' = g := Option.some.inj hg
                obtain ⟨l₁, l₂, hcases, -⟩ := List.lookup_eq_some_iff.mp hfind
                exact hd.group_lt (key, g') (by rw [hcases]; simp)
          obtain ⟨q, hq, hends⟩ := hgroups.entered g hlt
          rw [Nat.zero_add] at hq
          have hr := hr.tail (onward_dispatch hd key hi hat (hq _ (picked_mem hd key hg)) m')
          refine ((hends m').after hr fun flow m'' h => h.after hr).bind fun flow m'' h => ?_
          cases flow with
          | normal => exact h
          | brk target =>
              obtain ⟨_, hf, rfl, hb⟩ := h.allowed
              obtain rfl := Option.some.inj hf
              have hleaves : leavesSwitch id (.brk (Frame.switch ⟨id, hasBreak⟩).id) = .normal :=
                if_pos rfl
              rw [hleaves]
              exact Jumps.arrives h rfl (hbreak hb)
          | cont target =>
              obtain ⟨_, hf, -, hc⟩ := h.allowed
              obtain rfl := Option.some.inj hf
              cases hc

end MethodCompiler.Simulation
