import MethodCompiler.Proofs.SoundTree
import MethodCompiler.Proofs.Yields
import Mathlib.Data.List.Nodup

/-!
# Case labels

Each case value of a switch has a label, and a group places the labels of its
values. Code looks a value up in the labels sorted by value; sorting only rearranges
them, so a value finds the label it has among the cases, and a value that is no case
finds none. All labels lead to groups that exist, so each is placed exactly once.
-/

namespace MethodCompiler

namespace Assoc

variable {κ : Type} [BEq κ] [LawfulBEq κ] [LT κ] [DecidableLT κ]

theorem lookup_insertSorted {key k : κ} {value : α} {l : List (κ × α)} :
    (insertSorted key value l).lookup k = if k == key then some value else l.lookup k := by
  induction l with
  | nil =>
      simp only [insertSorted, List.lookup_cons, List.lookup_nil]
      split <;> simp_all
  | cons p rest ih =>
      obtain ⟨k', v⟩ := p
      simp only [insertSorted]
      split
      · next hk =>
          obtain rfl := eq_of_beq hk
          simp only [List.lookup_cons]
          split <;> simp_all
      · next hk =>
          split
          · simp only [List.lookup_cons]
            split <;> simp_all
          · rw [List.lookup_cons, ih, List.lookup_cons]
            split
            · next heq =>
                obtain rfl := eq_of_beq heq
                rw [if_neg hk]
            · rfl

omit [LawfulBEq κ] in
theorem mem_insertSorted {key : κ} {value : α} {l : List (κ × α)} {p : κ × α}
    (h : p ∈ insertSorted key value l) : p = (key, value) ∨ p ∈ l := by
  induction l with
  | nil => simpa [insertSorted] using h
  | cons q rest ih =>
      obtain ⟨k, v⟩ := q
      rw [insertSorted] at h
      split at h
      · obtain rfl | h := List.mem_cons.mp h
        · exact .inl rfl
        · exact .inr (List.mem_cons_of_mem _ h)
      · split at h
        · obtain rfl | h := List.mem_cons.mp h
          · exact .inl rfl
          · exact .inr h
        · obtain rfl | h := List.mem_cons.mp h
          · exact .inr (List.mem_cons_self ..)
          · exact (ih h).imp_right (List.mem_cons_of_mem _)

theorem length_insertSorted {key : κ} {value : α} {l : List (κ × α)}
    (h : key ∉ l.map (·.1)) : (insertSorted key value l).length = l.length + 1 := by
  induction l with
  | nil => rfl
  | cons q rest ih =>
      obtain ⟨k, v⟩ := q
      rw [List.map_cons, List.mem_cons, not_or] at h
      rw [insertSorted, if_neg (by simpa using Ne.symm h.1)]
      split
      · rfl
      · rw [List.length_cons, ih h.2, List.length_cons]

end Assoc

namespace Lowering

/-! ## Sorted labels -/

/-- Inserting one after another, a later value replaces an earlier one. -/
theorem lookup_foldl_insertSorted {cases : List CaseTarget} {sorted : List (Int32 × Label)}
    (hnodup : (cases.map (·.value)).Nodup) (hnew : ∀ c ∈ cases, sorted.lookup c.value = none)
    {v : Int32} :
    (cases.foldl (fun sorted c => Assoc.insertSorted c.value c.label sorted) sorted).lookup v =
      ((cases.find? (·.value == v)).map (·.label)).or (sorted.lookup v) := by
  induction cases generalizing sorted with
  | nil => simp
  | cons c rest ih =>
      rw [List.map_cons, List.nodup_cons] at hnodup
      have hrest : ∀ c' ∈ rest,
          (Assoc.insertSorted c.value c.label sorted).lookup c'.value = none := by
        intro c' hc'
        have hne : c'.value ≠ c.value := by
          intro heq
          exact hnodup.1 (heq ▸ List.mem_map_of_mem hc')
        rw [Assoc.lookup_insertSorted, if_neg (by simpa using hne)]
        exact hnew c' (List.mem_cons_of_mem _ hc')
      rw [List.foldl_cons, ih hnodup.2 hrest, Assoc.lookup_insertSorted, List.find?_cons]
      by_cases hv : c.value = v
      · subst hv
        have hnone : rest.find? (·.value == c.value) = none := by
          rw [List.find?_eq_none]
          intro c' hc' heq
          exact hnodup.1 (eq_of_beq heq ▸ List.mem_map_of_mem hc')
        simp [hnone]
      · have hne : (c.value == v) = false := by simpa using hv
        have hne' : (v == c.value) = false := by simpa using Ne.symm hv
        simp [hne, hne']

theorem lookup_sortedTargets {cases : List CaseTarget} (hnodup : (cases.map (·.value)).Nodup)
    {v : Int32} :
    (sortedTargets cases).lookup v = (cases.find? (·.value == v)).map (·.label) := by
  rw [sortedTargets, lookup_foldl_insertSorted hnodup (by simp), List.lookup_nil, Option.or_none]

theorem mem_foldl_insertSorted {cases : List CaseTarget} {sorted : List (Int32 × Label)}
    {p : Int32 × Label}
    (h : p ∈ cases.foldl (fun sorted c => Assoc.insertSorted c.value c.label sorted) sorted) :
    p ∈ sorted ∨ ∃ c ∈ cases, p = (c.value, c.label) := by
  induction cases generalizing sorted with
  | nil => exact .inl h
  | cons c rest ih =>
      obtain h | ⟨c', hc', rfl⟩ := ih h
      · obtain rfl | h := Assoc.mem_insertSorted h
        · exact .inr ⟨c, List.mem_cons_self .., rfl⟩
        · exact .inl h
      · exact .inr ⟨c', List.mem_cons_of_mem _ hc', rfl⟩

theorem mem_sortedTargets {cases : List CaseTarget} {p : Int32 × Label}
    (h : p ∈ sortedTargets cases) : ∃ c ∈ cases, p = (c.value, c.label) :=
  (mem_foldl_insertSorted h).resolve_left (by simp)

theorem length_foldl_insertSorted {cases : List CaseTarget} {sorted : List (Int32 × Label)}
    (hnodup : (cases.map (·.value)).Nodup) (hnew : ∀ c ∈ cases, c.value ∉ sorted.map (·.1)) :
    (cases.foldl (fun sorted c => Assoc.insertSorted c.value c.label sorted) sorted).length =
      sorted.length + cases.length := by
  induction cases generalizing sorted with
  | nil => rfl
  | cons c rest ih =>
      rw [List.map_cons, List.nodup_cons] at hnodup
      have hrest : ∀ c' ∈ rest,
          c'.value ∉ (Assoc.insertSorted c.value c.label sorted).map (·.1) := by
        intro c' hc' hmem
        obtain ⟨p, hp, hpv⟩ := List.mem_map.mp hmem
        obtain rfl | hp := Assoc.mem_insertSorted hp
        · simp only at hpv
          exact hnodup.1 (hpv ▸ List.mem_map_of_mem hc')
        · exact hnew c' (List.mem_cons_of_mem _ hc') (hpv ▸ List.mem_map_of_mem hp)
      rw [List.foldl_cons, ih hnodup.2 hrest,
        Assoc.length_insertSorted (hnew c (List.mem_cons_self ..)), List.length_cons]
      omega

theorem length_sortedTargets {cases : List CaseTarget} (hnodup : (cases.map (·.value)).Nodup) :
    (sortedTargets cases).length = cases.length := by
  rw [sortedTargets, length_foldl_insertSorted hnodup (by simp), List.length_nil, Nat.zero_add]

/-! ## Numbered cases -/

theorem map_value_numbered {n : Nat} {cases : List (Int32 × Nat)} :
    (numbered n cases).map (·.value) = cases.map (·.1) := by
  induction cases generalizing n with
  | nil => rfl
  | cons c rest ih =>
      obtain ⟨v, g⟩ := c
      simp only [numbered, List.map_cons, ih]

theorem map_group_numbered {n : Nat} {cases : List (Int32 × Nat)} :
    (numbered n cases).map (·.group) = cases.map (·.2) := by
  induction cases generalizing n with
  | nil => rfl
  | cons c rest ih =>
      obtain ⟨v, g⟩ := c
      simp only [numbered, List.map_cons, ih]

theorem map_label_numbered {n : Nat} {cases : List (Int32 × Nat)} :
    (numbered n cases).map (·.label) = List.range' n cases.length := by
  induction cases generalizing n with
  | nil => rfl
  | cons c rest ih =>
      obtain ⟨v, g⟩ := c
      simp only [numbered, List.map_cons, ih, List.length_cons, List.range'_succ]

theorem length_numbered {n : Nat} {cases : List (Int32 × Nat)} :
    (numbered n cases).length = cases.length := by
  rw [← List.length_range' (s := n) (n := cases.length), ← map_label_numbered, List.length_map]

/-! ## Labels of groups -/

/-- The labels that a group places, in order. -/
def labelsOfGroup (d : Dispatch) (default : Nat) (cases : List CaseTarget) (group : Nat) :
    List Nat :=
  (if d.defaultGroup = some group then [default] else []) ++
    (cases.filter (·.group == group)).map (·.label)

theorem layOut_groupLabels {d : Dispatch} {default : Nat} {cases : List CaseTarget} {group : Nat} :
    layOut (groupLabels d default cases group) =
      (labelsOfGroup d default cases group).map .place := by
  have hplaced : ∀ ls : List Nat, layOut (placed ls) = ls.map .place := by
    intro ls
    induction ls with
    | nil => rfl
    | cons l ls ih =>
        rw [placed] at ih
        rw [placed, List.map_cons, layOut, ih]
        rfl
  rw [groupLabels, layOut_append, hplaced, labelsOfGroup, List.map_append]
  congr 1
  by_cases hd : d.defaultGroup = some group
  · rw [if_pos hd, decide_eq_true hd]
    rfl
  · rw [if_neg hd, decide_eq_false hd]
    rfl

theorem mem_labelsOfGroup {d : Dispatch} {default : Nat} {cases : List CaseTarget} {group l : Nat} :
    l ∈ labelsOfGroup d default cases group ↔
      (d.defaultGroup = some group ∧ l = default) ∨
        ∃ c ∈ cases, c.group = group ∧ c.label = l := by
  rw [labelsOfGroup, List.mem_append]
  refine or_congr ?_ ?_
  · split <;> simp_all
  · simp [and_assoc]

/-- No two groups place the same label, and none places one twice. -/
theorem nodup_labelsOfGroups {d : Dispatch} {default : Nat} {cases : List CaseTarget}
    (hlabels : (cases.map (·.label)).Nodup) (hdefault : default ∉ cases.map (·.label))
    {groups : List Nat} (hgroups : groups.Nodup) :
    (groups.flatMap (labelsOfGroup d default cases)).Nodup := by
  have hinj : ∀ c ∈ cases, ∀ c' ∈ cases, c.label = c'.label → c = c' :=
    List.inj_on_of_nodup_map hlabels
  rw [List.nodup_flatMap]
  constructor
  · intro g _
    rw [labelsOfGroup, List.nodup_append]
    refine ⟨by split <;> simp, ?_, ?_⟩
    · exact hlabels.sublist (List.filter_sublist.map _)
    · intro l hl l' hl' heq
      obtain ⟨c, hc, rfl⟩ := List.mem_map.mp hl'
      split at hl
      · obtain rfl := List.mem_singleton.mp hl
        exact hdefault (heq ▸ List.mem_map_of_mem (List.mem_of_mem_filter hc))
      · simp at hl
  · refine hgroups.imp_of_mem ?_
    intro g g' _ _ hne l hl hl'
    rw [mem_labelsOfGroup] at hl hl'
    obtain ⟨hg, rfl⟩ | ⟨c, hc, hcg, rfl⟩ := hl
    · obtain ⟨hg', -⟩ | ⟨c, hc, -, hcl⟩ := hl'
      · exact hne (Option.some.inj (hg.symm.trans hg'))
      · exact hdefault (hcl ▸ List.mem_map_of_mem hc)
    · obtain ⟨-, hcl⟩ | ⟨c', hc', hcg', hcl⟩ := hl'
      · exact hdefault (hcl ▸ List.mem_map_of_mem hc)
      · obtain rfl := hinj c' hc' c hc hcl
        exact hne (hcg.symm.trans hcg')

end Lowering

end MethodCompiler
