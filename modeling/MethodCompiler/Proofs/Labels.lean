import MethodCompiler.Proofs.Around
import MethodCompiler.Proofs.Assembled
import MethodCompiler.Proofs.Yields

/-!
# Labels of generated code

Labels are numbered in the order in which generation asks for them, and that is the
order in which they are created in the code, although the pieces of a try are put
together only after its parts have been generated. So a label is created before it
is placed. It is placed once, and it is placed if something refers to it: a break
label because the construct knows of the break, the labels around a copy of a
finally body because the copy places both.

`Tidy` says this of a part of the code. Labels from before the part fall in two
kinds: some it places itself, because the construct that made them is being put
together, and the others it may only refer to, as far as that is wanted.
-/

namespace MethodCompiler

namespace Directive

/-- With `n` labels created before the directive there are `n'` after it. -/
def Numbers (n : Nat) (d : Directive) (n' : Nat) : Prop :=
  match d with
  | create l => l = n ∧ n' = n + 1
  | place l => l < n ∧ n' = n
  | emit _ | table .. | lookup .. | handler .. => n' = n

/-- The labels a directive refers to. -/
def refs : Directive → List Label
  | create _ | place _ => []
  | emit i => i.targets
  | table default _ _ targets => default :: targets
  | lookup default _ pairs => default :: pairs.map (·.2)
  | handler start stop target _ => [start, stop, target]

theorem mem_refs_of_instruction {d : Directive} {i : Instruction} (hd : d.instruction? = some i)
    {l : Label} (hl : l ∈ i.targets) : l ∈ d.refs := by
  cases d <;> simp only [instruction?, Option.some.injEq, reduceCtorEq] at hd <;> subst hd <;>
    simpa [refs, Instruction.targets] using hl

theorem mem_refs_of_row {d : Directive} {p : PendingHandler} (hd : d.row? = some p) {l : Label}
    (hl : l ∈ [p.start, p.stop, p.handler]) : l ∈ d.refs := by
  cases d <;> simp only [row?, Option.some.injEq, reduceCtorEq] at hd
  subst hd
  exact hl

/-- A switch is as large as it says. -/
def Sized : Directive → Prop
  | table _ low high targets => (targets.length : Int) = high.toInt - low.toInt + 1
  | lookup _ count pairs => count = pairs.length
  | _ => True

end Directive

/-- Labels are created in order and before they are placed. -/
def Numbered : Nat → List Directive → Nat → Prop
  | n, [], n' => n' = n
  | n, d :: rest, n' => ∃ m, d.Numbers n m ∧ Numbered m rest n'

theorem numbered_append {n n' : Nat} {ds es : List Directive} :
    Numbered n (ds ++ es) n' ↔ ∃ m, Numbered n ds m ∧ Numbered m es n' := by
  induction ds generalizing n with
  | nil => simp [Numbered]
  | cons d ds ih =>
      simp only [List.cons_append, Numbered, ih]
      constructor
      · rintro ⟨k, hd, m, hds, hes⟩
        exact ⟨m, ⟨k, hd, hds⟩, hes⟩
      · rintro ⟨m, ⟨k, hd, hds⟩, hes⟩
        exact ⟨k, hd, m, hds, hes⟩

theorem Directive.Numbers.le {n n' : Nat} {d : Directive} (h : d.Numbers n n') : n ≤ n' := by
  cases d <;> simp only [Directive.Numbers] at h <;> omega

theorem Numbered.le {n n' : Nat} {ds : List Directive} (h : Numbered n ds n') : n ≤ n' := by
  induction ds generalizing n with
  | nil => exact Nat.le_of_eq h.symm
  | cons d ds ih =>
      obtain ⟨m, hd, hds⟩ := h
      exact Nat.le_trans hd.le (ih hds)

/-- A label that is placed has been created by then. -/
theorem Numbered.lt {n n' : Nat} {ds : List Directive} (h : Numbered n ds n') {l : Nat}
    (hl : .place l ∈ ds) : l < n' := by
  induction ds generalizing n with
  | nil => simp at hl
  | cons d ds ih =>
      obtain ⟨m, hd, hds⟩ := h
      obtain rfl | hl := List.mem_cons.mp hl
      · obtain ⟨hlt, rfl⟩ := hd
        exact Nat.lt_of_lt_of_le hlt hds.le
      · exact ih hds hl

/-! ## Assembly -/

namespace Assembler

theorem apply_ok {a : Assembler} {d : Directive} {m : Nat} (hn : d.Numbers a.labels.size m)
    (hfree : ∀ l, d = .place l → a.position? l = none) (hsized : d.Sized) :
    (∃ limit, a.apply d = .error (.labelsExhausted limit)) ∨
      ∃ a', a.apply d = .ok a' ∧ a'.labels.size = m := by
  cases d with
  | create l =>
      obtain ⟨-, rfl⟩ := hn
      simp only [apply, createLabel]
      split
      · exact .inl ⟨_, rfl⟩
      · exact .inr ⟨_, rfl, by simp⟩
  | place l =>
      obtain ⟨hlt, rfl⟩ := hn
      refine .inr ⟨{ a with labels := a.labels.setIfInBounds l (some a.instructions.size) }, ?_,
        by simp⟩
      have hnone := hfree l rfl
      rw [position?, Array.getElem?_eq_getElem hlt, Option.join_some] at hnone
      simp only [apply, place, Array.getElem?_eq_getElem hlt, hnone]
  | emit i =>
      obtain rfl := hn
      exact .inr ⟨_, rfl, rfl⟩
  | table default low high targets =>
      obtain rfl := hn
      exact .inr ⟨_, if_pos hsized, rfl⟩
  | lookup default count pairs =>
      obtain rfl := hn
      exact .inr ⟨_, if_pos hsized, rfl⟩
  | handler start stop target catchType =>
      obtain rfl := hn
      exact .inr ⟨_, rfl, rfl⟩

/-- Only placing a label gives it a position. -/
theorem apply_position {a b : Assembler} {d : Directive} (h : a.apply d = .ok b) {l : Label}
    {pc : Nat} (hl : b.position? l = some pc) : a.position? l = some pc ∨ d = .place l := by
  cases d with
  | create l' =>
      simp only [apply, createLabel] at h
      split at h
      · simp [Except.map] at h
      · obtain rfl := Except.ok.inj h
        simp only [position?, Array.getElem?_push] at hl ⊢
        split at hl
        · simp at hl
        · exact .inl hl
  | place l' =>
      simp only [apply, place] at h
      split at h
      · simp at h
      · simp at h
      · obtain rfl := Except.ok.inj h
        by_cases heq : l' = l
        · exact .inr (by rw [heq])
        · rw [position?, Array.getElem?_setIfInBounds_ne heq] at hl
          exact .inl hl
  | emit i | handler start stop target catchType =>
      obtain rfl := Except.ok.inj h
      exact .inl hl
  | table default low high targets =>
      simp only [apply, emitTable] at h
      split at h
      · obtain rfl := Except.ok.inj h
        exact .inl hl
      · simp at h
  | lookup default count pairs =>
      simp only [apply, emitLookup] at h
      split at h
      · obtain rfl := Except.ok.inj h
        exact .inl hl
      · simp at h

/-- Directives that number their labels and place each at most once are carried out,
unless there are too many labels. -/
theorem run_ok {a : Assembler} {ds : List Directive} {n' : Nat}
    (hn : Numbered a.labels.size ds n') (hfree : ∀ l, .place l ∈ ds → a.position? l = none)
    (honce : ∀ l, ds.count (.place l) ≤ 1) (hsized : ∀ d ∈ ds, d.Sized) :
    (∃ limit, a.run ds = .error (.labelsExhausted limit)) ∨
      ∃ a', a.run ds = .ok a' ∧ ∀ l, .place l ∈ ds → ∃ pc, a'.position? l = some pc := by
  induction ds generalizing a with
  | nil => exact .inr ⟨a, rfl, by simp⟩
  | cons d ds ih =>
      obtain ⟨m, hd, hds⟩ := hn
      have hfirst : ∀ l, d = .place l → a.position? l = none := by
        rintro l rfl
        exact hfree l (List.mem_cons_self ..)
      obtain ⟨limit, herror⟩ | ⟨b, hb, rfl⟩ :=
        apply_ok hd hfirst (hsized d (List.mem_cons_self ..))
      · exact .inl ⟨limit, by rw [run, herror]; rfl⟩
      · have hrun : a.run (d :: ds) = b.run ds := by rw [run, hb]; rfl
        rw [hrun]
        have hrest : ∀ l, .place l ∈ ds → b.position? l = none := by
          intro l hl
          cases hpos : b.position? l with
          | none => rfl
          | some pc =>
              obtain hpos | rfl := apply_position hb hpos
              · simp [hfree l (List.mem_cons_of_mem _ hl)] at hpos
              · have htwice := honce l
                rw [List.count_cons_self] at htwice
                have := List.count_pos_iff.mpr hl
                omega
        have honce' : ∀ l, ds.count (.place l) ≤ 1 := fun l =>
          Nat.le_trans List.count_le_count_cons (honce l)
        obtain ⟨limit, herror⟩ | ⟨a', hok, hplaced⟩ :=
          ih hds hrest honce' fun d hd => hsized d (List.mem_cons_of_mem _ hd)
        · exact .inl ⟨limit, herror⟩
        · refine .inr ⟨a', hok, fun l hl => ?_⟩
          obtain rfl | hl := List.mem_cons.mp hl
          · exact ⟨_, (run_grows hok).position l _ (apply_place hb)⟩
          · exact hplaced l hl

theorem resolve_of_placed {a : Assembler} {p : PendingHandler}
    (hstart : ∃ pc, a.position? p.start = some pc) (hstop : ∃ pc, a.position? p.stop = some pc)
    (hhandler : ∃ pc, a.position? p.handler = some pc) : ∃ row, a.resolve p = .ok row := by
  obtain ⟨start, hstart⟩ := hstart
  obtain ⟨stop, hstop⟩ := hstop
  obtain ⟨handler, hhandler⟩ := hhandler
  have hpos : ∀ {l pc}, a.position? l = some pc → a.position l = .ok pc := by
    intro l pc h
    rw [position?] at h
    rw [position, h]
  exact ⟨⟨start, stop, handler, p.catchType⟩, by
    simp only [resolve, hpos hstart, hpos hstop, hpos hhandler]
    rfl⟩

theorem mapM_resolve_of_placed {a : Assembler} {ps : List PendingHandler}
    (h : ∀ p ∈ ps, ∃ row, a.resolve p = .ok row) : ∃ rows, ps.mapM a.resolve = .ok rows := by
  induction ps with
  | nil => exact ⟨[], rfl⟩
  | cons p ps ih =>
      obtain ⟨row, hrow⟩ := h p (List.mem_cons_self ..)
      obtain ⟨rows, hrows⟩ := ih fun q hq => h q (List.mem_cons_of_mem _ hq)
      exact ⟨row :: rows, by rw [List.mapM_cons, hrow, hrows]; rfl⟩

end Assembler

/-- Directives whose labels are all in order are put together, unless there are too
many labels. -/
theorem assemble_of_numbered (maxLabels maxLocals : Nat) {ds : List Directive} {n' : Nat}
    (hn : Numbered 0 ds n') (honce : ∀ l, ds.count (.place l) ≤ 1) (hsized : ∀ d ∈ ds, d.Sized)
    (hrefs : ∀ d ∈ ds, ∀ l ∈ d.refs, .place l ∈ ds) :
    (∃ limit, Assembler.run { maxLabels := maxLabels } ds = .error (.labelsExhausted limit)) ∨
      ∃ a code, Assembler.run { maxLabels := maxLabels } ds = .ok a ∧
        assemble maxLabels maxLocals ds = .ok code ∧ code.labels = a.labels := by
  have hrun := Assembler.run_ok (a := { maxLabels := maxLabels }) hn (fun _ _ => rfl) honce hsized
  obtain ⟨limit, herror⟩ | ⟨a, hok, hplaced⟩ := hrun
  · exact .inl ⟨limit, herror⟩
  · have hgrows := Assembler.run_grows hok
    have htargets : a.unplacedTarget? = none := by
      rw [Assembler.unplacedTarget?, List.find?_eq_none]
      intro l hl
      obtain ⟨i, hi, hl⟩ := List.mem_flatMap.mp hl
      rw [hgrows.instructions] at hi
      obtain ⟨d, hd, hdi⟩ := List.mem_filterMap.mp (by simpa using hi)
      obtain ⟨pc, hpc⟩ := hplaced l (hrefs d hd l (Directive.mem_refs_of_instruction hdi hl))
      rw [Assembler.position?] at hpc
      simp [hpc]
    have hresolve : ∀ p ∈ a.handlers.toList, ∃ row, a.resolve p = .ok row := by
      intro p hp
      rw [hgrows.handlers] at hp
      obtain ⟨d, hd, hdp⟩ := List.mem_filterMap.mp (by simpa [pendingRows] using hp)
      have hrow := fun l hl => hplaced l (hrefs d hd l (Directive.mem_refs_of_row hdp hl))
      exact Assembler.resolve_of_placed (hrow _ (by simp)) (hrow _ (by simp)) (hrow _ (by simp))
    obtain ⟨rows, hrows⟩ := Assembler.mapM_resolve_of_placed hresolve
    refine .inr ⟨a, ⟨a.instructions, a.labels, rows.filter fun h => h.start < h.stop, maxLocals⟩,
      hok, ?_, rfl⟩
    rw [assemble, hok]
    simp only [bind, Except.bind, Assembler.finish, htargets, hrows]
    rfl

namespace Lowering

open Annotated (Expr Stmt Catch)

/-! ## Tidy code -/

/-- Directives that follow `n` labels and are followed by `n'`. Of the labels before
them they place exactly `mine`, and they refer to wanted ones only. -/
structure Tidy (mine : List Nat) (want : Label → Prop) (n : Nat) (ds : List Directive) (n' : Nat) :
    Prop where
  numbered : Numbered n ds n'
  before : ∀ l : Nat, l < n → ds.count (.place l) = mine.count l
  after : ∀ l : Nat, n ≤ l → ds.count (.place l) ≤ 1
  refs : ∀ d ∈ ds, ∀ l ∈ d.refs, .place l ∈ ds ∨ want l
  sized : ∀ d ∈ ds, d.Sized

namespace Tidy

variable {mine mine' : List Nat} {want : Label → Prop} {n m n' k l : Nat}
  {ds es : List Directive} {d : Directive}

theorem nil : Tidy [] want n [] n :=
  ⟨rfl, by simp, by simp, by simp, by simp⟩

theorem append (h₁ : Tidy mine want n ds m) (h₂ : Tidy mine' want m es n')
    (hmine : ∀ l ∈ mine', l < n) : Tidy (mine ++ mine') want n (ds ++ es) n' where
  numbered := numbered_append.mpr ⟨m, h₁.numbered, h₂.numbered⟩
  before := by
    intro l hl
    have hle := h₁.numbered.le
    rw [List.count_append, List.count_append, h₁.before l hl, h₂.before l (by omega)]
  after := by
    intro l hl
    rw [List.count_append]
    by_cases hlt : l < m
    · -- What follows places no label of its own from before, except those it was handed.
      have hnot : l ∉ mine' := fun hmem => by have := hmine l hmem; omega
      rw [h₂.before l hlt, List.count_eq_zero.mpr hnot]
      exact h₁.after l hl
    · have hnot : .place l ∉ ds := fun hmem => hlt (h₁.numbered.lt hmem)
      rw [List.count_eq_zero.mpr hnot, Nat.zero_add]
      exact h₂.after l (by omega)
  refs := by
    intro d hd l hl
    obtain hd | hd := List.mem_append.mp hd
    · exact (h₁.refs d hd l hl).imp_left (List.mem_append_left _)
    · exact (h₂.refs d hd l hl).imp_left (List.mem_append_right _)
  sized := by
    intro d hd
    obtain hd | hd := List.mem_append.mp hd
    · exact h₁.sized d hd
    · exact h₂.sized d hd

/-- Parts that place no labels from before follow one another freely. -/
theorem append_own (h₁ : Tidy mine want n ds m) (h₂ : Tidy [] want m es n') :
    Tidy mine want n (ds ++ es) n' := by
  simpa using h₁.append h₂ (by simp)

theorem place (hl : l < n) : Tidy [l] want n [.place l] n where
  numbered := ⟨n, ⟨hl, rfl⟩, rfl⟩
  before := by
    intro l' _
    simp only [List.count_singleton, beq_iff_eq, Directive.place.injEq]
  after := by
    intro l' hl'
    have : l ≠ l' := by omega
    simp [this]
  refs := by simp [Directive.refs]
  sized := by simp [Directive.Sized]

theorem placeIf {used : Bool} (hl : l < n) :
    Tidy (if used then [l] else []) want n (layOut (Gen.placedIf used l)) n := by
  cases used
  · exact nil
  · exact place hl

/-- A directive that neither creates nor places a label. -/
theorem single (hd : ∀ m, d.Numbers n m ↔ m = n) (hplace : ∀ l, d ≠ .place l)
    (hrefs : ∀ l ∈ d.refs, want l) (hsized : d.Sized) : Tidy [] want n [d] n where
  numbered := ⟨n, (hd n).mpr rfl, rfl⟩
  before := by
    intro l _
    have hne : (d == .place l) = false := beq_false_of_ne (hplace l)
    simp [List.count_cons, hne]
  after := by
    intro l _
    have hne : (d == .place l) = false := beq_false_of_ne (hplace l)
    simp [List.count_cons, hne]
  refs := by simpa using fun l hl => .inr (hrefs l hl)
  sized := by simpa using hsized

theorem emit {i : Instruction} (h : ∀ l ∈ i.targets, want l) : Tidy [] want n [.emit i] n :=
  single (fun _ => Iff.rfl) (by simp) h trivial

theorem jump (op : Opcode) (l : Nat) (h : want l) :
    Tidy [] want n [.emit ⟨op, some (.label l)⟩] n :=
  emit (by simpa [Instruction.targets] using h)

theorem emitIf {wanted : Bool} {i : Instruction} (h : ∀ l ∈ i.targets, want l) :
    Tidy [] want n (layOut (Gen.emittedIf wanted i)) n := by
  cases wanted
  · exact nil
  · exact emit h

theorem row {start stop handler : Nat} {catchType : Option String} (hstart : want start)
    (hstop : want stop) (hhandler : want handler) :
    Tidy [] want n [.handler start stop handler catchType] n :=
  single (fun _ => Iff.rfl) (by simp) (by simp [Directive.refs, hstart, hstop, hhandler]) trivial

theorem thenPlace (h : Tidy mine want n ds m) (l : Nat) (hl : l < n) :
    Tidy (mine ++ [l]) want n (ds ++ [.place l]) m :=
  h.append (place (Nat.lt_of_lt_of_le hl h.numbered.le)) (by simpa using hl)

theorem thenPlaceIf (h : Tidy mine want n ds m) (used : Bool) (l : Nat) (hl : l < n) :
    Tidy (mine ++ if used then [l] else []) want n (ds ++ layOut (Gen.placedIf used l)) m :=
  h.append (placeIf (Nat.lt_of_lt_of_le hl h.numbered.le)) (by cases used <;> simp [hl])

theorem thenEmit (h : Tidy mine want n ds m) (i : Instruction) (hi : i.targets = []) :
    Tidy mine want n (ds ++ [.emit i]) m :=
  h.append_own (emit (by simp [hi]))

theorem thenJump (h : Tidy mine want n ds m) (op : Opcode) (l : Nat) (hl : want l) :
    Tidy mine want n (ds ++ [.emit ⟨op, some (.label l)⟩]) m :=
  h.append_own (jump op l hl)

end Tidy

/-- The directives that create `k` labels from `n` on. -/
def creations (n k : Nat) : List Directive :=
  (List.range' n k).map .create

theorem layOut_created (n k : Nat) : layOut (created n k) = creations n k := by
  induction k generalizing n with
  | zero => rfl
  | succ k ih =>
      rw [created, layOut, ih, creations, creations, List.range'_succ, List.map_cons]
      rfl

theorem creations_add (n j k : Nat) :
    creations n (j + k) = creations n j ++ creations (n + j) k := by
  rw [creations, ← List.range'_append_1, List.map_append]
  rfl

theorem numbered_creations (n k : Nat) : Numbered n (creations n k) (n + k) := by
  induction k generalizing n with
  | zero => rfl
  | succ k ih =>
      rw [creations, List.range'_succ, List.map_cons]
      refine ⟨n + 1, ⟨rfl, rfl⟩, ?_⟩
      have h := ih (n + 1)
      rw [creations] at h
      rwa [show n + (k + 1) = n + 1 + k by omega]

/-- Labels that are created and then placed, all of them once, are of no concern to
what stands around. Only those from before remain, which are `outer`. -/
theorem Tidy.closeWithin {mine outer : List Nat} {want want' : Label → Prop} {n k n' : Nat}
    {ds : List Directive} (h : Tidy mine want' (n + k) ds n') (hnodup : mine.Nodup)
    (hmine : ∀ l ∈ mine, l < n + k) (houter : ∀ l : Nat, l < n → mine.count l = outer.count l)
    (hwant : ∀ l, want' l → want l ∨ l ∈ mine) : Tidy outer want n (creations n k ++ ds) n' := by
  have hcreate : ∀ l : Nat, (creations n k).count (.place l) = 0 := by
    intro l
    rw [creations, List.count_eq_zero]
    simp
  refine ⟨numbered_append.mpr ⟨_, numbered_creations n k, h.numbered⟩, ?_, ?_, ?_, ?_⟩
  · intro l hl
    rw [List.count_append, hcreate, h.before l (by omega), houter l hl, Nat.zero_add]
  · intro l hl
    rw [List.count_append, hcreate, Nat.zero_add]
    by_cases hlt : l < n + k
    · rw [h.before l hlt]
      exact List.nodup_iff_count.mp hnodup l
    · exact h.after l (by omega)
  · intro d hd l hl
    obtain hd | hd := List.mem_append.mp hd
    · obtain ⟨l', -, rfl⟩ := List.mem_map.mp hd
      simp [Directive.refs] at hl
    · obtain hp | hw := h.refs d hd l hl
      · exact .inl (List.mem_append_right _ hp)
      · obtain hw | hm := hwant l hw
        · exact .inr hw
        · refine .inl (List.mem_append_right _ (List.count_pos_iff.mp ?_))
          rw [h.before l (hmine l hm)]
          exact List.count_pos_iff.mpr hm
  · intro d hd
    obtain hd | hd := List.mem_append.mp hd
    · obtain ⟨l, -, rfl⟩ := List.mem_map.mp hd
      trivial
    · exact h.sized d hd

theorem Tidy.close {mine : List Nat} {want want' : Label → Prop} {n k n' : Nat}
    {ds : List Directive} (h : Tidy mine want' (n + k) ds n') (hnodup : mine.Nodup)
    (hmine : ∀ l ∈ mine, n ≤ l ∧ l < n + k) (hwant : ∀ l, want' l → want l ∨ l ∈ mine) :
    Tidy [] want n (creations n k ++ ds) n' := by
  refine h.closeWithin hnodup (fun l hl => (hmine l hl).2) (fun l hl => ?_) hwant
  rw [List.count_eq_zero.mpr fun hmem => Nat.not_le.mpr hl (hmine l hmem).1]
  rfl

/-! ## Expressions -/

namespace Gen

/-- Whatever the step gives is tidy and places no labels from before. -/
def Keeps (want : Label → Prop) (x : Gen Unit) : Prop :=
  ∀ ⦃n n' : Nat⦄ ⦃u : Unit⦄ ⦃ps : List Piece⦄, x.Yields n u ps n' →
    Tidy [] want n (layOut ps) n'

variable {want : Label → Prop}

theorem keeps_pure : (pure () : Gen Unit).Keeps want := by
  intro n n' u ps h
  obtain ⟨-, rfl, rfl⟩ := yields_pure.mp h
  exact .nil

theorem keeps_bind {x : Gen Unit} {f : Unit → Gen Unit} (hx : x.Keeps want)
    (hf : (f ()).Keeps want) : (x >>= f).Keeps want := by
  intro n n' u ps h
  obtain ⟨p, m, q, hp, rfl, hq⟩ := yields_unit_bind.mp h
  rw [layOut_append]
  exact (hx hp).append_own (hf hq)

theorem keeps_give {i : Instruction} (h : ∀ l ∈ i.targets, want l) :
    (give (.emit i)).Keeps want := by
  intro n n' u ps hy
  obtain ⟨rfl, rfl⟩ := yields_give.mp hy
  exact .emit h

theorem keeps_emit {op : Opcode} : (emit op).Keeps want :=
  keeps_give (by simp [Instruction.targets])

theorem keeps_jump {op : Opcode} {l : Label} (h : want l) : (jump op l).Keeps want :=
  keeps_give (by simpa [Instruction.targets] using h)

theorem keeps_emitIf {wanted : Bool} {i : Instruction} (h : i.targets = []) :
    (emitIf wanted i).Keeps want := by
  cases wanted
  · exact keeps_pure
  · exact keeps_give (by simp [h])

end Gen

open Gen

/-- Both codes of an expression are tidy; the one that jumps refers to the label it
is given. -/
def ExprCode.Keeps (want : Label → Prop) (c : ExprCode) : Prop :=
  c.value.Keeps want ∧ ∀ target onTrue, want target → (c.branch target onTrue).Keeps want

variable {want : Label → Prop}

theorem keeps_ofValue {value : Gen Unit} (h : value.Keeps want) :
    (ExprCode.ofValue value).Keeps want :=
  ⟨h, fun _ _ ht => keeps_bind h (keeps_jump ht)⟩

theorem keeps_ofBranch {branch : Label → Bool → Gen Unit}
    (h : ∀ (want : Label → Prop) target onTrue, want target → (branch target onTrue).Keeps want) :
    (ExprCode.ofBranch branch).Keeps want := by
  refine ⟨?_, h want⟩
  intro n n' u ps hy
  obtain ⟨code, hcode, rfl⟩ := yields_ofBranch_value hy
  have hbranch := h (fun l => want l ∨ l = n ∨ l = n + 1) n false (.inr (.inl rfl)) hcode
  have hbody := ((((hbranch.thenEmit ⟨.push, some (.int 1)⟩ rfl).thenJump .goto (n + 1)
    (.inr (.inr rfl))).thenPlace n (by omega)).thenEmit ⟨.push, some (.int 0)⟩ rfl).thenPlace
    (n + 1) (by omega)
  have hclosed : Tidy [] want n _ n' := hbody.close (by simp) (by simp) (by simp)
  simpa [layOut_append, layOut_created, layOut, Piece.directives] using hclosed

/-- A label that is created first and placed last. -/
theorem tidy_skipping {n m n' : Nat} {p q : List Piece}
    (hp : Tidy [] (fun l => want l ∨ l = n) (n + 1) (layOut p) m)
    (hq : Tidy [] (fun l => want l ∨ l = n) m (layOut q) n') :
    Tidy [] want n (layOut (created n 1 ++ p ++ q ++ [.give (.place n)])) n' := by
  have hbody := (hp.append_own hq).thenPlace n (by omega)
  have hclosed : Tidy [] want n _ n' := hbody.close (by simp) (by simp) (by simp)
  simpa [layOut_append, layOut_created, layOut, Piece.directives] using hclosed

theorem keeps_shortCircuit {decisive : Bool} {left right : ExprCode}
    (hl : ∀ want, left.Keeps want) (hr : ∀ want, right.Keeps want) (want : Label → Prop)
    (target : Label) (onTrue : Bool) (ht : want target) :
    (shortCircuit decisive left right target onTrue).Keeps want := by
  intro n n' u ps h
  obtain rfl | hne := Decidable.em (onTrue = decisive)
  · obtain ⟨p, m, q, hp, hq, rfl⟩ := yields_shortCircuit_direct h
    rw [layOut_append]
    exact ((hl want).2 _ _ ht hp).append_own ((hr want).2 _ _ ht hq)
  · obtain ⟨p, m, q, hp, hq, rfl⟩ := yields_shortCircuit_skipping hne h
    exact tidy_skipping ((hl _).2 _ _ (.inr rfl) hp) ((hr _).2 _ _ (.inl ht) hq)

theorem keeps_compareBranch {op : BinaryOp} {ty : Ty} {left right : Gen Unit}
    (hl : ∀ want, left.Keeps want) (hr : ∀ want, right.Keeps want) (want : Label → Prop)
    (target : Label) (onTrue : Bool) (ht : want target) :
    (compareBranch op ty left right target onTrue).Keeps want := by
  intro n n' u ps h
  obtain ⟨p, m, q, m', opcode, jump, hp, hq, -, hjump, rfl⟩ := yields_compareBranch h
  rw [layOut_append, layOut_append]
  refine ((hl want hp).append_own (hr want hq)).append_own ?_
  cases hjump with
  | holds => exact .jump _ _ ht
  | fails => exact .jump _ _ ht
  | failsOnDoubles =>
      have hbody : Tidy [] (fun l => want l ∨ l = m') (m' + 1) _ _ := .jump opcode m' (.inr rfl)
      have hclosed : Tidy [] want m' _ (m' + 1) :=
        ((hbody.thenJump .goto target (.inl ht)).thenPlace m' (by omega)).close
          (by simp) (by simp) (by simp)
      simpa [layOut_append, layOut_created, layOut, Piece.directives] using hclosed

theorem keeps_pushLong {v : Int64} : (pushLong v).Keeps want := by
  rw [pushLong]
  split
  · exact keeps_emit
  · split
    · exact keeps_emit
    · exact keeps_give (by simp [Instruction.targets])

theorem keeps_pushDouble {v : Float} : (pushDouble v).Keeps want := by
  rw [pushDouble]
  split
  · exact keeps_emit
  · split
    · exact keeps_emit
    · exact keeps_give (by simp [Instruction.targets])

theorem keeps_pushOne {ty : Ty} : (pushOne ty).Keeps want := by
  rw [pushOne.eq_def]
  split
  · exact keeps_emit
  · exact keeps_emit
  · exact keeps_give (by simp [Instruction.targets])

theorem keeps_applyUnary {op : UnaryOp} {ty : Ty} : (applyUnary op ty).Keeps want := by
  cases op with
  | minus => exact keeps_emit
  | plus | logicalNot => exact keeps_pure
  | bitwiseNot =>
      refine keeps_bind (keeps_give ?_) keeps_emit
      split <;> simp [Instruction.targets]

theorem keeps_incrementSlot {op : UpdateOp} {slot : Nat} {used : Bool} :
    (incrementSlot op slot used).Keeps want :=
  keeps_bind (keeps_emitIf rfl) (keeps_bind (keeps_give (by simp [Instruction.targets]))
    (keeps_emitIf rfl))

theorem keeps_incrementField {op : UpdateOp} {ty : Ty} {target : Gen Unit}
    (h : target.Keeps want) {name : String} {used : Bool} :
    (incrementField op ty target name used).Keeps want :=
  keeps_bind h <| keeps_bind keeps_emit <|
    keeps_bind (keeps_give (by simp [Instruction.targets])) <|
    keeps_bind (keeps_emitIf rfl) <| keeps_bind keeps_pushOne <| keeps_bind keeps_emit <|
    keeps_bind (keeps_emitIf rfl) <| keeps_give (by simp [Instruction.targets])

theorem keeps_widening {source target : Ty} :
    (match widening? source target with
      | some opcode => Gen.emit opcode
      | none => Gen.fail (.noWidening source target)).Keeps want := by
  cases widening? source target with
  | some opcode => exact keeps_emit
  | none => exact fun _ _ _ _ h => (yields_fail.mp h).elim

mutual

/-- Code for an expression is tidy. -/
theorem keeps_exprCode (e : Expr) (want : Label → Prop) : (exprCode e).Keeps want := by
  match e with
  | .int _ v | .null _ | .slot _ slot | .new _ className =>
      exact keeps_ofValue (keeps_give (by simp [Instruction.targets]))
  | .long _ v => exact keeps_ofValue keeps_pushLong
  | .double _ v => exact keeps_ofValue keeps_pushDouble
  | .bool _ v =>
      refine ⟨keeps_give (by simp [Instruction.targets]), fun target onTrue ht => ?_⟩
      simp only [exprCode]
      split
      · exact keeps_jump ht
      · exact keeps_pure
  | .field _ target name =>
      exact keeps_ofValue (keeps_bind (keeps_exprCode target want).1
        (keeps_give (by simp [Instruction.targets])))
  | .widen ty inner =>
      exact keeps_ofValue (keeps_bind (keeps_exprCode inner want).1 keeps_widening)
  | .assign _ (.slot slot) value wanted =>
      exact keeps_ofValue (keeps_bind (keeps_exprCode value want).1
        (keeps_bind (keeps_emitIf rfl) (keeps_give (by simp [Instruction.targets]))))
  | .assign _ (.field target name) value wanted =>
      exact keeps_ofValue (keeps_bind (keeps_exprCode target want).1
        (keeps_bind (keeps_exprCode value want).1
        (keeps_bind (keeps_emitIf rfl) (keeps_give (by simp [Instruction.targets])))))
  | .binary _ op left right =>
      rw [exprCode.eq_def]
      simp only
      split
      · exact keeps_ofBranch (keeps_shortCircuit (keeps_exprCode left) (keeps_exprCode right))
      · exact keeps_ofBranch (keeps_shortCircuit (keeps_exprCode left) (keeps_exprCode right))
      · split
        · exact keeps_ofValue (keeps_bind (keeps_exprCode left want).1
            (keeps_bind (keeps_exprCode right want).1 keeps_emit))
        · exact keeps_ofBranch (keeps_compareBranch (fun want => (keeps_exprCode left want).1)
            fun want => (keeps_exprCode right want).1)
  | .unary _ op operand =>
      rw [exprCode.eq_def]
      simp only
      split
      · exact keeps_ofBranch fun want target onTrue =>
          (keeps_exprCode operand want).2 target (!onTrue)
      · exact keeps_ofValue (keeps_bind (keeps_exprCode operand want).1 keeps_applyUnary)
  | .increment _ op (.slot slot) wanted => exact keeps_ofValue keeps_incrementSlot
  | .increment ty op (.field target name) wanted =>
      exact keeps_ofValue (keeps_incrementField (keeps_exprCode target want).1)
  | .call ty name args =>
      exact keeps_ofValue (keeps_bind (keeps_argsCode args want)
        (keeps_give (by simp [Instruction.targets])))
  | .error _ => exact keeps_ofValue fun _ _ _ _ h => (yields_fail.mp h).elim
termination_by structural e

theorem keeps_argsCode (es : List Expr) (want : Label → Prop) : (argsCode es).Keeps want := by
  match es with
  | [] => exact keeps_pure
  | e :: rest => exact keeps_bind (keeps_exprCode e want).1 (keeps_argsCode rest want)
termination_by structural es

end

end Lowering

end MethodCompiler
