import MethodCompiler.Lowering.Stmt

/-!
# What generation yields

A step of generation is a function of the next fresh label that may stop at a
defect. The proofs about generated code never look at it that way: they read it as
the relation `Yields`, which says what value and pieces a step gives and where the
labels stand afterwards. A sequence of steps is then a chain of such facts, and
the steps that only number labels or give one directive disappear from the chain
altogether.

What is left is one equivalence for each form of statement, which names the code
of its parts and the pieces around them. Nothing later opens the definition of the
generator again.
-/

namespace MethodCompiler.Lowering

open Annotated (Expr Stmt Catch Finally Program)

theorem layOut_append (ps qs : List Piece) : layOut (ps ++ qs) = layOut ps ++ layOut qs := by
  induction ps with
  | nil => simp [layOut]
  | cons p ps ih => simp only [List.cons_append, layOut, ih, List.append_assoc]

namespace Gen

/-- From label `n`, the step gives `a` and the pieces `ps`, and the next fresh
label is `n'`. -/
def Yields (x : Gen α) (n : Nat) (a : α) (ps : List Piece) (n' : Nat) : Prop :=
  x n = .ok ⟨a, ps, n'⟩

theorem yields_pure {a b : α} {n n' : Nat} {ps : List Piece} :
    (pure a : Gen α).Yields n b ps n' ↔ b = a ∧ ps = [] ∧ n' = n := by
  simp only [Yields, pure, Except.ok.injEq, Emission.mk.injEq]
  constructor <;> rintro ⟨rfl, rfl, rfl⟩ <;> exact ⟨rfl, rfl, rfl⟩

theorem yields_bind {x : Gen α} {f : α → Gen β} {n n' : Nat} {b : β} {ps : List Piece} :
    (x >>= f).Yields n b ps n' ↔
      ∃ a p₁ m p₂, x.Yields n a p₁ m ∧ ps = p₁ ++ p₂ ∧ (f a).Yields m b p₂ n' := by
  simp only [Yields, bind]
  constructor
  · intro h
    split at h
    · simp at h
    · next a ha =>
        split at h
        · simp at h
        · next c hc =>
            simp only [Except.ok.injEq, Emission.mk.injEq] at h
            obtain ⟨rfl, rfl, rfl⟩ := h
            exact ⟨a.value, a.pieces, a.next, c.pieces, ha, rfl, hc⟩
  · rintro ⟨a, p₁, m, p₂, hx, rfl, hf⟩
    rw [hx]
    simp only
    rw [hf]

theorem yields_fail {d : Defect} {a : α} {n n' : Nat} {ps : List Piece} :
    (fail d : Gen α).Yields n a ps n' ↔ False := by
  simp [Yields, fail]

theorem yields_piece {p : Piece} {u : Unit} {n n' : Nat} {ps : List Piece} :
    (piece p).Yields n u ps n' ↔ ps = [p] ∧ n' = n := by
  simp only [Yields, piece, Except.ok.injEq, Emission.mk.injEq, true_and]
  constructor <;> rintro ⟨rfl, rfl⟩ <;> exact ⟨rfl, rfl⟩

theorem yields_give {d : Directive} {u : Unit} {n n' : Nat} {ps : List Piece} :
    (give d).Yields n u ps n' ↔ ps = [.give d] ∧ n' = n :=
  yields_piece

theorem yields_label {l n n' : Nat} {ps : List Piece} :
    label.Yields n l ps n' ↔ l = n ∧ ps = [] ∧ n' = n + 1 := by
  simp only [Yields, label, Except.ok.injEq, Emission.mk.injEq]
  constructor <;> rintro ⟨rfl, rfl, rfl⟩ <;> exact ⟨rfl, rfl, rfl⟩

theorem yields_fresh {l n n' : Nat} {ps : List Piece} :
    fresh.Yields n l ps n' ↔ l = n ∧ ps = [.give (.create n)] ∧ n' = n + 1 := by
  simp only [Yields, fresh, bind, label, give, piece, pure, Except.ok.injEq, Emission.mk.injEq]
  constructor <;> rintro ⟨rfl, rfl, rfl⟩ <;> exact ⟨rfl, rfl, rfl⟩

theorem yields_hold {x : Gen Unit} {held ps : List Piece} {n n' : Nat} :
    (hold x).Yields n held ps n' ↔ x.Yields n () held n' ∧ ps = [] := by
  simp only [Yields, hold]
  constructor
  · intro h
    split at h
    · simp at h
    · next a ha =>
        simp only [Except.ok.injEq, Emission.mk.injEq] at h
        obtain ⟨rfl, rfl, rfl⟩ := h
        exact ⟨ha, rfl⟩
  · rintro ⟨hx, rfl⟩
    rw [hx]

theorem yields_statement {x : Gen Unit} {u : Unit} {ps : List Piece} {n n' : Nat} :
    (statement x).Yields n u ps n' ↔ ∃ body, ps = [.statement body] ∧ x.Yields n () body n' := by
  simp only [statement, yields_bind, yields_hold, yields_piece]
  constructor
  · rintro ⟨body, _, _, _, ⟨h, rfl⟩, rfl, rfl, rfl⟩
    exact ⟨body, rfl, h⟩
  · rintro ⟨body, rfl, h⟩
    exact ⟨body, _, _, _, ⟨h, rfl⟩, rfl, rfl, rfl⟩

theorem yields_place {l : Label} {u : Unit} {ps : List Piece} {n n' : Nat} :
    (place l).Yields n u ps n' ↔ ps = [.give (.place l)] ∧ n' = n :=
  yields_piece

theorem yields_emit {op : Opcode} {u : Unit} {ps : List Piece} {n n' : Nat} :
    (emit op).Yields n u ps n' ↔ ps = [.give (.emit ⟨op, none⟩)] ∧ n' = n :=
  yields_piece

theorem yields_emitWith {op : Opcode} {operand : Operand} {u : Unit} {ps : List Piece}
    {n n' : Nat} :
    (emitWith op operand).Yields n u ps n' ↔
      ps = [.give (.emit ⟨op, some operand⟩)] ∧ n' = n :=
  yields_piece

theorem yields_jump {op : Opcode} {l : Label} {u : Unit} {ps : List Piece} {n n' : Nat} :
    (jump op l).Yields n u ps n' ↔ ps = [.give (.emit ⟨op, some (.label l)⟩)] ∧ n' = n :=
  yields_piece

/-- The piece that emits an instruction if it is wanted. -/
def emittedIf (wanted : Bool) (i : Instruction) : List Piece :=
  if wanted then [.give (.emit i)] else []

theorem yields_emitIf {wanted : Bool} {i : Instruction} {u : Unit} {ps : List Piece}
    {n n' : Nat} : (emitIf wanted i).Yields n u ps n' ↔ ps = emittedIf wanted i ∧ n' = n := by
  cases wanted
  · simp [emitIf, emittedIf, yields_pure]
  · simp [emitIf, emittedIf, yields_give]

/-- The piece that places a label if it is used. -/
def placedIf (used : Bool) (l : Label) : List Piece :=
  if used then [.give (.place l)] else []

theorem yields_placeIf {used : Bool} {l : Label} {u : Unit} {ps : List Piece} {n n' : Nat} :
    (placeIf used l).Yields n u ps n' ↔ ps = placedIf used l ∧ n' = n := by
  cases used
  · simp [placeIf, placedIf, yields_pure]
  · simp [placeIf, placedIf, yields_place]

/-! A step whose answer is known leaves the chain. -/

theorem yields_unit_bind {x : Gen Unit} {f : Unit → Gen β} {n n' : Nat} {b : β}
    {ps : List Piece} :
    (x >>= f).Yields n b ps n' ↔
      ∃ p₁ m p₂, x.Yields n () p₁ m ∧ ps = p₁ ++ p₂ ∧ (f ()).Yields m b p₂ n' := by
  rw [yields_bind]
  constructor
  · rintro ⟨_, p₁, m, p₂, hx, rfl, hf⟩
    exact ⟨p₁, m, p₂, hx, rfl, hf⟩
  · rintro ⟨p₁, m, p₂, hx, rfl, hf⟩
    exact ⟨(), p₁, m, p₂, hx, rfl, hf⟩

theorem yields_piece_bind {p : Piece} {f : Unit → Gen β} {n n' : Nat} {b : β}
    {ps : List Piece} :
    (piece p >>= f).Yields n b ps n' ↔ ∃ rest, ps = p :: rest ∧ (f ()).Yields n b rest n' := by
  simp only [yields_unit_bind, yields_piece]
  constructor
  · rintro ⟨_, _, rest, ⟨rfl, rfl⟩, rfl, hf⟩
    exact ⟨rest, rfl, hf⟩
  · rintro ⟨rest, rfl, hf⟩
    exact ⟨_, _, rest, ⟨rfl, rfl⟩, rfl, hf⟩

theorem yields_place_bind {l : Label} {f : Unit → Gen β} {n n' : Nat} {b : β}
    {ps : List Piece} :
    (place l >>= f).Yields n b ps n' ↔
      ∃ rest, ps = .give (.place l) :: rest ∧ (f ()).Yields n b rest n' :=
  yields_piece_bind

theorem yields_emitWith_bind {op : Opcode} {operand : Operand} {f : Unit → Gen β} {n n' : Nat}
    {b : β} {ps : List Piece} :
    (emitWith op operand >>= f).Yields n b ps n' ↔
      ∃ rest, ps = .give (.emit ⟨op, some operand⟩) :: rest ∧ (f ()).Yields n b rest n' :=
  yields_piece_bind

theorem yields_jump_bind {op : Opcode} {l : Label} {f : Unit → Gen β} {n n' : Nat}
    {b : β} {ps : List Piece} :
    (jump op l >>= f).Yields n b ps n' ↔
      ∃ rest, ps = .give (.emit ⟨op, some (.label l)⟩) :: rest ∧ (f ()).Yields n b rest n' :=
  yields_piece_bind

theorem yields_placeIf_bind {used : Bool} {l : Label} {f : Unit → Gen β} {n n' : Nat} {b : β}
    {ps : List Piece} :
    (placeIf used l >>= f).Yields n b ps n' ↔
      ∃ rest, ps = placedIf used l ++ rest ∧ (f ()).Yields n b rest n' := by
  simp only [yields_unit_bind, yields_placeIf]
  constructor
  · rintro ⟨_, _, rest, ⟨rfl, rfl⟩, rfl, hf⟩
    exact ⟨rest, rfl, hf⟩
  · rintro ⟨rest, rfl, hf⟩
    exact ⟨_, _, rest, ⟨rfl, rfl⟩, rfl, hf⟩

theorem yields_label_bind {f : Label → Gen β} {n n' : Nat} {b : β} {ps : List Piece} :
    (label >>= f).Yields n b ps n' ↔ (f n).Yields (n + 1) b ps n' := by
  simp only [yields_bind, yields_label]
  constructor
  · rintro ⟨_, _, _, _, ⟨rfl, rfl, rfl⟩, rfl, hf⟩
    exact hf
  · intro hf
    exact ⟨_, _, _, _, ⟨rfl, rfl, rfl⟩, rfl, hf⟩

theorem yields_fresh_bind {f : Label → Gen β} {n n' : Nat} {b : β} {ps : List Piece} :
    (fresh >>= f).Yields n b ps n' ↔
      ∃ rest, ps = .give (.create n) :: rest ∧ (f n).Yields (n + 1) b rest n' := by
  simp only [yields_bind, yields_fresh]
  constructor
  · rintro ⟨_, _, _, rest, ⟨rfl, rfl, rfl⟩, rfl, hf⟩
    exact ⟨rest, rfl, hf⟩
  · rintro ⟨rest, rfl, hf⟩
    exact ⟨_, _, _, rest, ⟨rfl, rfl, rfl⟩, rfl, hf⟩

theorem yields_hold_bind {x : Gen Unit} {f : List Piece → Gen β} {n n' : Nat} {b : β}
    {ps : List Piece} :
    (hold x >>= f).Yields n b ps n' ↔
      ∃ held m, x.Yields n () held m ∧ (f held).Yields m b ps n' := by
  simp only [yields_bind, yields_hold]
  constructor
  · rintro ⟨held, _, m, _, ⟨hx, rfl⟩, rfl, hf⟩
    exact ⟨held, m, hx, hf⟩
  · rintro ⟨held, m, hx, hf⟩
    exact ⟨held, _, m, _, ⟨hx, rfl⟩, rfl, hf⟩

end Gen

namespace Targets

theorem yields_enter {T T' : Targets} {id : Nat} {t : Target} {n n' : Nat} {ps : List Piece} :
    (T.enter id t).Yields n T' ps n' ↔
      T.lookup id = none ∧ T' = (id, t) :: T ∧ ps = [] ∧ n' = n := by
  simp only [enter]
  split <;> rename_i h <;> simp [h, Gen.yields_pure, Gen.yields_fail]

theorem yields_leave {I T : Targets} {id : Nat} {u : Unit} {n n' : Nat} {ps : List Piece} :
    (I.leave id T).Yields n u ps n' ↔ I.filter (·.1 != id) = T ∧ ps = [] ∧ n' = n := by
  simp only [leave]
  split <;> rename_i h <;> simp [h, Gen.yields_pure, Gen.yields_fail]

theorem yields_find {T : Targets} {id : Nat} {t : Target} {n n' : Nat} {ps : List Piece} :
    (T.find id).Yields n t ps n' ↔ T.lookup id = some t ∧ ps = [] ∧ n' = n := by
  simp only [find]
  split <;> rename_i h <;> simp [h, Gen.yields_pure, Gen.yields_fail, eq_comm (a := t)]

theorem yields_enter_bind {T : Targets} {id : Nat} {t : Target} {f : Targets → Gen β} {n n' : Nat}
    {b : β} {ps : List Piece} :
    (T.enter id t >>= f).Yields n b ps n' ↔
      T.lookup id = none ∧ (f ((id, t) :: T)).Yields n b ps n' := by
  simp only [Gen.yields_bind, yields_enter]
  constructor
  · rintro ⟨_, _, _, _, ⟨hno, rfl, rfl, rfl⟩, rfl, hf⟩
    exact ⟨hno, hf⟩
  · rintro ⟨hno, hf⟩
    exact ⟨_, _, _, _, ⟨hno, rfl, rfl, rfl⟩, rfl, hf⟩

theorem yields_find_bind {T : Targets} {id : Nat} {f : Target → Gen β} {n n' : Nat} {b : β}
    {ps : List Piece} :
    (T.find id >>= f).Yields n b ps n' ↔ ∃ t, T.lookup id = some t ∧ (f t).Yields n b ps n' := by
  simp only [Gen.yields_bind, yields_find]
  constructor
  · rintro ⟨t, _, _, _, ⟨ht, rfl, rfl⟩, rfl, hf⟩
    exact ⟨t, ht, hf⟩
  · rintro ⟨t, ht, hf⟩
    exact ⟨t, _, _, _, ⟨ht, rfl, rfl⟩, rfl, hf⟩

end Targets

/-! ## Switches -/

/-- Case values with labels numbered from `n`. -/
def numbered (n : Nat) : List (Int32 × Nat) → List CaseTarget
  | [] => []
  | (value, group) :: rest => ⟨value, group, n⟩ :: numbered (n + 1) rest

/-- The pieces that create `count` labels from `n` on. -/
def created (n : Nat) : Nat → List Piece
  | 0 => []
  | count + 1 => .give (.create n) :: created (n + 1) count

theorem yields_caseTargets {groups : Nat} {cases : List (Int32 × Nat)} {targets : List CaseTarget}
    {n n' : Nat} {ps : List Piece} :
    (caseTargets groups cases).Yields n targets ps n' ↔
      (∀ c ∈ cases, c.2 < groups) ∧ targets = numbered n cases ∧ ps = created n cases.length ∧
        n' = n + cases.length := by
  induction cases generalizing n n' targets ps with
  | nil => simp [caseTargets, Gen.yields_pure, numbered, created]
  | cons c rest ih =>
      obtain ⟨value, group⟩ := c
      rw [caseTargets]
      by_cases hg : groups ≤ group
      · have hno : ¬ group < groups := by omega
        simp [hg, hno, Gen.yields_bind, Gen.yields_fail]
      · have hyes : group < groups := by omega
        simp only [hg, if_false, Gen.yields_bind, Gen.yields_fresh, Gen.yields_pure, ih,
          List.forall_mem_cons, hyes, true_and, numbered, created, List.length_cons]
        constructor
        · rintro ⟨_, _, _, _, ⟨rfl, rfl, rfl⟩, rfl,
            _, _, _, _, ⟨hr, rfl, rfl, rfl⟩, rfl, rfl, rfl, rfl⟩
          exact ⟨hr, rfl, by simp, by omega⟩
        · rintro ⟨hr, rfl, rfl, rfl⟩
          exact ⟨_, _, _, _, ⟨rfl, rfl, rfl⟩, rfl,
            _, _, _, _, ⟨hr, rfl, rfl, rfl⟩, by simp, rfl, rfl, by omega⟩

theorem yields_caseTargets_bind {groups : Nat} {cases : List (Int32 × Nat)}
    {f : List CaseTarget → Gen β} {n n' : Nat} {b : β} {ps : List Piece} :
    (caseTargets groups cases >>= f).Yields n b ps n' ↔
      (∀ c ∈ cases, c.2 < groups) ∧ ∃ rest, ps = created n cases.length ++ rest ∧
        (f (numbered n cases)).Yields (n + cases.length) b rest n' := by
  simp only [Gen.yields_bind, yields_caseTargets]
  constructor
  · rintro ⟨_, _, _, rest, ⟨hlt, rfl, rfl, rfl⟩, rfl, hf⟩
    exact ⟨hlt, rest, rfl, hf⟩
  · rintro ⟨hlt, rest, rfl, hf⟩
    exact ⟨_, _, _, rest, ⟨hlt, rfl, rfl, rfl⟩, rfl, hf⟩

/-- The pieces that place labels one after another. -/
def placed (ls : List Label) : List Piece :=
  ls.map fun l => .give (.place l)

theorem yields_placeAll {ls : List Label} {u : Unit} {n n' : Nat} {ps : List Piece} :
    (placeAll ls).Yields n u ps n' ↔ ps = placed ls ∧ n' = n := by
  induction ls generalizing n n' ps with
  | nil => simp [placeAll, Gen.yields_pure, placed]
  | cons l rest ih =>
      simp only [placeAll, Gen.yields_bind, Gen.yields_place, ih]
      constructor
      · rintro ⟨_, _, _, _, ⟨rfl, rfl⟩, rfl, rfl, rfl⟩
        exact ⟨by simp [placed], rfl⟩
      · rintro ⟨rfl, rfl⟩
        exact ⟨(), _, _, _, ⟨rfl, rfl⟩, by simp [placed], rfl, rfl⟩

/-- The pieces that place the labels of a group. -/
def groupLabels (d : Dispatch) (default : Label) (cases : List CaseTarget) (group : Nat) :
    List Piece :=
  Gen.placedIf (d.defaultGroup = some group) default ++
    placed ((cases.filter (·.group == group)).map (·.label))

theorem yields_placeGroup {d : Dispatch} {default : Label} {cases : List CaseTarget} {group : Nat}
    {u : Unit} {n n' : Nat} {ps : List Piece} :
    (placeGroup d default cases group).Yields n u ps n' ↔
      ps = groupLabels d default cases group ∧ n' = n := by
  simp only [placeGroup, Gen.yields_bind, Gen.yields_placeIf, yields_placeAll, groupLabels]
  constructor
  · rintro ⟨_, _, _, _, ⟨rfl, rfl⟩, rfl, rfl, rfl⟩
    exact ⟨rfl, rfl⟩
  · rintro ⟨rfl, rfl⟩
    exact ⟨(), _, _, _, ⟨rfl, rfl⟩, rfl, rfl, rfl⟩

/-- The directive that picks a group. -/
def dispatchDirective (d : Dispatch) (default : Label) (cases : List CaseTarget) : Directive :=
  match d.kind with
  | .table => .table default d.lo d.hi (tableTargets d.lo d.hi default (sortedTargets cases))
  | .lookup => .lookup default d.count (sortedTargets cases)

theorem yields_dispatchCode {d : Dispatch} {default : Label} {cases : List CaseTarget} {u : Unit}
    {n n' : Nat} {ps : List Piece} :
    (dispatchCode d default cases).Yields n u ps n' ↔
      ps = [.give (dispatchDirective d default cases)] ∧ n' = n := by
  cases hk : d.kind <;> simp only [dispatchCode, dispatchDirective, hk] <;>
    exact Gen.yields_give

/-! ## Catch clauses -/

/-- Pairs of labels numbered from `n` on. -/
def stretchesFrom (n : Nat) : Nat → List Stretch
  | 0 => []
  | count + 1 => (n, n + 1) :: stretchesFrom (n + 2) count

theorem yields_catchStretches {count : Nat} {stretches : List Stretch} {n n' : Nat}
    {ps : List Piece} :
    (catchStretches count).Yields n stretches ps n' ↔
      stretches = stretchesFrom n count ∧ ps = [] ∧ n' = n + 2 * count := by
  induction count generalizing n n' stretches ps with
  | zero => simp [catchStretches, Gen.yields_pure, stretchesFrom]
  | succ count ih =>
      rw [catchStretches, Gen.yields_label_bind, Gen.yields_label_bind]
      simp only [Gen.yields_bind, Gen.yields_pure, ih, stretchesFrom]
      constructor
      · rintro ⟨_, _, _, _, ⟨rfl, rfl, rfl⟩, rfl, rfl, rfl, rfl⟩
        exact ⟨rfl, rfl, by omega⟩
      · rintro ⟨rfl, rfl, rfl⟩
        exact ⟨_, _, _, _, ⟨rfl, rfl, rfl⟩, rfl, rfl, rfl, by omega⟩

theorem yields_catchStretches_bind {count : Nat} {f : List Stretch → Gen β} {n n' : Nat} {b : β}
    {ps : List Piece} :
    (catchStretches count >>= f).Yields n b ps n' ↔
      (f (stretchesFrom n count)).Yields (n + 2 * count) b ps n' := by
  simp only [Gen.yields_bind, yields_catchStretches]
  constructor
  · rintro ⟨_, _, _, _, ⟨rfl, rfl, rfl⟩, rfl, hf⟩
    exact hf
  · intro hf
    exact ⟨_, _, _, _, ⟨rfl, rfl, rfl⟩, rfl, hf⟩

/-! ## Expressions

The codes that jump number labels of their own. Those of values are sequences of
parts and need no inversion of their own. -/

section Codes

variable {n n' : Nat} {u : Unit} {ps : List Piece}

/-- The label of a jump is the only one its code need not place itself. -/
theorem yields_ofValue_branch {value : Gen Unit} {target : Label} {onTrue : Bool}
    (h : ((ExprCode.ofValue value).branch target onTrue).Yields n u ps n') :
    ∃ code, value.Yields n () code n' ∧ ps = code ++
      [.give (.emit ⟨if onTrue then .ifNe else .ifEq, some (.label target)⟩)] := by
  simp only [ExprCode.ofValue, Gen.yields_unit_bind, Gen.yields_jump] at h
  obtain ⟨code, _, _, hcode, rfl, rfl, rfl⟩ := h
  exact ⟨code, hcode, rfl⟩

/-- A jump becomes a value by pushing one on one way and zero on the other. -/
theorem yields_ofBranch_value {branch : Label → Bool → Gen Unit}
    (h : (ExprCode.ofBranch branch).value.Yields n u ps n') :
    ∃ code, (branch n false).Yields (n + 2) () code n' ∧ ps = created n 2 ++ code ++
      [.give (.emit ⟨.push, some (.int 1)⟩), .give (.emit ⟨.goto, some (.label (n + 1))⟩),
        .give (.place n), .give (.emit ⟨.push, some (.int 0)⟩), .give (.place (n + 1))] := by
  simp only [ExprCode.ofBranch, ↓Gen.yields_fresh_bind, ↓Gen.yields_emitWith_bind,
    ↓Gen.yields_jump_bind, ↓Gen.yields_place_bind, Gen.yields_unit_bind, Gen.yields_place] at h
  obtain ⟨_, rfl, _, rfl, code, _, _, hcode, rfl, _, rfl, _, rfl, _, rfl, _, rfl, rfl, rfl⟩ := h
  exact ⟨code, hcode, by simp [created]⟩

theorem yields_shortCircuit_direct {left right : ExprCode} {target : Label} {onTrue : Bool}
    (h : (shortCircuit onTrue left right target onTrue).Yields n u ps n') :
    ∃ p m q, (left.branch target onTrue).Yields n () p m ∧
      (right.branch target onTrue).Yields m () q n' ∧ ps = p ++ q := by
  rw [shortCircuit, if_pos rfl] at h
  obtain ⟨p, m, q, hp, rfl, hq⟩ := Gen.yields_unit_bind.mp h
  exact ⟨p, m, q, hp, hq, rfl⟩

/-- The code of the first operand may skip that of the second. -/
theorem yields_shortCircuit_skipping {left right : ExprCode} {target : Label}
    {decisive onTrue : Bool} (hne : onTrue ≠ decisive)
    (h : (shortCircuit decisive left right target onTrue).Yields n u ps n') :
    ∃ p m q, (left.branch n decisive).Yields (n + 1) () p m ∧
      (right.branch target onTrue).Yields m () q n' ∧
      ps = created n 1 ++ p ++ q ++ [.give (.place n)] := by
  simp only [shortCircuit, if_neg hne, ↓Gen.yields_fresh_bind, Gen.yields_unit_bind,
    Gen.yields_place] at h
  obtain ⟨_, rfl, p, m, _, hp, rfl, q, _, _, hq, rfl, rfl, rfl⟩ := h
  exact ⟨p, m, q, hp, hq, by simp [created]⟩

/-- The pieces that jump on a comparison of two values on the stack. On doubles a
failed comparison jumps over the jump, which takes a label. -/
inductive CompareJump (opcode : Opcode) (ty : Ty) (target : Label) (n : Nat) :
    Bool → List Piece → Nat → Prop
  | holds : CompareJump opcode ty target n true
      [.give (.emit ⟨opcode, some (.label target)⟩)] n
  | failsOnDoubles (hty : ty = .double) : CompareJump opcode ty target n false
      (created n 1 ++ [.give (.emit ⟨opcode, some (.label n)⟩),
        .give (.emit ⟨.goto, some (.label target)⟩), .give (.place n)]) (n + 1)
  | fails {opposite : Opcode} (hty : ty ≠ .double) (hop : opcode.negate? = some opposite) :
      CompareJump opcode ty target n false [.give (.emit ⟨opposite, some (.label target)⟩)] n

theorem yields_compareBranch {op : BinaryOp} {ty : Ty} {left right : Gen Unit} {target : Label}
    {onTrue : Bool} (h : (compareBranch op ty left right target onTrue).Yields n u ps n') :
    ∃ p m q m' opcode jump, left.Yields n () p m ∧ right.Yields m () q m' ∧
      comparison? op = some opcode ∧ CompareJump opcode ty target m' onTrue jump n' ∧
      ps = p ++ q ++ jump := by
  simp only [compareBranch, Gen.yields_unit_bind] at h
  obtain ⟨p, m, _, hp, rfl, q, m', jump, hq, rfl, h⟩ := h
  cases hop : comparison? op with
  | none =>
      rw [hop] at h
      exact (Gen.yields_fail.mp h).elim
  | some opcode =>
      refine ⟨p, m, q, m', opcode, jump, hp, hq, rfl, ?_, by simp⟩
      simp only [hop] at h
      cases onTrue with
      | true =>
          obtain ⟨rfl, rfl⟩ := Gen.yields_jump.mp h
          exact .holds
      | false =>
          simp only [Bool.false_eq_true, if_false] at h
          split at h
          · next hty =>
              simp only [↓Gen.yields_fresh_bind, ↓Gen.yields_jump_bind, Gen.yields_place] at h
              obtain ⟨_, rfl, _, rfl, _, rfl, rfl, rfl⟩ := h
              exact .failsOnDoubles hty
          · next hty =>
              cases hneg : opcode.negate? with
              | none =>
                  rw [hneg] at h
                  exact (Gen.yields_fail.mp h).elim
              | some opposite =>
                  rw [hneg] at h
                  obtain ⟨rfl, rfl⟩ := Gen.yields_jump.mp h
                  exact .fails hty hneg

end Codes

/-! ## Statements

One inversion for each form. Labels are numbered in the order in which they are
asked for, so a form's own labels are `n`, `n + 1` and so on, and the code of its
parts starts behind them. -/

section Forms

variable {T : Targets} {R : List Region} {n n' : Nat} {u : Unit} {ps : List Piece}

theorem yields_block {body : List Stmt} (h : (stmt T R (.block body)).Yields n u ps n') :
    ∃ code, (stmts T R body).Yields n () code n' ∧ ps = [.statement code] := by
  rw [stmt, Gen.yields_statement] at h
  obtain ⟨code, rfl, hcode⟩ := h
  exact ⟨code, hcode, rfl⟩

theorem yields_localInit {slot : Nat} {e : Expr}
    (h : (stmt T R (.localInit slot e)).Yields n u ps n') :
    ∃ code, (value e).Yields n () code n' ∧
      ps = [.statement (code ++ [.give (.emit ⟨.store, some (.slot slot)⟩)])] := by
  rw [stmt] at h
  simp only [Gen.yields_statement, Gen.yields_unit_bind, Gen.yields_emitWith] at h
  obtain ⟨_, rfl, code, _, _, hcode, rfl, rfl, rfl⟩ := h
  exact ⟨code, hcode, rfl⟩

theorem yields_expression {e : Expr} {discard : Bool}
    (h : (stmt T R (.expression e discard)).Yields n u ps n') :
    ∃ code, (value e).Yields n () code n' ∧
      ps = [.statement (code ++ Gen.emittedIf discard ⟨.pop, none⟩)] := by
  rw [stmt] at h
  simp only [Gen.yields_statement, Gen.yields_unit_bind, Gen.yields_emitIf] at h
  obtain ⟨_, rfl, code, _, _, hcode, rfl, rfl, rfl⟩ := h
  exact ⟨code, hcode, rfl⟩

theorem yields_ifThen {c : Expr} {consequent : Stmt}
    (h : (stmt T R (.ifElse c consequent none)).Yields n u ps n') :
    ∃ test m code, (branch c n false).Yields (n + 1) () test m ∧
      (stmt T R consequent).Yields m () code n' ∧
      ps = [.statement ([.give (.create n)] ++ test ++ code ++ [.give (.place n)])] := by
  rw [stmt] at h
  simp only [Gen.yields_statement, ↓Gen.yields_fresh_bind, Gen.yields_unit_bind,
    Gen.yields_place] at h
  obtain ⟨_, rfl, _, rfl, test, m, _, htest, rfl, code, _, _, hcode, rfl, rfl, rfl⟩ := h
  exact ⟨test, m, code, htest, hcode, by simp⟩

/-- The pieces of a condition with two sides. -/
def ifElsePieces (n m : Nat) (test code other : List Piece) : List Piece :=
  [.statement ([.give (.create n)] ++ test ++ code ++
    [.give (.create m), .give (.emit ⟨.goto, some (.label m)⟩), .give (.place n)] ++ other ++
    [.give (.place m)])]

theorem yields_ifElse {c : Expr} {consequent alternate : Stmt}
    (h : (stmt T R (.ifElse c consequent (some alternate))).Yields n u ps n') :
    ∃ test m code m' other, (branch c n false).Yields (n + 1) () test m ∧
      (stmt T R consequent).Yields m () code m' ∧
      (stmt T R alternate).Yields (m' + 1) () other n' ∧
      ps = ifElsePieces n m' test code other := by
  rw [stmt] at h
  simp only [Gen.yields_statement, ↓Gen.yields_fresh_bind, Gen.yields_unit_bind,
    ↓Gen.yields_jump_bind, ↓Gen.yields_place_bind, Gen.yields_place] at h
  obtain ⟨_, rfl, _, rfl, test, m, _, htest, rfl, code, m', _, hcode, rfl, _, rfl, _, rfl, _,
    rfl, other, _, _, hother, rfl, rfl, rfl⟩ := h
  exact ⟨test, m, code, m', other, htest, hcode, hother, by simp [ifElsePieces]⟩

/-- The pieces of a loop that is tested before each round. Its labels are numbered from `k`. -/
def forPieces (j : Annotated.Jumps) (k : Nat) (first test body last : List Piece) : List Piece :=
  [.statement (first ++ created k 4 ++ [.give (.place k)] ++ test ++ body ++
    Gen.placedIf j.hasContinue (k + 3) ++ last ++ [.give (.emit ⟨.goto, some (.label k)⟩)] ++
    Gen.placedIf j.hasBreak (k + 2) ++ [.give (.place (k + 1))])]

theorem yields_whileLoop {j : Annotated.Jumps} {c : Expr} {b : Stmt}
    (h : (stmt T R (.whileLoop j c b)).Yields n u ps n') :
    T.lookup j.id = none ∧ ∃ test m body,
      (branch c (n + 1) false).Yields (n + 4) () test m ∧
      (stmt ((j.id, ⟨n + 2, some (n + 3), R.length⟩) :: T) R b).Yields m () body n' ∧
      ps = forPieces j n [] test body [] := by
  rw [stmt] at h
  simp only [Gen.yields_statement, ↓Gen.yields_fresh_bind, ↓Targets.yields_enter_bind,
    ↓Gen.yields_place_bind, Gen.yields_unit_bind, ↓Gen.yields_placeIf_bind,
    ↓Gen.yields_jump_bind, Targets.yields_leave] at h
  obtain ⟨_, rfl, _, rfl, _, rfl, _, rfl, _, rfl, hno, _, rfl, test, m, _, htest, rfl, body, _,
    _, hbody, rfl, _, rfl, _, rfl, _, rfl, _, rfl, -, rfl, rfl⟩ := h
  exact ⟨hno, test, m, body, htest, hbody, by simp [forPieces, created]⟩

/-- The pieces of a loop that is tested after each round. -/
def doPieces (j : Annotated.Jumps) (n : Nat) (body test : List Piece) : List Piece :=
  [.statement (created n 3 ++ [.give (.place n)] ++ body ++ Gen.placedIf j.hasContinue (n + 2) ++
    test ++ Gen.placedIf j.hasBreak (n + 1))]

theorem yields_doLoop {j : Annotated.Jumps} {b : Stmt} {c : Expr}
    (h : (stmt T R (.doLoop j b c)).Yields n u ps n') :
    T.lookup j.id = none ∧ ∃ body m test,
      (stmt ((j.id, ⟨n + 1, some (n + 2), R.length⟩) :: T) R b).Yields (n + 3) () body m ∧
      (branch c n true).Yields m () test n' ∧
      ps = doPieces j n body test := by
  rw [stmt] at h
  simp only [Gen.yields_statement, ↓Gen.yields_fresh_bind, ↓Targets.yields_enter_bind,
    ↓Gen.yields_place_bind, Gen.yields_unit_bind, ↓Gen.yields_placeIf_bind,
    Targets.yields_leave] at h
  obtain ⟨_, rfl, _, rfl, _, rfl, _, rfl, hno, _, rfl, body, m, _, hbody, rfl, _, rfl, test, _,
    _, htest, rfl, _, rfl, -, rfl, rfl⟩ := h
  exact ⟨hno, body, m, test, hbody, htest, by simp [doPieces, created]⟩

theorem yields_forLoop {j : Annotated.Jumps} {init : List Stmt} {c : Option Expr}
    {update : List Stmt} {b : Stmt}
    (h : (stmt T R (.forLoop j init c update b)).Yields n u ps n') :
    T.lookup j.id = none ∧ ∃ first k test m body m' last,
      (stmts T R init).Yields n () first k ∧
      (branchUnless c (k + 1)).Yields (k + 4) () test m ∧
      (stmt ((j.id, ⟨k + 2, some (k + 3), R.length⟩) :: T) R b).Yields m () body m' ∧
      (stmts ((j.id, ⟨k + 2, some (k + 3), R.length⟩) :: T) R update).Yields m' () last n' ∧
      ps = forPieces j k first test body last := by
  rw [stmt] at h
  simp only [Gen.yields_statement, Gen.yields_unit_bind, ↓Gen.yields_fresh_bind,
    ↓Targets.yields_enter_bind, ↓Gen.yields_place_bind, ↓Gen.yields_placeIf_bind,
    ↓Gen.yields_jump_bind, Targets.yields_leave] at h
  obtain ⟨_, rfl, first, k, _, hfirst, rfl, _, rfl, _, rfl, _, rfl, _, rfl, hno, _, rfl, test, m,
    _, htest, rfl, body, m', _, hbody, rfl, _, rfl, last, _, _, hlast, rfl, _, rfl, _, rfl, _, rfl,
    -, rfl, rfl⟩ := h
  exact ⟨hno, first, k, test, m, body, m', last, hfirst, htest, hbody, hlast,
    by simp [forPieces, created]⟩

/-- The pieces of a switch: its key, the instruction that picks a group, and the groups. -/
def switchPieces (d : Dispatch) (hasBreak : Bool) (k : Nat) (key code : List Piece) : List Piece :=
  [.statement (key ++ created k 2 ++ created (k + 2) d.cases.length ++
    [.give (dispatchDirective d (k + 1) (numbered (k + 2) d.cases))] ++ code ++
    Gen.placedIf d.defaultGroup.isNone (k + 1) ++ Gen.placedIf hasBreak k)]

theorem yields_switch {id : Nat} {hasBreak : Bool} {selector : Expr} {bodies : List (List Stmt)}
    {d : Dispatch} (h : (stmt T R (.switch id hasBreak selector bodies d)).Yields n u ps n') :
    T.lookup id = none ∧ (∀ c ∈ d.cases, c.2 < bodies.length) ∧ ∃ key k code,
      (value selector).Yields n () key k ∧
      (groups ((id, ⟨k, none, R.length⟩) :: T) R
        (placeGroup d (k + 1) (numbered (k + 2) d.cases)) 0 bodies).Yields
          (k + 2 + d.cases.length) () code n' ∧
      ps = switchPieces d hasBreak k key code := by
  rw [stmt] at h
  simp only [Gen.yields_statement, ↓Gen.yields_fresh_bind, ↓Targets.yields_enter_bind,
    ↓yields_caseTargets_bind, ↓Gen.yields_placeIf_bind, Gen.yields_unit_bind, yields_dispatchCode,
    Targets.yields_leave] at h
  obtain ⟨_, rfl, key, k, _, hkey, rfl, _, rfl, _, rfl, hno, hlt, _, rfl, _, _, _, ⟨rfl, rfl⟩, rfl,
    code, _, _, hcode, rfl, _, rfl, _, rfl, -, rfl, rfl⟩ := h
  exact ⟨hno, hlt, key, k, code, hkey, hcode, by simp [switchPieces, created]⟩

theorem yields_breakJump {id : Nat} (h : (stmt T R (.breakJump id)).Yields n u ps n') :
    ∃ t code, T.lookup id = some t ∧ (crossed T t.depth R).Yields n () code n' ∧
      ps = [.statement (code ++ [.give (.emit ⟨.goto, some (.label t.breakLabel)⟩)])] := by
  rw [stmt] at h
  simp only [Gen.yields_statement, ↓Targets.yields_find_bind, Gen.yields_unit_bind,
    Gen.yields_jump] at h
  obtain ⟨_, rfl, t, ht, code, _, _, hcode, rfl, rfl, rfl⟩ := h
  exact ⟨t, code, ht, hcode, rfl⟩

theorem yields_continueJump {id : Nat} (h : (stmt T R (.continueJump id)).Yields n u ps n') :
    ∃ t l code, T.lookup id = some t ∧ t.continueLabel = some l ∧
      (crossed T t.depth R).Yields n () code n' ∧
      ps = [.statement (code ++ [.give (.emit ⟨.goto, some (.label l)⟩)])] := by
  rw [stmt] at h
  simp only [Gen.yields_statement, ↓Targets.yields_find_bind] at h
  obtain ⟨_, rfl, t, ht, h⟩ := h
  cases hl : t.continueLabel with
  | none =>
      rw [hl] at h
      exact (Gen.yields_fail.mp h).elim
  | some l =>
      simp only [hl, Gen.yields_unit_bind, Gen.yields_jump] at h
      obtain ⟨code, _, _, hcode, rfl, rfl, rfl⟩ := h
      exact ⟨t, l, code, ht, hl, hcode, rfl⟩

theorem yields_throw {e : Expr} (h : (stmt T R (.throw e)).Yields n u ps n') :
    ∃ code, (value e).Yields n () code n' ∧
      ps = [.statement (code ++ [.give (.emit ⟨.throw, none⟩)])] := by
  rw [stmt] at h
  simp only [Gen.yields_statement, Gen.yields_unit_bind, Gen.yields_emit] at h
  obtain ⟨_, rfl, code, _, _, hcode, rfl, rfl, rfl⟩ := h
  exact ⟨code, hcode, rfl⟩

theorem yields_empty (h : (stmt T R .empty).Yields n u ps n') : ps = [.statement []] ∧ n' = n := by
  rw [stmt] at h
  simp only [Gen.yields_statement, Gen.yields_pure] at h
  obtain ⟨_, rfl, -, rfl, rfl⟩ := h
  exact ⟨rfl, rfl⟩

/-! ### Lists of statements -/

theorem yields_nil (h : (stmts T R []).Yields n u ps n') : ps = [] ∧ n' = n := by
  rw [stmts] at h
  exact (Gen.yields_pure.mp h).2

theorem yields_cons {s : Stmt} {rest : List Stmt}
    (h : (stmts T R (s :: rest)).Yields n u ps n') :
    ∃ code m codes, (stmt T R s).Yields n () code m ∧ (stmts T R rest).Yields m () codes n' ∧
      ps = code ++ codes := by
  rw [stmts, Gen.yields_unit_bind] at h
  obtain ⟨code, m, codes, hcode, rfl, hcodes⟩ := h
  exact ⟨code, m, codes, hcode, hcodes, rfl⟩

theorem yields_groups_nil {labels : Nat → Gen Unit} {index : Nat}
    (h : (groups T R labels index []).Yields n u ps n') : ps = [] ∧ n' = n := by
  rw [groups] at h
  exact (Gen.yields_pure.mp h).2

theorem yields_groups_cons {d : Dispatch} {default : Label} {cases : List CaseTarget} {index : Nat}
    {body : List Stmt} {rest : List (List Stmt)}
    (h : (groups T R (placeGroup d default cases) index (body :: rest)).Yields n u ps n') :
    ∃ code m codes, (stmts T R body).Yields n () code m ∧
      (groups T R (placeGroup d default cases) (index + 1) rest).Yields m () codes n' ∧
      ps = groupLabels d default cases index ++ code ++ codes := by
  rw [groups] at h
  simp only [Gen.yields_unit_bind, yields_placeGroup] at h
  obtain ⟨_, _, _, ⟨rfl, rfl⟩, rfl, code, m, codes, hcode, rfl, hcodes⟩ := h
  exact ⟨code, m, codes, hcode, hcodes, by simp⟩

/-! ### Tries and the jumps out of them -/

theorem yields_finallyCopy_none (h : (finallyCopy T R none).Yields n u ps n') :
    ps = [] ∧ n' = n := by
  rw [finallyCopy] at h
  exact (Gen.yields_pure.mp h).2

theorem yields_finallyCopy_some {body : List Stmt}
    (h : (finallyCopy T R (some body)).Yields n u ps n') : (stmts T R body).Yields n u ps n' := by
  rw [finallyCopy] at h
  exact h

theorem yields_catches_nil {region : Region} {stretches : List Stretch}
    {codes : List (Clause Piece)}
    (h : (catches T R region [] stretches).Yields n codes ps n') :
    codes = [] ∧ ps = [] ∧ n' = n := by
  rw [catches] at h
  · exact Gen.yields_pure.mp h
  · simp

/-- The code of clauses is held back: the try that they belong to places it. -/
theorem yields_catches_cons {region : Region} {exceptionType : String} {slot : Nat}
    {body : List Stmt} {rest : List (Catch Stmt)} {stretch : Stretch} {stretches : List Stretch}
    {codes : List (Clause Piece)}
    (h : (catches T R region (⟨exceptionType, slot, body⟩ :: rest) (stretch :: stretches)).Yields
      n codes ps n') :
    ∃ code k exit m others, (stmts T (clauseRegions R region) body).Yields n () code k ∧
      (finallyCopy T R region).Yields k () exit m ∧
      (catches T R region rest stretches).Yields m others ps n' ∧
      codes = ⟨exceptionType, stretch, slot, code, exit⟩ :: others := by
  rw [catches] at h
  simp only [↓Gen.yields_hold_bind, Gen.yields_bind, Gen.yields_pure] at h
  obtain ⟨code, k, hcode, exit, m, hexit, others, _, _, _, hothers, rfl, rfl, rfl, rfl⟩ := h
  exact ⟨code, k, exit, m, others, hcode, hexit, by simpa using hothers, rfl⟩

theorem yields_catches_pieces {region : Region} {clauses : List (Catch Stmt)}
    {stretches : List Stretch} {codes : List (Clause Piece)}
    (h : (catches T R region clauses stretches).Yields n codes ps n') : ps = [] := by
  induction clauses generalizing n codes stretches with
  | nil => exact (yields_catches_nil h).2.1
  | cons clause rest ih =>
      cases stretches with
      | nil =>
          rw [catches] at h
          · exact (Gen.yields_pure.mp h).2.1
          · simp
      | cons stretch stretches =>
          obtain ⟨_, _, _, _, _, _, _, hrest, _⟩ := yields_catches_cons h
          exact ih hrest

theorem yields_catches_bind {region : Region} {clauses : List (Catch Stmt)}
    {stretches : List Stretch} {f : List (Clause Piece) → Gen β} {b : β} :
    (catches T R region clauses stretches >>= f).Yields n b ps n' ↔
      ∃ codes m, (catches T R region clauses stretches).Yields n codes [] m ∧
        (f codes).Yields m b ps n' := by
  rw [Gen.yields_bind]
  constructor
  · rintro ⟨codes, p, m, _, hcodes, rfl, hf⟩
    obtain rfl := yields_catches_pieces hcodes
    exact ⟨codes, m, hcodes, hf⟩
  · rintro ⟨codes, m, hcodes, hf⟩
    exact ⟨codes, [], m, ps, hcodes, rfl, hf⟩

/-- A try numbers three labels of its own and two for each clause before its block. -/
theorem yields_tryCatch {guarded : List Stmt} {clauses : List (Catch Stmt)}
    (h : (stmt T R (.tryCatch guarded clauses none)).Yields n u ps n') :
    ∃ block k codes,
      (stmts T (none :: R) guarded).Yields (n + 3 + 2 * clauses.length) () block k ∧
      (catches T R none clauses (stretchesFrom (n + 3) clauses.length)).Yields k codes [] n' ∧
      ps = [.statement [.tryCatch ⟨R.length, (n, n + 1), n + 2⟩ block [] codes none]] := by
  rw [stmt] at h
  simp only [Gen.yields_statement, ↓Gen.yields_label_bind, ↓yields_catchStretches_bind,
    ↓Gen.yields_hold_bind, ↓yields_catches_bind, Gen.yields_piece, Option.map_none] at h
  obtain ⟨_, rfl, block, k, hblock, exit, _, hexit, codes, _, hcodes, rfl, rfl⟩ := h
  obtain ⟨rfl, rfl⟩ := yields_finallyCopy_none hexit
  exact ⟨block, _, codes, hblock, hcodes, rfl⟩

/-- With a finally body there are two more labels, for the handler that runs the body
and throws on. -/
theorem yields_tryFinally {guarded : List Stmt} {clauses : List (Catch Stmt)} {slot : Nat}
    {body : List Stmt}
    (h : (stmt T R (.tryCatch guarded clauses (some ⟨slot, body⟩))).Yields n u ps n') :
    ∃ block k exit k' codes m rescue,
      (stmts T (some body :: R) guarded).Yields (n + 3 + 2 * clauses.length) () block k ∧
      (stmts T R body).Yields k () exit k' ∧
      (catches T R (some body) clauses (stretchesFrom (n + 3) clauses.length)).Yields
        k' codes [] m ∧
      (stmts T R body).Yields (m + 2) () rescue n' ∧
      ps = [.statement [.tryCatch ⟨R.length, (n, n + 1), n + 2⟩ block exit codes
        (some ⟨m, m + 1, slot, rescue⟩)]] := by
  rw [stmt] at h
  simp only [Gen.yields_statement, ↓Gen.yields_label_bind, ↓yields_catchStretches_bind,
    ↓Gen.yields_hold_bind, ↓yields_catches_bind, Gen.yields_piece, Option.map_some] at h
  obtain ⟨_, rfl, block, k, hblock, exit, k', hexit, codes, m, hcodes, rescue, _, hrescue,
    rfl, rfl⟩ := h
  exact ⟨block, k, exit, k', codes, m, rescue, hblock, yields_finallyCopy_some hexit, hcodes,
    hrescue, rfl⟩

theorem yields_crossed_nil {depth : Nat} (h : (crossed T depth []).Yields n u ps n') :
    ps = [] ∧ n' = n := by
  rw [crossed] at h
  exact (Gen.yields_pure.mp h).2

/-- A jump leaves a region without a finally body at no cost. -/
theorem yields_crossed_none {depth : Nat} (hd : depth ≤ R.length)
    (h : (crossed T depth (none :: R)).Yields n u ps n') : (crossed T depth R).Yields n u ps n' := by
  rw [crossed, if_neg (by omega)] at h
  exact h

/-- A jump that leaves a region with a finally body runs a copy of it in the regions
outside. -/
theorem yields_crossed_some {depth : Nat} {body : List Stmt} (hd : depth ≤ R.length)
    (h : (crossed T depth (some body :: R)).Yields n u ps n') :
    ∃ copy m code, (stmts T R body).Yields (n + 2) () copy m ∧
      (crossed T depth R).Yields m () code n' ∧
      ps = .copy (n, n + 1) R.length copy :: code := by
  rw [crossed, if_neg (by omega)] at h
  simp only [↓Gen.yields_label_bind, ↓Gen.yields_hold_bind, ↓Gen.yields_piece_bind] at h
  obtain ⟨copy, m, hcopy, code, rfl, hcode⟩ := h
  exact ⟨copy, m, code, hcopy, hcode, rfl⟩

/-- A jump to a construct inside the innermost region leaves none. -/
theorem yields_crossed_inside {depth : Nat} (hd : R.length ≤ depth)
    (h : (crossed T depth R).Yields n u ps n') : ps = [] ∧ n' = n := by
  match R with
  | [] => exact yields_crossed_nil h
  | none :: _ | some _ :: _ =>
      rw [List.length_cons] at hd
      rw [crossed, if_pos (by omega)] at h
      exact (Gen.yields_pure.mp h).2

end Forms

/-- The code of a method body is that of its statements and then halt. -/
theorem yields_program {p : Annotated.Program} {n n' : Nat} {ps : List Piece} :
    (program p).Yields n () ps n' ↔ ∃ body, (stmts [] [] p.body).Yields n () body n' ∧
      ps = body ++ [.give (.emit ⟨.halt, none⟩)] := by
  rw [program, Gen.yields_unit_bind]
  simp only [Gen.yields_emit]
  constructor
  · rintro ⟨body, m, _, hbody, rfl, rfl, rfl⟩
    exact ⟨body, hbody, rfl⟩
  · rintro ⟨body, hbody, rfl⟩
    exact ⟨body, n', _, hbody, rfl, rfl, rfl⟩

theorem directives_eq_ok_iff {p : Annotated.Program} {ds : List Directive} :
    directives p = .ok ds ↔ ∃ ps n', (program p).Yields 0 () ps n' ∧ ds = layOut ps := by
  rw [directives]
  constructor
  · intro h
    cases hrun : program p 0 with
    | error e => simp [hrun, Except.map] at h
    | ok code =>
        rw [hrun] at h
        exact ⟨code.pieces, code.next, hrun, (Except.ok.inj h).symm⟩
  · rintro ⟨ps, n', hrun, rfl⟩
    rw [show program p 0 = .ok ⟨(), ps, n'⟩ from hrun]
    rfl

end MethodCompiler.Lowering
