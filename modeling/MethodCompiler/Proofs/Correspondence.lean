import MethodCompiler.Proofs.Effects
import MethodCompiler.Proofs.HandlerTable
import MethodCompiler.Proofs.Interpretation

/-!
# Runs that follow a tree

The interpretation of a tree and a run of its code are compared part by part. A part of
the tree has a result, and the code of the part, wherever it stands, is followed by a run
that agrees with it: `Ends` says how. If the part is done, the run comes to the end of the
code. If an object is in flight, the run comes to an instruction that throws it, and where
it goes from there is told by what guards the code. If everything stops, so does the run.
And if the interpretation gave up after so many rounds of a loop, then the run has gone
through at least as many instructions.
-/

namespace MethodCompiler

variable {σ : Type}

namespace Machine

/-- The machine with another stack. -/
def on (m : Machine σ) (stack : List Value) : Machine σ :=
  { m with stack := stack }

@[simp]
theorem on_stack (m : Machine σ) (S : List Value) : (m.on S).stack = S := rfl

@[simp]
theorem on_locals (m : Machine σ) (S : List Value) : (m.on S).locals = m.locals := rfl

@[simp]
theorem on_heap (m : Machine σ) (S : List Value) : (m.on S).heap = m.heap := rfl

@[simp]
theorem on_classes (m : Machine σ) (S : List Value) : (m.on S).classes = m.classes := rfl

@[simp]
theorem on_on (m : Machine σ) (S S' : List Value) : (m.on S).on S' = m.on S' := rfl

@[simp]
theorem classOf?_on (m : Machine σ) (S : List Value) (v : Value) :
    (m.on S).classOf? v = m.classOf? v := rfl

/-- A run goes through at least so many instructions. -/
def Lasts (host : Host σ) (code : Code) : Nat → Nat × Machine σ → Prop
  | 0, _ => True
  | n + 1, c => ∃ c', Onward host code c c' ∧ Lasts host code n c'

/-- A run comes to an instruction that takes the given turn. -/
def Comes (host : Host σ) (code : Code) (c : Nat × Machine σ) (turn : Turn σ) : Prop :=
  ∃ c', Reaches host code c c' ∧ c'.2.advance host code c'.1 = turn

/-- A run comes to another instruction, but not at once. -/
abbrev Proceeds (host : Host σ) (code : Code) : Nat × Machine σ → Nat × Machine σ → Prop :=
  Relation.TransGen (Onward host code)

variable {host : Host σ} {code : Code} {c c' : Nat × Machine σ} {n k : Nat}

theorem Lasts.mono (h : Lasts host code n c) (hk : k ≤ n) : Lasts host code k c := by
  induction n generalizing c k with
  | zero =>
      obtain rfl : k = 0 := by omega
      exact h
  | succ n ih =>
      cases k with
      | zero => trivial
      | succ k =>
          obtain ⟨c', hstep, h⟩ := h
          exact ⟨c', hstep, ih h (by omega)⟩

theorem Lasts.head (hstep : Onward host code c c') (h : Lasts host code n c') :
    Lasts host code (n + 1) c :=
  ⟨c', hstep, h⟩

theorem Lasts.of_reaches (hr : Reaches host code c c') (h : Lasts host code n c') :
    Lasts host code n c := by
  induction hr using Relation.ReflTransGen.head_induction_on with
  | refl => exact h
  | head hstep _ ih => exact (ih.head hstep).mono (Nat.le_succ n)

/-- A round of a loop takes at least one instruction. -/
theorem Lasts.of_proceeds (hr : Proceeds host code c c') (h : Lasts host code n c') :
    Lasts host code (n + 1) c := by
  induction hr using Relation.TransGen.head_induction_on with
  | single hstep => exact h.head hstep
  | head hstep _ ih => exact (ih.head hstep).mono (Nat.le_succ _)

theorem Comes.of_reaches {turn : Turn σ} (hr : Reaches host code c c')
    (h : Comes host code c' turn) : Comes host code c turn := by
  obtain ⟨c'', hr', hturn⟩ := h
  exact ⟨c'', hr.trans hr', hturn⟩

theorem Comes.here {pc : Nat} {m : Machine σ} {turn : Turn σ}
    (h : m.advance host code pc = turn) : Comes host code (pc, m) turn :=
  ⟨(pc, m), .refl, h⟩

/-- A run that comes to where it goes on comes there. -/
theorem Comes.onward {pc : Nat} {m : Machine σ} (h : Comes host code c (.onward pc m)) :
    Proceeds host code c (pc, m) := by
  obtain ⟨c', hr, hturn⟩ := h
  have hlast : Onward host code c' (pc, m) := hturn
  exact .tail' hr hlast

end Machine

namespace Simulation

open Lowering Interpretation Machine

/-! ## Objects in flight -/

/-- What is thrown at a position is caught as `gs` says. -/
def Covered (code : Code) (q : Nat) (gs : Guard) : Prop :=
  ((code.handlers.filter (·.covers q)).map fun row => (row.catchType, some row.handler)) =
    gs.map fun g => (g.1, code.position g.2)

/-- Whether objects of a class are caught. -/
def takes (m : Machine σ) (className : String) : Option String → Bool
  | none => true
  | some caught => m.classes.isSubclass className caught

/-- Where an object goes that is thrown among guards. -/
def flight (code : Code) (gs : Guard) (v : Value) (className : String) (m : Machine σ) : Turn σ :=
  match gs.find? fun g => takes m className g.1 with
  | some g => .onward (code.offset g.2) (m.on [v])
  | none => .ended (.stopped (.uncaught className)) m

theorem find_covered {code : Code} {rows : List Handler} {gs : Guard} {P : Option String → Bool}
    (h : (rows.map fun row => (row.catchType, some row.handler)) =
      gs.map fun g => (g.1, code.position g.2)) :
    (rows.find? fun row => P row.catchType).map (·.handler) =
      (gs.find? fun g => P g.1).map fun g => code.offset g.2 := by
  induction rows generalizing gs with
  | nil =>
      obtain rfl : gs = [] := by simpa using h.symm
      rfl
  | cons row rows ih =>
      cases gs with
      | nil => simp at h
      | cons g gs =>
          obtain ⟨⟨htype, hpos⟩, hrest⟩ : (row.catchType = g.1 ∧ some row.handler = code.position g.2) ∧
              (rows.map fun row => (row.catchType, some row.handler)) =
                gs.map fun g => (g.1, code.position g.2) := by simpa using h
          rw [List.find?_cons, List.find?_cons, htype]
          cases P g.1 with
          | true => simp [Code.offset_eq hpos.symm]
          | false => exact ih hrest

theorem unwind_covered {code : Code} {q : Nat} {gs : Guard} (hcov : Covered code q gs)
    {m : Machine σ} {v : Value} {className : String} (hclass : m.classOf? v = some className) :
    (match m.unwind code q v with
      | .ok (target, m) => .onward target m
      | .error why => .ended (.stopped why) m) = flight code gs v className m := by
  have hfind : (code.handlers.find? (m.takes q className)).map (·.handler) =
      (gs.find? fun g => takes m className g.1).map fun g => code.offset g.2 := by
    rw [← find_covered hcov, List.find?_filter]
    congr 2
    funext row
    rw [Machine.takes, takes.eq_def]
    cases row.catchType <;> simp
  rw [unwind, hclass, flight]
  simp only
  cases hrow : code.handlers.find? (m.takes q className) with
  | none =>
      rw [hrow] at hfind
      cases hg : gs.find? fun g => takes m className g.1 with
      | none => rfl
      | some g => simp [hg] at hfind
  | some row =>
      rw [hrow] at hfind
      cases hg : gs.find? fun g => takes m className g.1 with
      | none => simp [hg] at hfind
      | some g =>
          have hpc : row.handler = code.offset g.2 := by simpa [hg] using hfind
          simp only [hpc]
          rfl

/-! ## Code that stands somewhere -/

/-- The pieces are in the code from a position on, and what they throw is caught as the
regions around them say. -/
structure Standing (code : Code) (around : List Guard) (pc : Nat) (ps : List Piece) : Prop where
  laid : Laid code pc (layOut ps)
  covered : ForSites (fun q s => Covered code q s.guards) pc (sites around ps)

section Standing

variable {code : Code} {around : List Guard} {pc : Nat} {ps qs : List Piece}

@[simp]
theorem standing_append : Standing code around pc (ps ++ qs) ↔
    Standing code around pc ps ∧ Standing code around (pc + size (layOut ps)) qs := by
  constructor
  · rintro ⟨hlaid, hcov⟩
    rw [layOut_append] at hlaid
    rw [sites_append, forSites_append, length_sites] at hcov
    obtain ⟨hlp, hlq⟩ := laid_append.mp hlaid
    exact ⟨⟨hlp, hcov.1⟩, ⟨hlq, hcov.2⟩⟩
  · rintro ⟨⟨hlp, hcp⟩, ⟨hlq, hcq⟩⟩
    refine ⟨?_, ?_⟩
    · rw [layOut_append]
      exact laid_append.mpr ⟨hlp, hlq⟩
    · rw [sites_append, forSites_append, length_sites]
      exact ⟨hcp, hcq⟩

@[simp]
theorem standing_statement :
    Standing code around pc [.statement ps] ↔ Standing code around pc ps := by
  have hds : layOut [.statement ps] = layOut ps := by simp [layOut, Piece.directives]
  have hsites : sites around [.statement ps] = sites around ps := by simp [sites, Piece.sites]
  constructor
  · rintro ⟨hlaid, hcov⟩
    exact ⟨hds ▸ hlaid, hsites ▸ hcov⟩
  · rintro ⟨hlaid, hcov⟩
    exact ⟨hds ▸ hlaid, hsites ▸ hcov⟩

@[simp]
theorem standing_nil : Standing code around pc [] :=
  ⟨trivial, trivial⟩

@[simp]
theorem standing_create {l : Label} :
    Standing code around pc (.give (.create l) :: ps) ↔ Standing code around pc ps := by
  refine ⟨fun ⟨hlaid, hcov⟩ => ⟨hlaid.2, hcov⟩, fun ⟨hlaid, hcov⟩ => ⟨⟨nofun, hlaid⟩, hcov⟩⟩

@[simp]
theorem standing_place {l : Label} : Standing code around pc (.give (.place l) :: ps) ↔
    code.position l = some pc ∧ Standing code around pc ps := by
  constructor
  · rintro ⟨⟨hplace, hlaid⟩, hcov⟩
    exact ⟨hplace, hlaid, hcov⟩
  · rintro ⟨hplace, hlaid, hcov⟩
    exact ⟨⟨hplace, hlaid⟩, hcov⟩

/-- Where a directive stands that emits an instruction, the instruction stands. -/
theorem standing_instruction {d : Directive} {i : Instruction} (hd : d.instruction? = some i) :
    Standing code around pc (.give d :: ps) ↔
      (code.instructions[pc]? = some i ∧ Covered code pc around.flatten) ∧
        Standing code around (pc + 1) ps := by
  have hlaidAt : d.LaidAt code pc ↔ code.instructions[pc]? = some i := by
    cases d <;> simp_all [Directive.LaidAt, Directive.instruction?]
  have hwidth : d.width = 1 := by simp [Directive.width, hd]
  have hsites : sites around (.give d :: ps) = ⟨i, [], around⟩ :: sites around ps := by
    simp [sites, Piece.sites, hd]
  constructor
  · rintro ⟨⟨hat, hlaid⟩, hcov⟩
    rw [hwidth] at hlaid
    rw [hsites] at hcov
    exact ⟨⟨hlaidAt.mp hat, hcov.1⟩, hlaid, hcov.2⟩
  · rintro ⟨⟨hat, hcov⟩, hlaid, hcovs⟩
    refine ⟨⟨hlaidAt.mpr hat, ?_⟩, ?_⟩
    · rw [hwidth]
      exact hlaid
    · rw [hsites]
      exact ⟨hcov, hcovs⟩

@[simp]
theorem standing_emit {i : Instruction} : Standing code around pc (.give (.emit i) :: ps) ↔
    (code.instructions[pc]? = some i ∧ Covered code pc around.flatten) ∧
      Standing code around (pc + 1) ps :=
  standing_instruction rfl

@[simp]
theorem layOut_nil : layOut [] = [] := rfl

@[simp]
theorem layOut_cons_give (d : Directive) (ps : List Piece) :
    layOut (.give d :: ps) = d :: layOut ps := rfl

@[simp]
theorem layOut_cons_statement (ps qs : List Piece) :
    layOut (.statement ps :: qs) = layOut ps ++ layOut qs := rfl

@[simp]
theorem size_created (n k : Nat) : size (layOut (created n k)) = 0 := by
  induction k generalizing n with
  | zero => rfl
  | succ k ih => simp [created, ih]

@[simp]
theorem size_placedIf (used : Bool) (l : Label) : size (layOut (Gen.placedIf used l)) = 0 := by
  cases used <;> simp [Gen.placedIf]

@[simp]
theorem standing_created (n k : Nat) : Standing code around pc (created n k) := by
  induction k generalizing n with
  | zero => exact standing_nil
  | succ k ih => exact standing_create.mpr (ih (n + 1))

@[simp]
theorem standing_placedIf {used : Bool} {l : Label} :
    Standing code around pc (Gen.placedIf used l) ↔ (used → code.position l = some pc) := by
  cases used <;> simp [Gen.placedIf]

end Standing

/-! ## Parts of a tree and runs of their code -/

/-- A run from `c` agrees with the result of a part of the tree. What follows if the part
is done is left open. -/
def Ends (host : Host σ) (code : Code) (rounds : Nat) (gs : Guard) (c : Nat × Machine σ)
    {α : Type} (result : Result σ α) (K : α → Machine σ → Prop) : Prop :=
  match result with
  | .done a m => K a m
  | .raised v className m =>
    m.classOf? v = some className ∧ ∃ S, Comes host code c (flight code gs v className (m.on S))
  | .stopped why m => ∃ S, Comes host code c (.ended (.stopped why) (m.on S))
  | .exhausted => Lasts host code rounds c

namespace Ends

variable {host : Host σ} {code : Code} {rounds : Nat} {gs : Guard} {c c' : Nat × Machine σ}
  {α β : Type} {r : Result σ α} {K K' : α → Machine σ → Prop}

theorem bind {x : Eval σ α} {f : α → Eval σ β} {m : Machine σ} {K' : β → Machine σ → Prop}
    (hx : Ends host code rounds gs c (x m) K)
    (hf : ∀ a m', K a m' → Ends host code rounds gs c (f a m') K') :
    Ends host code rounds gs c ((x >>= f) m) K' := by
  have hbind : (x >>= f) m = match x m with
    | .done a m => f a m
    | .raised v className m => .raised v className m
    | .stopped why m => .stopped why m
    | .exhausted => .exhausted := rfl
  rw [hbind]
  cases hxm : x m with
  | done a m' =>
      rw [hxm] at hx
      exact hf a m' hx
  | raised v className m' | stopped why m' | exhausted =>
      rw [hxm] at hx
      exact hx

/-- What holds at a later point of a run holds at an earlier one. -/
theorem after (hr : Reaches host code c c') (h : Ends host code rounds gs c' r K)
    (hK : ∀ a m, K a m → K' a m) : Ends host code rounds gs c r K' := by
  cases r with
  | done a m => exact hK a m h
  | raised v className m =>
      obtain ⟨hclass, S, hcomes⟩ := h
      exact ⟨hclass, S, hcomes.of_reaches hr⟩
  | stopped why m =>
      obtain ⟨S, hcomes⟩ := h
      exact ⟨S, hcomes.of_reaches hr⟩
  | exhausted => exact Lasts.of_reaches hr h

/-- A round of a loop takes at least one instruction. -/
theorem afterRound (hr : Proceeds host code c c') (h : Ends host code rounds gs c' r K)
    (hK : ∀ a m, K a m → K' a m) : Ends host code (rounds + 1) gs c r K' := by
  cases r with
  | done a m => exact hK a m h
  | raised v className m =>
      obtain ⟨hclass, S, hcomes⟩ := h
      exact ⟨hclass, S, hcomes.of_reaches hr.to_reflTransGen⟩
  | stopped why m =>
      obtain ⟨S, hcomes⟩ := h
      exact ⟨S, hcomes.of_reaches hr.to_reflTransGen⟩
  | exhausted => exact Lasts.of_proceeds hr h

theorem imp (h : Ends host code rounds gs c r K) (hK : ∀ a m, K a m → K' a m) :
    Ends host code rounds gs c r K' :=
  h.after .refl hK

theorem mono (h : Ends host code rounds gs c r K) {fewer : Nat} (hle : fewer ≤ rounds) :
    Ends host code fewer gs c r K := by
  cases r with
  | done a m | raised v className m | stopped why m => exact h
  | exhausted => exact Lasts.mono h hle

end Ends

end Simulation

end MethodCompiler
