import MethodCompiler.Proofs.Compilation
import MethodCompiler.Proofs.ExpressionMeaning
import MethodCompiler.Proofs.ExpressionWrites
import MethodCompiler.Proofs.StatementRuns
import MethodCompiler.Proofs.TypeSoundness

/-!
# Code that leaves a slot alone

The code of statements writes the slots that the tree writes, and more: a jump comes with
copies of the finally bodies it passes. Those of tries outside the statements may well use
a slot that is taken inside, and they stand in the middle of the code of the statements.

A run that has got into such a copy is lost for the stretch of code around it. What the
copy throws is caught outside the stretch, and what follows the copy is the jump. So a run
that stays in the stretch up to its end never was at a lost position, and everywhere else
the slot is left alone. `quiet_stmts` says so of the code of statements that do not write
the slot.
-/

namespace MethodCompiler

open Lowering

/-! ## What stands at a position -/

theorem Directive.LaidAt.instruction {code : Code} {pc : Nat} {d : Directive} {i : Instruction}
    (h : d.LaidAt code pc) (hd : d.instruction? = some i) : code.instructions[pc]? = some i := by
  cases d with
  | place l => cases hd
  | create _ | emit _ | table _ _ _ _ | lookup _ _ _ | handler _ _ _ _ => exact h i hd

theorem Laid.instruction {code : Code} {pc k : Nat} {ds : List Directive} {i : Instruction}
    (h : Laid code pc ds) (hi : (instructionsOf ds)[k]? = some i) :
    code.instructions[pc + k]? = some i := by
  induction ds generalizing pc k with
  | nil => simp at hi
  | cons d ds ih =>
      obtain ⟨hd, hds⟩ := laid_cons.mp h
      rw [instructionsOf_cons] at hi
      cases hinstr : d.instruction? with
      | none =>
          rw [Directive.width, hinstr] at hds
          rw [hinstr] at hi
          exact ih hds hi
      | some j =>
          rw [Directive.width, hinstr] at hds
          rw [hinstr] at hi
          cases k with
          | zero =>
              obtain rfl : j = i := by simpa using hi
              exact hd.instruction hinstr
          | succ k =>
              rw [Nat.add_comm k 1, ← Nat.add_assoc]
              exact ih hds (by simpa using hi)

namespace Simulation

variable {code : Code} {around : List Guard} {pc q : Nat} {ps : List Piece}

/-- At each position of code that stands somewhere there is one of its sites. -/
theorem Standing.site (h : Standing code around pc ps) (hle : pc ≤ q)
    (hlt : q < pc + size (layOut ps)) : ∃ s ∈ sites around ps,
      code.instructions[q]? = some s.instruction ∧ Covered code q s.guards := by
  have hk : q - pc < (sites around ps).length := by rw [length_sites]; omega
  have hs := List.getElem?_eq_getElem hk
  have hq : pc + (q - pc) = q := by omega
  have hinstr := h.laid.instruction (k := q - pc) (i := (sites around ps)[q - pc].instruction) (by
    rw [← map_instruction_sites around, List.getElem?_map, hs, Option.map_some])
  have hcov := h.covered.get hs
  rw [hq] at hinstr hcov
  exact ⟨_, List.getElem_mem hk, hinstr, hcov⟩

end Simulation

/-- The statement does not write the slot, and the constructs in it have numbers below
`top`. -/
def Annotated.Stmt.Spares (slot top : Nat) (s : Annotated.Stmt) : Prop :=
  s.SoundBelow top ∧ s.WritesOnly (· ≠ slot)

namespace Lowering

open Annotated (Expr Stmt Catch)
open Simulation (Covered Standing StandingClauses standing_append standing_statement
  standing_tryCatch standing_clauses_cons standing_copy standing_emit)

/-! ## Where what is thrown goes -/

theorem mem_flatten_drop {around : List Guard} {g : Option String × Label} {j k : Nat} (hjk : j ≤ k)
    (h : g ∈ (around.drop k).flatten) : g ∈ (around.drop j).flatten := by
  obtain ⟨gs, hgs, hg⟩ := List.mem_flatten.mp h
  refine List.mem_flatten.mpr ⟨gs, ?_, hg⟩
  rw [show k = j + (k - j) by omega, ← List.drop_drop] at hgs
  exact List.mem_of_mem_drop hgs

theorem mem_clauseGuards {rescue : Option (Rescue Piece)} {g : Option String × Label}
    (h : g ∈ (clauseGuards rescue).flatten) : ∃ r ∈ rescue, g.2 = r.handler := by
  cases rescue with
  | none => cases h
  | some r =>
      obtain rfl : g = (none, r.handler) := by simpa [clauseGuards] using h
      exact ⟨r, rfl, rfl⟩

theorem place_mem_clauses {done : Label} {clauses : List (Clause Piece)} {c : Clause Piece}
    (hc : c ∈ clauses) : .place c.stretch.1 ∈ layOutClauses done clauses := by
  induction clauses with
  | nil => cases hc
  | cons c' rest ih =>
      obtain ⟨_, stretch, slot, body, exit⟩ := c'
      rw [layOutClauses]
      rcases List.mem_cons.mp hc with rfl | hc
      · simp
      · exact List.mem_append_right _ (ih hc)

section Try

variable {t : TryFrame} {block exit : List Piece} {clauses : List (Clause Piece)}
  {rescue : Option (Rescue Piece)}

theorem mem_tryCatch {d : Directive} (h : d ∈ layOut block ∨ d ∈ layOut exit ∨
    d ∈ layOutClauses t.done clauses ∨ ∃ r ∈ rescue, d = .place r.handler ∨ d ∈ layOut r.body) :
    d ∈ (Piece.tryCatch t block exit clauses rescue).directives := by
  rcases h with h | h | h | ⟨r, rfl, rfl | h⟩
  · cases rescue <;> simp [Piece.directives, h]
  · cases rescue <;> simp [Piece.directives, h]
  · cases rescue <;> simp [Piece.directives, h]
  · simp [Piece.directives]
  · simp [Piece.directives, h]

/-- The handlers of a try are in its code. -/
theorem place_mem_tryCatch {g : Option String × Label} (h : g ∈ blockGuard clauses rescue) :
    .place g.2 ∈ (Piece.tryCatch t block exit clauses rescue).directives := by
  rcases List.mem_append.mp h with h | h
  · obtain ⟨c, hc, rfl⟩ := List.mem_map.mp h
    exact mem_tryCatch (.inr (.inr (.inl (place_mem_clauses hc))))
  · obtain ⟨r, hr, hg⟩ := mem_clauseGuards h
    rw [hg]
    exact mem_tryCatch (.inr (.inr (.inr ⟨r, hr, .inl rfl⟩)))

end Try

mutual

/-- What a piece throws is caught by the regions around it or in the piece itself. -/
theorem guards_piece (around : List Guard) (p : Piece) {s : Site} (hs : s ∈ p.sites around)
    {g : Option String × Label} (hg : g ∈ s.guards) :
    g ∈ around.flatten ∨ .place g.2 ∈ p.directives := by
  match p with
  | .give d =>
      obtain ⟨i, -, rfl⟩ := List.mem_map.mp hs
      exact .inl hg
  | .statement body => exact guards_sites around body hs hg
  | .copy stretch stillOpen body =>
      rcases guards_sites (around.drop (around.length - stillOpen)) body hs hg with h | h
      · exact .inl (mem_flatten_drop (j := 0) (Nat.zero_le _) h)
      · exact .inr (by simp [Piece.directives, h])
  | .tryCatch t block exit clauses none =>
      rw [sites_tryCatch] at hs
      simp only [List.mem_append, List.mem_singleton, List.not_mem_nil, or_false] at hs
      rcases hs with ((hs | hs) | rfl) | hs
      · rcases guards_sites (blockGuard clauses none :: around) block hs hg with h | h
        · rcases List.mem_append.mp h with h | h
          · exact .inr (place_mem_tryCatch h)
          · exact .inl h
        · exact .inr (mem_tryCatch (.inl h))
      · exact (guards_sites around exit hs hg).imp_right fun h => mem_tryCatch (.inr (.inl h))
      · exact .inl hg
      · rcases guards_clauses [] around t.done clauses hs hg with h | h | h
        · cases h
        · exact .inl h
        · exact .inr (mem_tryCatch (.inr (.inr (.inl h))))
  | .tryCatch t block exit clauses (some ⟨handler, stored, slot, body⟩) =>
      have hhandler : ∀ {g : Option String × Label}, g ∈ [((none : Option String), handler)] →
          .place g.2 ∈ (Piece.tryCatch t block exit clauses
            (some ⟨handler, stored, slot, body⟩)).directives := fun h =>
        place_mem_tryCatch (List.mem_append_right _ h)
      rw [sites_tryCatch] at hs
      simp only [List.mem_append, List.mem_cons, List.not_mem_nil, or_false] at hs
      rcases hs with (((hs | hs) | rfl) | hs) | (rfl | hs) | rfl | rfl
      · rcases guards_sites (blockGuard clauses _ :: around) block hs hg with h | h
        · rcases List.mem_append.mp h with h | h
          · exact .inr (place_mem_tryCatch h)
          · exact .inl h
        · exact .inr (mem_tryCatch (.inl h))
      · exact (guards_sites around exit hs hg).imp_right fun h => mem_tryCatch (.inr (.inl h))
      · exact .inl hg
      · rcases guards_clauses [[(none, handler)]] around t.done clauses hs hg with h | h | h
        · exact .inr (hhandler h)
        · exact .inl h
        · exact .inr (mem_tryCatch (.inr (.inr (.inl h))))
      · rcases List.mem_append.mp hg with h | h
        · exact .inr (hhandler h)
        · exact .inl h
      · exact (guards_sites around body hs hg).imp_right fun h =>
          mem_tryCatch (.inr (.inr (.inr ⟨_, rfl, .inr h⟩)))
      · exact .inl hg
      · exact .inl hg
termination_by structural p

theorem guards_sites (around : List Guard) (ps : List Piece) {s : Site} (hs : s ∈ sites around ps)
    {g : Option String × Label} (hg : g ∈ s.guards) :
    g ∈ around.flatten ∨ .place g.2 ∈ layOut ps := by
  match ps with
  | [] => cases hs
  | p :: rest =>
      rw [layOut]
      rcases List.mem_append.mp hs with hs | hs
      · exact (guards_piece around p hs hg).imp_right (List.mem_append_left _)
      · exact (guards_sites around rest hs hg).imp_right (List.mem_append_right _)
termination_by structural ps

theorem guards_clauses (own around : List Guard) (done : Label) (clauses : List (Clause Piece))
    {s : Site} (hs : s ∈ clauseSites own around done clauses) {g : Option String × Label}
    (hg : g ∈ s.guards) : g ∈ own.flatten ∨ g ∈ around.flatten ∨
      .place g.2 ∈ layOutClauses done clauses := by
  match clauses with
  | [] => cases hs
  | ⟨_, stretch, slot, body, exit⟩ :: rest =>
      simp only [clauseSites, List.mem_append, List.mem_singleton] at hs
      rcases hs with (((rfl | hs) | hs) | rfl) | hs
      · rcases List.mem_append.mp hg with h | h
        · exact .inl h
        · exact .inr (.inl h)
      · rcases guards_sites (own ++ around) body hs hg with h | h
        · rw [List.flatten_append, List.mem_append] at h
          exact h.imp_right .inl
        · exact .inr (.inr (by simp [layOutClauses, h]))
      · rcases guards_sites around exit hs hg with h | h
        · exact .inr (.inl h)
        · exact .inr (.inr (by simp [layOutClauses, h]))
      · exact .inr (.inl hg)
      · rcases guards_clauses own around done rest hs hg with h | h | h
        · exact .inl h
        · exact .inr (.inl h)
        · exact .inr (.inr (by simp [layOutClauses, h]))
termination_by structural clauses

end

/-! ## Quiet code -/

/-- The label is not placed in the stretch of code from `lo` to `hi`. -/
def Away (code : Code) (lo hi : Nat) (l : Label) : Prop :=
  ∀ q, code.position l = some q → q < lo ∨ hi < q

/-- A run that is at the position has no way to the end of the stretch from `lo` to `hi`,
except one that leaves the stretch. -/
def Lost (code : Code) (lo hi q : Nat) : Prop :=
  ∃ a b, a ≤ q ∧ q < b ∧ b ≤ hi ∧
    ∀ x y, a ≤ x → x < b → code.Leads x y → (a ≤ y ∧ y < b) ∨ y < lo ∨ hi < y

/-- The instruction at the position does not write the slot, or the position is lost. -/
def KeptAt (code : Code) (slot lo hi q : Nat) : Prop :=
  (∀ i, code.instructions[q]? = some i → i.writes ≠ some slot) ∨ Lost code lo hi q

/-- Wherever the pieces stand in the stretch, the slot is kept at all their positions. -/
def Quiet (code : Code) (slot lo hi : Nat) (around : List Guard) (ps : List Piece) : Prop :=
  ∀ pc, Standing code around pc ps → pc + size (layOut ps) ≤ hi →
    ∀ q, pc ≤ q → q < pc + size (layOut ps) → KeptAt code slot lo hi q

/-- The step gives quiet pieces. -/
def Gen.Quiet (code : Code) (slot lo hi : Nat) (around : List Guard) (x : Gen Unit) : Prop :=
  ∀ ⦃n u ps n'⦄, x.Yields n u ps n' → Lowering.Quiet code slot lo hi around ps

/-- Wherever the clauses stand in the stretch, the slot is kept at all their positions. -/
def QuietClauses (code : Code) (slot lo hi : Nat) (own around : List Guard) (done : Label)
    (clauses : List (Clause Piece)) : Prop :=
  ∀ pc, StandingClauses code own around done pc clauses →
    pc + size (layOutClauses done clauses) ≤ hi →
    ∀ q, pc ≤ q → q < pc + size (layOutClauses done clauses) → KeptAt code slot lo hi q

section Quiet

variable {code : Code} {slot lo hi q : Nat} {own around : List Guard} {ps qs : List Piece}

theorem Lost.step (h : Lost code lo hi q) {y : Nat} (hl : code.Leads q y) :
    Lost code lo hi y ∨ y < lo ∨ hi < y := by
  obtain ⟨a, b, ha, hb, hhi, hclosed⟩ := h
  rcases hclosed q y ha hb hl with ⟨ha', hb'⟩ | hout
  · exact .inl ⟨a, b, ha', hb', hhi, hclosed⟩
  · exact .inr hout

theorem not_lost_end : ¬ Lost code lo hi hi := by
  rintro ⟨a, b, -, hb, hhi, -⟩
  omega

theorem keptAt_of_writes {i : Instruction} (hinstr : code.instructions[q]? = some i)
    (hw : i.writes ≠ some slot) : KeptAt code slot lo hi q := by
  refine .inl fun j hj => ?_
  obtain rfl := Option.some.inj (hinstr.symm.trans hj)
  exact hw

theorem quiet_nil : Quiet code slot lo hi around [] := by
  intro pc _ _ q hle hlt
  simp only [layOut, size_nil] at hlt
  omega

theorem Quiet.append (hp : Quiet code slot lo hi around ps) (hq : Quiet code slot lo hi around qs) :
    Quiet code slot lo hi around (ps ++ qs) := by
  intro pc hst hhi q hle hlt
  rw [layOut_append, size_append] at hhi hlt
  obtain ⟨hsp, hsq⟩ := standing_append.mp hst
  by_cases hfirst : q < pc + size (layOut ps)
  · exact hp pc hsp (by omega) q hle hfirst
  · exact hq _ hsq (by omega) q (by omega) (by omega)

theorem quiet_all (h : ∀ p ∈ ps, Quiet code slot lo hi around [p]) :
    Quiet code slot lo hi around ps := by
  induction ps with
  | nil => exact quiet_nil
  | cons p ps ih =>
      obtain ⟨hp, hps⟩ := List.forall_mem_cons.mp h
      exact hp.append (ih hps)

theorem quiet_statement (h : Quiet code slot lo hi around ps) :
    Quiet code slot lo hi around [.statement ps] := by
  intro pc hst
  rw [show layOut [.statement ps] = layOut ps by simp [layOut, Piece.directives]]
  exact h pc (standing_statement.mp hst)

theorem mem_sites {s : Site} : s ∈ sites around ps ↔ ∃ p ∈ ps, s ∈ p.sites around := by
  induction ps with
  | nil => simp [sites]
  | cons p rest ih => rw [sites, List.mem_append, ih, List.exists_mem_cons_iff]

theorem quiet_plain (h : Plain (· ≠ slot) ps) : Quiet code slot lo hi around ps := by
  intro pc hst _ q hle hlt
  obtain ⟨s, hs, hinstr, -⟩ := hst.site hle hlt
  obtain ⟨p, hp, hs⟩ := mem_sites.mp hs
  obtain ⟨d, rfl, hd⟩ := h p hp
  obtain ⟨i, hi, rfl⟩ := List.mem_map.mp hs
  exact keptAt_of_writes hinstr fun hw => hd i (Option.mem_toList.mp hi) slot hw rfl

theorem quiet_copy {stretch : Stretch} {stillOpen : Nat}
    (h : Quiet code slot lo hi (around.drop (around.length - stillOpen)) ps) :
    Quiet code slot lo hi around [.copy stretch stillOpen ps] := by
  intro pc hst
  have hsize : size (layOut [.copy stretch stillOpen ps]) = size (layOut ps) := by
    rw [layOut, layOut, List.append_nil, size_copy]
  rw [hsize]
  exact h pc (standing_copy hst).1

theorem quietClauses_nil {done : Label} : QuietClauses code slot lo hi own around done [] := by
  intro pc _ _ q hle hlt
  simp only [layOutClauses, size_nil] at hlt
  omega

theorem quietClauses_cons {done : Label} {c : Clause Piece} {rest : List (Clause Piece)}
    (hslot : c.slot ≠ slot) (hbody : Quiet code slot lo hi (own ++ around) c.body)
    (hexit : Quiet code slot lo hi around c.exit)
    (hrest : QuietClauses code slot lo hi own around done rest) :
    QuietClauses code slot lo hi own around done (c :: rest) := by
  intro pc hst hhi q hle hlt
  obtain ⟨hclause, hst'⟩ := standing_clauses_cons hst
  have hexit' : Quiet code slot lo hi around
      (c.exit ++ [Piece.give (.emit ⟨.goto, some (.label done)⟩)]) :=
    hexit.append (quiet_plain (plain_jump .goto done))
  have hsize : size (layOut (c.exit ++ [Piece.give (.emit ⟨.goto, some (.label done)⟩)])) =
      size (layOut c.exit) + 1 := by
    rw [layOut_append, size_append]
    rfl
  rw [size_clause] at hhi hlt
  rcases Nat.eq_or_lt_of_le hle with rfl | hgt
  · exact keptAt_of_writes hclause.store fun hw => hslot (Option.some.inj hw)
  · by_cases h₁ : q < pc + 1 + size (layOut c.body)
    · exact hbody _ hclause.body (by omega) q (by omega) h₁
    · by_cases h₂ : q < pc + 1 + size (layOut c.body) + (size (layOut c.exit) + 1)
      · exact hexit' _ hclause.exit (by omega) q (by omega) (by omega)
      · exact hrest _ hst' (by omega) q (by omega) (by omega)

/-- The handler of a finally body is quiet if the object in flight is in another slot. -/
theorem quiet_rescue {r : Rescue Piece} {pc : Nat}
    (hst : Simulation.StandingRescue code around pc r)
    (hslot : r.slot ≠ slot) (hbody : Quiet code slot lo hi around r.body)
    (hhi : pc + (1 + size (layOut r.body) + 2) ≤ hi) (hle : pc ≤ q)
    (hlt : q < pc + (1 + size (layOut r.body) + 2)) : KeptAt code slot lo hi q := by
  have hbody' : Quiet code slot lo hi around (r.body ++
      [Piece.give (.emit ⟨.load, some (.slot r.slot)⟩), .give (.emit ⟨.throw, none⟩)]) :=
    hbody.append (quiet_plain ((plain_emit rfl).append (plain_emit rfl)))
  have hsize : size (layOut (r.body ++ [Piece.give (.emit ⟨.load, some (.slot r.slot)⟩),
      .give (.emit ⟨.throw, none⟩)])) = size (layOut r.body) + 2 := by
    rw [layOut_append, size_append]
    rfl
  rcases Nat.eq_or_lt_of_le hle with rfl | hgt
  · exact keptAt_of_writes hst.store fun hw => hslot (Option.some.inj hw)
  · exact hbody' _ hst.body (by omega) q (by omega) (by omega)

theorem quiet_tryCatch {t : TryFrame} {block exit : List Piece} {clauses : List (Clause Piece)}
    {rescue : Option (Rescue Piece)}
    (hblock : Quiet code slot lo hi (blockGuard clauses rescue :: around) block)
    (hexit : Quiet code slot lo hi around exit)
    (hclauses : QuietClauses code slot lo hi (clauseGuards rescue) around t.done clauses)
    (hrescue : ∀ r ∈ rescue, r.slot ≠ slot ∧ Quiet code slot lo hi around r.body) :
    Quiet code slot lo hi around [.tryCatch t block exit clauses rescue] := by
  intro pc hst hhi q hle hlt
  have hexit' : Quiet code slot lo hi around
      (exit ++ [Piece.give (.emit ⟨.goto, some (.label t.done)⟩)]) :=
    hexit.append (quiet_plain (plain_jump .goto t.done))
  have hsize : size (layOut (exit ++ [Piece.give (.emit ⟨.goto, some (.label t.done)⟩)])) =
      size (layOut exit) + 1 := by
    rw [layOut_append, size_append]
    rfl
  have hst := standing_tryCatch hst
  rw [layOut, layOut, List.append_nil, size_tryCatch] at hhi hlt
  by_cases h₁ : q < pc + size (layOut block)
  · exact hblock pc hst.standing_block (by omega) q hle h₁
  · by_cases h₂ : q < pc + size (layOut block) + (size (layOut exit) + 1)
    · exact hexit' _ hst.standing_exit (by omega) q (by omega) (by omega)
    · by_cases h₃ : q < pc + size (layOut block) + size (layOut exit) + 1 +
          size (layOutClauses t.done clauses)
      · exact hclauses _ hst.standing_clauses (by omega) q (by omega) h₃
      · cases rescue with
        | none =>
            rw [rescueSize] at hlt
            omega
        | some r =>
            obtain ⟨hslot, hbody⟩ := hrescue r rfl
            rw [rescueSize] at hhi hlt
            exact quiet_rescue (hst.standing_rescue r rfl) hslot hbody (by omega) (by omega)
              (by omega)

/-- Copies of finally bodies before a jump out of the stretch are lost: nothing in them
leads back into it. -/
theorem quiet_lost {n n' : Nat} {l : Label}
    (htidy : Tidy [] (Away code lo hi) n (layOut ps) n')
    (hguards : ∀ s ∈ sites around ps, ∀ g ∈ s.guards,
      Away code lo hi g.2 ∨ .place g.2 ∈ layOut ps) (hl : Away code lo hi l) :
    Quiet code slot lo hi around (ps ++ [Piece.give (.emit ⟨.goto, some (.label l)⟩)]) := by
  intro pc hst hhi q hle hlt
  have hsize : size (layOut (ps ++ [Piece.give (.emit ⟨.goto, some (.label l)⟩)])) =
      size (layOut ps) + 1 := by
    rw [layOut_append, size_append]
    rfl
  rw [hsize] at hhi hlt
  obtain ⟨hcopies, hjump⟩ := standing_append.mp hst
  refine .inr ⟨pc, pc + (size (layOut ps) + 1), hle, hlt, hhi, fun x y hx hx' hleads => ?_⟩
  have hlabel : ∀ l', Away code lo hi l' ∨ .place l' ∈ layOut ps → code.position l' = some y →
      (pc ≤ y ∧ y < pc + (size (layOut ps) + 1)) ∨ y < lo ∨ hi < y := by
    rintro l' (haway | hplace) hpos
    · exact .inr (haway y hpos)
    · obtain ⟨k, hk, h₁, h₂⟩ := hcopies.laid.position hplace
      obtain rfl := Option.some.inj (hpos.symm.trans hk)
      exact .inl ⟨h₁, by omega⟩
  obtain ⟨i, hi, hnext⟩ := hleads
  by_cases hcopy : x < pc + size (layOut ps)
  · obtain ⟨s, hs, hinstr, hcov⟩ := hcopies.site hx hcopy
    obtain rfl := Option.some.inj (hi.symm.trans hinstr)
    rcases hnext with ⟨-, rfl⟩ | ⟨l', hl', hpos⟩ | ⟨-, row, hrow, hcovers, rfl⟩
    · exact .inl ⟨by omega, by omega⟩
    · have hmem : s.instruction ∈ instructionsOf (layOut ps) := by
        rw [← map_instruction_sites around]
        exact List.mem_map_of_mem hs
      obtain ⟨d, hd, hdi⟩ := List.mem_filterMap.mp hmem
      exact hlabel l' (htidy.refs d hd l' (Directive.mem_refs_of_instruction hdi hl')).symm hpos
    · obtain ⟨g, hg, hpos⟩ := position_of_covered hcov hrow hcovers
      exact hlabel g.2 (hguards s hs g hg) hpos
  · obtain ⟨⟨hgoto, -⟩, -⟩ := standing_emit.mp hjump
    obtain rfl : x = pc + size (layOut ps) := by omega
    obtain rfl := Option.some.inj (hi.symm.trans hgoto)
    rcases hnext with ⟨hfalls, -⟩ | ⟨l', hl', hpos⟩ | ⟨hne, -⟩
    · cases hfalls
    · obtain rfl : l' = l := by simpa [Instruction.targets] using hl'
      exact .inr (hl y hpos)
    · exact (hne rfl).elim

end Quiet

/-! ## Statements -/

/-- What a copy of a finally body throws is caught outside the region of the body. -/
theorem guards_crossed {T : Targets} {depth n n' : Nat} {u : Unit} {ps : List Piece}
    {around : List Guard} (R : List Region) (hR : R.length ≤ around.length)
    (hy : (crossed T depth R).Yields n u ps n') {s : Site} (hs : s ∈ sites around ps)
    {g : Option String × Label} (hg : g ∈ s.guards) :
    g ∈ (around.drop (around.length - R.length)).flatten ∨ .place g.2 ∈ layOut ps := by
  induction R generalizing n ps with
  | nil =>
      obtain ⟨rfl, -⟩ := yields_crossed_nil hy
      cases hs
  | cons region R ih =>
      rw [List.length_cons] at hR ⊢
      have hwider : around.length - (R.length + 1) ≤ around.length - R.length := by omega
      by_cases hd : depth ≤ R.length
      · cases region with
        | none =>
            have hrest := ih (by omega) (yields_crossed_none hd hy) hs
            exact hrest.imp_left (mem_flatten_drop hwider)
        | some body =>
            obtain ⟨copy, m, rest, -, hrest, rfl⟩ := yields_crossed_some hd hy
            rw [layOut]
            rcases List.mem_append.mp hs with hs | hs
            · rcases guards_sites _ copy hs hg with h | h
              · exact .inl (mem_flatten_drop hwider h)
              · exact .inr (List.mem_append_left _ (by simp [Piece.directives, h]))
            · exact (ih (by omega) hrest hs).imp (mem_flatten_drop hwider) (List.mem_append_right _)
      · obtain ⟨rfl, -⟩ := yields_crossed_inside (by rw [List.length_cons]; omega) hy
        cases hs

/-- What is known inside a stretch of code that was begun in the regions `R`. Since then
the regions `Q` have been opened, whose finally bodies do not write the slot. Whatever
leaves a region of `R` leads away from the stretch. -/
structure Sheltered (slot : Nat) (away : Label → Prop) (top : Nat) (T : Targets)
    (Q R : List Region) (around : List Guard) : Prop where
  opens : Opens T away top R
  targets : ∀ id t, T.lookup id = some t → t.depth < R.length →
    away t.breakLabel ∧ ∀ l ∈ t.continueLabel, away l
  regions : ∀ body, some body ∈ Q → ∀ s ∈ Stmt.allParts body, s.Spares slot top
  length : Q.length + R.length ≤ around.length
  guards : ∀ g ∈ (around.drop (around.length - R.length)).flatten, away g.2

namespace Sheltered

variable {slot top : Nat} {away : Label → Prop} {T : Targets} {Q R : List Region}
  {around : List Guard} {region : Region}

/-- A construct that is entered has no region of `R` inside it. -/
theorem enter (h : Sheltered slot away top T Q R around) {id : Nat} {t : Target}
    (hno : T.lookup id = none) (hid : id < top) (hdepth : R.length ≤ t.depth) :
    Sheltered slot away top ((id, t) :: T) Q R around := by
  refine ⟨h.opens.enter hno hid, fun id' t' ht hlt => ?_, h.regions, h.length, h.guards⟩
  by_cases heq : id' = id
  · subst heq
    rw [Targets.lookup_enter] at ht
    obtain rfl := Option.some.inj ht
    omega
  · rw [Targets.lookup_enter_ne heq] at ht
    exact h.targets id' t' ht hlt

theorem inRegion (h : Sheltered slot away top T Q R around) (g : Guard)
    (hregion : ∀ body ∈ region, ∀ s ∈ Stmt.allParts body, s.Spares slot top) :
    Sheltered slot away top T (region :: Q) R (g :: around) := by
  have hlength := h.length
  refine ⟨h.opens, h.targets, fun body hbody => ?_, ?_, ?_⟩
  · rcases List.mem_cons.mp hbody with heq | hbody
    · exact hregion body heq.symm
    · exact h.regions body hbody
  · rw [List.length_cons, List.length_cons]
    omega
  · rw [List.length_cons, show around.length + 1 - R.length = around.length - R.length + 1 by omega,
      List.drop_succ_cons]
    exact h.guards

theorem outside (h : Sheltered slot away top T (region :: Q) R around) :
    Sheltered slot away top T Q R around := by
  have hlength := h.length
  rw [List.length_cons] at hlength
  exact ⟨h.opens, h.targets, fun body hbody => h.regions body (List.mem_cons_of_mem _ hbody),
    by omega, h.guards⟩

/-- A copy of a finally body is in the regions outside that of the body and in no others. -/
theorem inCopy (h : Sheltered slot away top T Q R around) :
    Sheltered slot away top T Q R (around.drop (around.length - (Q ++ R).length)) := by
  have hlength := h.length
  refine ⟨h.opens, h.targets, h.regions, ?_, ?_⟩
  · rw [List.length_drop, List.length_append]
    omega
  · rw [List.drop_drop, List.length_drop, List.length_append,
      show around.length - (Q.length + R.length) +
        (around.length - (around.length - (Q.length + R.length)) - R.length) =
          around.length - R.length by omega]
    exact h.guards

end Sheltered

section Statements

variable {code : Code} {slot lo hi top : Nat} {R : List Region}

theorem clauseRegions_append (Q R : List Region) (region : Region) :
    clauseRegions (Q ++ R) region = clauseRegions Q region ++ R := by
  cases region <;> rfl

mutual

/-- The code of a statement that does not write the slot is quiet. -/
theorem quiet_stmt {T : Targets} {Q : List Region} {around : List Guard} (s : Stmt)
    (hs : ∀ t ∈ s.parts, t.Spares slot top)
    (h : Sheltered slot (Away code lo hi) top T Q R around) :
    (stmt T (Q ++ R) s).Quiet code slot lo hi around := by
  intro n u ps n' hy
  by_cases hflat : s.Flat
  · obtain ⟨hbelow, hwrites⟩ := hs s s.mem_parts
    obtain ⟨body, rfl, hbody⟩ := composed_stmt hflat (own_writes hwrites) hy
    refine quiet_statement (quiet_all fun p hp => ?_)
    obtain ⟨d, rfl, hd⟩ | ⟨ht, -, -, hcode⟩ | ⟨ht, hin, -, -, hcode⟩ := hbody p hp
    · exact quiet_plain (given_give hd)
    · have := Stmt.sizeOf_lt_of_mem (List.mem_append_left _ ht)
      exact quiet_stmt _ (Stmt.forall_parts hflat hs (List.mem_append_left _ ht)) h hcode
    · have := Stmt.sizeOf_lt_of_mem (List.mem_append_right _ ht)
      have hdepth := hin.depth
      rw [List.length_append] at hdepth
      exact quiet_stmt _ (Stmt.forall_parts hflat hs (List.mem_append_right _ ht))
        (h.enter hin.free (hbelow.frame ht hin.frame) (by omega)) hcode
  match s with
  | .tryCatch guarded clauses none =>
      obtain ⟨⟨-, hslots, -⟩, hs⟩ := List.forall_mem_cons.mp hs
      obtain ⟨hguarded, hclauses⟩ := List.forall_mem_append.mp hs
      obtain ⟨block, k, codes, hblock, hcodes, rfl⟩ := yields_tryCatch hy
      have := sizeOf_clauses_pos clauses
      have hcopy : (finallyCopy T (Q ++ R) none).Quiet code slot lo hi around := by
        intro n u ps n' hcopy
        obtain ⟨rfl, -⟩ := yields_finallyCopy_none hcopy
        exact quiet_nil
      refine quiet_statement (quiet_tryCatch ?_ quiet_nil ?_ (by simp))
      · exact quiet_stmts guarded hguarded (h.inRegion _ (by simp)) hblock
      · exact quiet_catches [] none clauses _ (fun c hc => hslots _
          (List.mem_append_left _ (List.mem_map_of_mem hc))) hclauses h hcopy
          length_stretchesFrom hcodes
  | .tryCatch guarded clauses (some ⟨slot', body⟩) =>
      obtain ⟨⟨-, hslots, -⟩, hs⟩ := List.forall_mem_cons.mp hs
      obtain ⟨hs, hbody⟩ := List.forall_mem_append.mp hs
      obtain ⟨hguarded, hclauses⟩ := List.forall_mem_append.mp hs
      obtain ⟨block, k, exit, k', codes, e, rescue, hblock, hexit, hcodes, hrescue, rfl⟩ :=
        yields_tryFinally hy
      have := sizeOf_clauses_pos clauses
      have hcopy : (stmts T (Q ++ R) body).Quiet code slot lo hi around :=
        quiet_stmts body hbody h
      have hin : ∀ g, Sheltered slot (Away code lo hi) top T (some body :: Q) R (g :: around) := by
        refine fun g => h.inRegion g ?_
        rintro _ ⟨⟩
        exact hbody
      refine quiet_statement (quiet_tryCatch ?_ (hcopy hexit) ?_ ?_)
      · exact quiet_stmts guarded hguarded (hin _) hblock
      · exact quiet_catches [_] (some body) clauses _ (fun c hc => hslots _
          (List.mem_append_left _ (List.mem_map_of_mem hc))) hclauses (hin _)
          (fun _ _ _ _ h => hcopy (yields_finallyCopy_some h)) length_stretchesFrom hcodes
      · rintro _ ⟨⟩
        exact ⟨hslots _ (List.mem_append_right _ (by simp)), hcopy hrescue⟩
  | .breakJump id =>
      obtain ⟨t, copies, ht, hcopies, rfl⟩ := yields_breakJump hy
      exact quiet_statement (quiet_crossed Q t.depth _ h (fun hd => (h.targets id t ht hd).1)
        hcopies)
  | .continueJump id =>
      obtain ⟨t, l, copies, ht, hl, hcopies, rfl⟩ := yields_continueJump hy
      exact quiet_statement (quiet_crossed Q t.depth l h (fun hd => (h.targets id t ht hd).2 l hl)
        hcopies)
  | .block _ | .localInit .. | .expression .. | .throw _ | .empty | .ifElse .. | .whileLoop ..
  | .doLoop .. | .forLoop .. | .switch .. => exact absurd trivial hflat
termination_by sizeOf s + sizeOf (Q ++ R)

theorem quiet_stmts {T : Targets} {Q : List Region} {around : List Guard} (body : List Stmt)
    (hs : ∀ t ∈ Stmt.allParts body, t.Spares slot top)
    (h : Sheltered slot (Away code lo hi) top T Q R around) :
    (stmts T (Q ++ R) body).Quiet code slot lo hi around := by
  intro n u ps n' hy
  match body with
  | [] =>
      obtain ⟨rfl, -⟩ := yields_nil hy
      exact quiet_nil
  | s :: rest =>
      obtain ⟨hs, hrest⟩ := List.forall_mem_append.mp hs
      obtain ⟨first, k, others, hfirst, hothers, rfl⟩ := yields_cons hy
      exact (quiet_stmt s hs h hfirst).append (quiet_stmts rest hrest h hothers)
termination_by sizeOf body + sizeOf (Q ++ R)

theorem quiet_catches {T : Targets} {Q : List Region} {around : List Guard} (own : List Guard)
    (region : Region) (clauses : List (Catch Stmt)) (stretches : List Stretch)
    (hslots : ∀ c ∈ clauses, c.slot ≠ slot)
    (hs : ∀ t ∈ Stmt.clauseParts clauses, t.Spares slot top)
    (h : Sheltered slot (Away code lo hi) top T (clauseRegions Q region) R (own ++ around))
    (hcopy : (finallyCopy T (Q ++ R) region).Quiet code slot lo hi around)
    (hlength : stretches.length = clauses.length) ⦃n n' : Nat⦄ ⦃done : Label⦄
    ⦃codes : List (Clause Piece)⦄ ⦃ps : List Piece⦄
    (hy : (catches T (Q ++ R) region clauses stretches).Yields n codes ps n') :
    QuietClauses code slot lo hi own around done codes := by
  match clauses, stretches with
  | [], [] =>
      obtain ⟨rfl, -⟩ := yields_catches_nil hy
      exact quietClauses_nil
  | ⟨_, slot', body⟩ :: rest, stretch :: stretches =>
      obtain ⟨hslot, hslots⟩ := List.forall_mem_cons.mp hslots
      obtain ⟨hbody, hrest⟩ := List.forall_mem_append.mp hs
      obtain ⟨first, k, exit, m', others, hfirst, hexit, hothers, rfl⟩ := yields_catches_cons hy
      rw [clauseRegions_append] at hfirst
      have hsize : sizeOf (clauseRegions Q region ++ R) ≤ 1 + sizeOf region + sizeOf (Q ++ R) := by
        rw [← clauseRegions_append]
        exact sizeOf_clauseRegions_le (Q ++ R) region
      exact quietClauses_cons hslot (quiet_stmts body hbody h hfirst) (hcopy hexit)
        (quiet_catches own region rest stretches hslots hrest h hcopy (by simpa using hlength)
          hothers)
termination_by sizeOf clauses + sizeOf region + sizeOf (Q ++ R)

/-- So are the copies of finally bodies that a jump comes with: those of `Q` do not write
the slot, and those of `R` are lost. -/
theorem quiet_crossed {T : Targets} {around : List Guard} (Q : List Region) (depth : Nat)
    (l : Label) (h : Sheltered slot (Away code lo hi) top T Q R around)
    (hl : depth < R.length → Away code lo hi l) ⦃n n' : Nat⦄ ⦃u : Unit⦄ ⦃ps : List Piece⦄
    (hy : (crossed T depth (Q ++ R)).Yields n u ps n') :
    Quiet code slot lo hi around (ps ++ [Piece.give (.emit ⟨.goto, some (.label l)⟩)]) := by
  match Q with
  | [] =>
      have hlength := h.length
      by_cases hd : depth < R.length
      · exact quiet_lost (keeps_crossed R depth h.opens hy) (fun s hs g hg =>
          (guards_crossed R (by simpa using hlength) hy hs hg).imp_left (h.guards g)) (hl hd)
      · obtain ⟨rfl, -⟩ := yields_crossed_inside (R := R) (by omega) hy
        exact quiet_plain (plain_jump .goto l)
  | none :: Q =>
      by_cases hd : depth ≤ (Q ++ R).length
      · exact quiet_crossed Q depth l h.outside hl (yields_crossed_none hd hy)
      · obtain ⟨rfl, -⟩ := yields_crossed_inside (by simp at hd ⊢; omega) hy
        exact quiet_plain (plain_jump .goto l)
  | some body :: Q =>
      by_cases hd : depth ≤ (Q ++ R).length
      · obtain ⟨copy, m, rest, hcopy, hrest, rfl⟩ := yields_crossed_some hd hy
        have hbody := h.regions body (List.mem_cons_self ..)
        exact (quiet_copy (quiet_stmts body hbody h.outside.inCopy hcopy)).append
          (quiet_crossed Q depth l h.outside hl hrest)
      · obtain ⟨rfl, -⟩ := yields_crossed_inside (by simp at hd ⊢; omega) hy
        exact quiet_plain (plain_jump .goto l)
termination_by sizeOf (Q ++ R)

end

end Statements

end Lowering

end MethodCompiler
