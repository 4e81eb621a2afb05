import MethodCompiler.Proofs.Effects
import MethodCompiler.Proofs.Labels

/-!
# Heights of the stack

Heights are given to the positions of code. They have to agree along each edge of the
code: where an instruction goes, the height is the one it leaves. At the start of each
statement the height is zero, and where a handler starts it is one.

`Stacks` says of pieces that heights can be given to their positions, from `h` where
they start to `h'` where they end. The labels in `want` may be taken to have certain
heights, and those in `mine` are found to have theirs. This composes as tidiness of
labels does: pieces one after another take what the first leaves to be what the second
starts from, and a label that is both wanted and found is of no further concern.
-/

namespace MethodCompiler.Lowering

/-! ## Heights -/

/-- The height at a label, if it has a position. -/
def HeightAt (code : Code) (H : Nat → Nat) (l : Label) (x : Nat) : Prop :=
  ∀ pc, code.position l = some pc → H pc = x

/-- The heights around the instruction at a position agree with what it does. -/
structure Consistent (code : Code) (H : Nat → Nat) (pc : Nat) (i : Instruction) : Prop where
  enough : i.pops ≤ H pc
  next : i.fallsThrough → H (pc + 1) = H pc - i.pops + i.pushes
  targets : ∀ l ∈ i.targets, HeightAt code H l (H pc - i.pops)
  halt : i.opcode = .halt → H pc = 0

mutual

/-- The positions at which the statements of a piece start. -/
def Piece.starts (pc : Nat) : Piece → List Nat
  | .give _ => []
  | .statement body => pc :: starts pc body
  | .copy _ _ body => starts pc body
  | .tryCatch t block exit clauses rescue =>
    starts pc block ++ starts (pc + size (layOut block)) exit ++
      clauseStarts (pc + size (layOut block) + size (layOut exit) + 1) clauses ++
      match rescue with
      | none => []
      | some ⟨_, _, _, body⟩ =>
        starts (pc + size (layOut block) + size (layOut exit) + 1 +
          size (layOutClauses t.done clauses) + 1) body
termination_by structural p => p

/-- The positions at which the statements of pieces start. -/
def starts (pc : Nat) : List Piece → List Nat
  | [] => []
  | p :: rest => p.starts pc ++ starts (pc + size p.directives) rest
termination_by structural ps => ps

/-- The positions at which the statements of catch clauses start. -/
def clauseStarts (pc : Nat) : List (Clause Piece) → List Nat
  | [] => []
  | ⟨_, _, _, body, exit⟩ :: rest =>
    starts (pc + 1) body ++ starts (pc + 1 + size (layOut body)) exit ++
      clauseStarts (pc + 1 + size (layOut body) + size (layOut exit) + 1) rest
termination_by structural cs => cs

end

theorem starts_append (pc : Nat) (ps qs : List Piece) :
    starts pc (ps ++ qs) = starts pc ps ++ starts (pc + size (layOut ps)) qs := by
  induction ps generalizing pc with
  | nil => rfl
  | cons p ps ih =>
      rw [List.cons_append, starts, starts, ih, layOut, size_append, List.append_assoc,
        Nat.add_assoc]

/-- The heights fit pieces that are laid out at `pc`. -/
structure Heights (code : Code) (H : Nat → Nat) (pc : Nat) (ps : List Piece) : Prop where
  consistent : ∀ q i, pc ≤ q → q < pc + size (layOut ps) → code.instructions[q]? = some i →
    Consistent code H q i
  starts : ∀ q ∈ starts pc ps, H q = 0
  entries : ∀ row ∈ pendingRows (layOut ps), HeightAt code H row.handler 1

theorem Heights.append {code : Code} {H : Nat → Nat} {pc : Nat} {ps qs : List Piece}
    (hp : Heights code H pc ps) (hq : Heights code H (pc + size (layOut ps)) qs) :
    Heights code H pc (ps ++ qs) where
  consistent := by
    intro q i hlo hhi hi
    rw [layOut_append, size_append] at hhi
    by_cases h : q < pc + size (layOut ps)
    · exact hp.consistent q i hlo h hi
    · exact hq.consistent q i (by omega) (by omega) hi
  starts := by
    intro q hmem
    rw [starts_append, List.mem_append] at hmem
    exact hmem.elim (hp.starts q) (hq.starts q)
  entries := by
    intro row hmem
    rw [layOut_append, pendingRows_append, List.mem_append] at hmem
    exact hmem.elim (hp.entries row) (hq.entries row)

/-- Heights can be given to the positions of the pieces, wherever they are laid out. -/
def Stacks (code : Code) (mine : List (Nat × Nat)) (want : Label → Nat → Prop) (h : Nat)
    (ps : List Piece) (h' : Nat) : Prop :=
  ∀ pc, Laid code pc (layOut ps) → ∃ hs : Nat → Nat, ∀ H : Nat → Nat,
    (∀ q, pc ≤ q → q < pc + size (layOut ps) → H q = hs q) → H (pc + size (layOut ps)) = h' →
      H pc = h ∧ (∀ l x, (l, x) ∈ mine → HeightAt code H l x) ∧
        ((∀ l x, want l x → HeightAt code H l x) → Heights code H pc ps)

namespace Stacks

variable {code : Code} {mine mine' : List (Nat × Nat)} {want want' : Label → Nat → Prop}
  {h m h' l x : Nat} {ps qs : List Piece}

theorem nil : Stacks code [] want h [] h := by
  intro pc _
  refine ⟨fun _ => 0, fun H _ hend => ⟨hend, by simp, fun _ => ⟨?_, by simp [starts], ?_⟩⟩⟩
  · intro q i hlo hhi
    simp only [layOut, size_nil] at hhi
    omega
  · simp [layOut, pendingRows]

theorem append (hp : Stacks code mine want h ps m) (hq : Stacks code mine' want m qs h') :
    Stacks code (mine ++ mine') want h (ps ++ qs) h' := by
  intro pc hlaid
  rw [layOut_append] at hlaid
  obtain ⟨hlp, hlq⟩ := laid_append.mp hlaid
  obtain ⟨hs, hp⟩ := hp pc hlp
  obtain ⟨hs', hq⟩ := hq _ hlq
  refine ⟨fun q => if q < pc + size (layOut ps) then hs q else hs' q, fun H hH hend => ?_⟩
  simp only [layOut_append, size_append, ← Nat.add_assoc] at hH hend
  obtain ⟨hmid, hmine', hfit'⟩ := hq H (fun q hlo hhi => by
    rw [hH q (by omega) hhi, if_neg (by omega)]) hend
  obtain ⟨hstart, hmine, hfit⟩ := hp H (fun q hlo hhi => by
    rw [hH q hlo (by omega), if_pos hhi]) hmid
  refine ⟨hstart, fun l x hmem => ?_, fun hwant => (hfit hwant).append (hfit' hwant)⟩
  exact (List.mem_append.mp hmem).elim (hmine l x) (hmine' l x)

theorem append_own (hp : Stacks code mine want h ps m) (hq : Stacks code [] want m qs h') :
    Stacks code mine want h (ps ++ qs) h' := by
  simpa using hp.append hq

theorem mono (hp : Stacks code mine want h ps h') (hwant : ∀ l x, want l x → want' l x) :
    Stacks code mine want' h ps h' := by
  intro pc hlaid
  obtain ⟨hs, hp⟩ := hp pc hlaid
  refine ⟨hs, fun H hH hend => ?_⟩
  obtain ⟨hstart, hmine, hfit⟩ := hp H hH hend
  exact ⟨hstart, hmine, fun hw => hfit fun l x hlx => hw l x (hwant l x hlx)⟩

/-- Labels whose heights are found need not be wanted. -/
theorem close (hp : Stacks code mine want' h ps h')
    (hwant : ∀ l x, want' l x → want l x ∨ (l, x) ∈ mine) : Stacks code [] want h ps h' := by
  intro pc hlaid
  obtain ⟨hs, hp⟩ := hp pc hlaid
  refine ⟨hs, fun H hH hend => ?_⟩
  obtain ⟨hstart, hmine, hfit⟩ := hp H hH hend
  refine ⟨hstart, by simp, fun hw => hfit fun l x hlx => ?_⟩
  exact (hwant l x hlx).elim (hw l x) (hmine l x)

/-- A piece without instructions. -/
theorem still {d : Directive} (hd : d.instruction? = none)
    (hrow : ∀ row, d.row? = some row → want row.handler 1) : Stacks code [] want h [.give d] h := by
  have hsize : size (layOut [.give d]) = 0 := by
    simp [layOut, Piece.directives, Directive.width, hd]
  intro pc _
  refine ⟨fun _ => 0, fun H _ hend => ?_⟩
  rw [hsize] at hend
  refine ⟨hend, by simp, fun hw => ⟨?_, by simp [starts, Piece.starts], ?_⟩⟩
  · intro q i hlo hhi
    omega
  · intro row hmem
    have hrow' : d.row? = some row := by
      simpa [layOut, Piece.directives, pendingRows] using hmem
    exact hw _ _ (hrow row hrow')

theorem create (l : Label) : Stacks code [] want h [.give (.create l)] h :=
  still rfl nofun

/-- A label has the height of the place where it stands. -/
theorem place (l : Nat) : Stacks code [(l, h)] want h [.give (.place l)] h := by
  intro pc hlaid
  have hpos : code.position l = some pc := hlaid.1
  have hplace : Stacks code [] want h [.give (.place l)] h := still rfl nofun
  obtain ⟨hs, hstill⟩ := hplace pc hlaid
  refine ⟨hs, fun H hH hend => ?_⟩
  obtain ⟨hstart, -, hfit⟩ := hstill H hH hend
  refine ⟨hstart, fun l' x hmem pc' hpc' => ?_, hfit⟩
  obtain ⟨rfl, rfl⟩ : l' = l ∧ x = h := by simpa using hmem
  obtain rfl := Option.some.inj (hpos.symm.trans hpc')
  exact hstart

theorem placeIf {used : Bool} :
    Stacks code (if used then [(l, h)] else []) want h (Gen.placedIf used l) h := by
  cases used
  · exact nil
  · exact place l

/-- An instruction, after which the height is given if the next one may follow. -/
theorem instruction {d : Directive} {i : Instruction} (hd : d.instruction? = some i)
    (hrow : d.row? = none) (henough : i.pops ≤ h)
    (hnext : i.fallsThrough → h' = h - i.pops + i.pushes)
    (htargets : ∀ l ∈ i.targets, want l (h - i.pops)) (hhalt : i.opcode = .halt → h = 0) :
    Stacks code [] want h [.give d] h' := by
  have hsize : size (layOut [.give d]) = 1 := by
    simp [layOut, Piece.directives, Directive.width, hd]
  intro pc hlaid
  have hat : code.instructions[pc]? = some i := by
    cases d <;> first | exact hlaid.1 i hd | simp [Directive.instruction?] at hd
  refine ⟨fun _ => h, fun H hH hend => ?_⟩
  rw [hsize] at hH hend
  have hpc : H pc = h := hH pc (Nat.le_refl _) (by omega)
  refine ⟨hpc, by simp, fun hw => ⟨?_, by simp [starts, Piece.starts], ?_⟩⟩
  · intro q i' hlo hhi hi'
    obtain rfl : q = pc := by omega
    obtain rfl := Option.some.inj (hat.symm.trans hi')
    refine ⟨by omega, fun hf => ?_, fun l hl => ?_, fun hop => hpc.trans (hhalt hop)⟩
    · rw [hend, hpc]
      exact hnext hf
    · rw [hpc]
      exact hw _ _ (htargets l hl)
  · simp [layOut, Piece.directives, pendingRows, hrow]

/-- An instruction after which the next one follows. -/
theorem emit {i : Instruction} (htargets : i.targets = []) (hfalls : i.fallsThrough) (k : Nat) :
    Stacks code [] want (k + i.pops) [.give (.emit i)] (k + i.pushes) := by
  refine instruction rfl rfl (Nat.le_add_left ..) (fun _ => by omega) (by simp [htargets]) ?_
  intro hop
  simp [Instruction.fallsThrough, hop] at hfalls

theorem pushInt (v : Int32) :
    Stacks code [] want h [.give (.emit ⟨.push, some (.int v)⟩)] (h + 1) :=
  emit rfl rfl h

/-- A jump that may go on with the next instruction. -/
theorem jump {opcode : Opcode} {l : Label} (k : Nat)
    (hfalls : Instruction.fallsThrough ⟨opcode, some (.label l)⟩) (hl : want l k) :
    Stacks code [] want (k + Instruction.pops ⟨opcode, some (.label l)⟩)
      [.give (.emit ⟨opcode, some (.label l)⟩)]
      (k + Instruction.pushes ⟨opcode, some (.label l)⟩) := by
  refine instruction rfl rfl (Nat.le_add_left ..) (fun _ => by omega) ?_ ?_
  · simpa [Instruction.targets] using hl
  · intro hop
    simp only [Instruction.fallsThrough] at hfalls hop
    simp [hop] at hfalls

theorem goto {l : Label} (hl : want l h) (h' : Nat) :
    Stacks code [] want h [.give (.emit ⟨.goto, some (.label l)⟩)] h' :=
  instruction rfl rfl (Nat.zero_le _) nofun (by simpa [Instruction.targets, Instruction.pops])
    nofun

theorem throw (h' : Nat) : Stacks code [] want (h + 1) [.give (.emit ⟨.throw, none⟩)] h' :=
  instruction rfl rfl (Nat.le_add_left ..) nofun (by simp [Instruction.targets]) nofun

/-- Directives without instructions, whose rows lead where an object alone is on the
stack. -/
theorem stills {ds : List Directive} (hds : ∀ d ∈ ds, d.instruction? = none ∧
    ∀ row, d.row? = some row → want row.handler 1) : Stacks code [] want h (ds.map .give) h := by
  induction ds with
  | nil => exact nil
  | cons d ds ih =>
      obtain ⟨hd, hrow⟩ := hds d (List.mem_cons_self ..)
      exact (still hd hrow).append (ih fun d hd => hds d (List.mem_cons_of_mem _ hd))

theorem creates (n k : Nat) : Stacks code [] want h (created n k) h := by
  induction k generalizing n with
  | zero => exact nil
  | succ k ih => exact (create n).append (ih (n + 1))

/-- Pieces that come to the same directives and have the same statements. -/
theorem of_eq (hp : Stacks code mine want h ps h') (hds : layOut ps = layOut qs)
    (hstarts : ∀ pc, Lowering.starts pc ps = Lowering.starts pc qs) :
    Stacks code mine want h qs h' := by
  intro pc hlaid
  rw [← hds] at hlaid
  obtain ⟨hs, hp⟩ := hp pc hlaid
  refine ⟨hs, fun H hH hend => ?_⟩
  rw [← hds] at hH hend
  obtain ⟨hstart, hmine, hfit⟩ := hp H hH hend
  refine ⟨hstart, hmine, fun hw => ?_⟩
  obtain ⟨hconsistent, hzero, hentries⟩ := hfit hw
  exact ⟨by rwa [← hds], by rwa [← hstarts], by rwa [← hds]⟩

/-- A statement starts at height zero. -/
theorem statement (hp : Stacks code mine want 0 ps h') :
    Stacks code mine want 0 [.statement ps] h' := by
  have hds : layOut [.statement ps] = layOut ps := by simp [layOut, Piece.directives]
  intro pc hlaid
  rw [hds] at hlaid
  obtain ⟨hs, hp⟩ := hp pc hlaid
  refine ⟨hs, fun H hH hend => ?_⟩
  rw [hds] at hH hend
  obtain ⟨hstart, hmine, hfit⟩ := hp H hH hend
  refine ⟨hstart, hmine, fun hw => ?_⟩
  obtain ⟨hconsistent, hzero, hentries⟩ := hfit hw
  refine ⟨by rwa [hds], ?_, by rwa [hds]⟩
  simpa [Lowering.starts, Piece.starts, hstart] using hzero

end Stacks

/-! ## Expressions -/

open Annotated (Expr)

namespace Gen

/-- Whatever the step gives takes the stack from height `h` to height `h'`. -/
def Lifts (code : Code) (want : Label → Nat → Prop) (h : Nat) (x : Gen Unit) (h' : Nat) : Prop :=
  ∀ ⦃n n' : Nat⦄ ⦃u : Unit⦄ ⦃ps : List Piece⦄, x.Yields n u ps n' → Stacks code [] want h ps h'

variable {code : Code} {want : Label → Nat → Prop} {h m h' : Nat}

theorem lifts_pure : (pure () : Gen Unit).Lifts code want h h := by
  intro n n' u ps hy
  obtain ⟨-, rfl, -⟩ := yields_pure.mp hy
  exact .nil

theorem lifts_fail {d : Defect} : (fail d : Gen Unit).Lifts code want h h' :=
  fun _ _ _ _ hy => (yields_fail.mp hy).elim

theorem lifts_bind {x : Gen Unit} {f : Unit → Gen Unit} (hx : x.Lifts code want h m)
    (hf : (f ()).Lifts code want m h') : (x >>= f).Lifts code want h h' := by
  intro n n' u ps hy
  obtain ⟨p, k, q, hp, rfl, hq⟩ := yields_unit_bind.mp hy
  exact (hx hp).append (hf hq)

theorem lifts_give {d : Directive} (hd : Stacks code [] want h [.give d] h') :
    (give d).Lifts code want h h' := by
  intro n n' u ps hy
  obtain ⟨rfl, -⟩ := yields_give.mp hy
  exact hd

theorem lifts_emit {i : Instruction} (htargets : i.targets = []) (hfalls : i.fallsThrough)
    (k : Nat) : (give (.emit i)).Lifts code want (k + i.pops) (k + i.pushes) :=
  lifts_give (.emit htargets hfalls k)

end Gen

open Gen

/-- The codes of an expression: one adds a value to the stack, the other leaves the
stack as it is on both ways. -/
structure ExprCode.Lifts (code : Code) (c : ExprCode) : Prop where
  value : ∀ want h, c.value.Lifts code want h (h + 1)
  branch : ∀ want h target onTrue, want target h →
    (c.branch target onTrue).Lifts code want h h

variable {code : Code} {want : Label → Nat → Prop} {h m h' : Nat}

theorem lifts_ofValue {value : Gen Unit} (hv : ∀ want h, value.Lifts code want h (h + 1)) :
    (ExprCode.ofValue value).Lifts code := by
  refine ⟨hv, fun want h target onTrue ht => lifts_bind (hv want h) (lifts_give ?_)⟩
  cases onTrue
  · exact .jump h rfl ht
  · exact .jump h rfl ht

theorem lifts_ofBranch {branch : Label → Bool → Gen Unit}
    (hb : ∀ (want : Label → Nat → Prop) (h : Nat) target onTrue, want target h →
      (branch target onTrue).Lifts code want h h) : (ExprCode.ofBranch branch).Lifts code := by
  refine ⟨fun want h n n' u ps hy => ?_, hb⟩
  obtain ⟨test, htest, rfl⟩ := yields_ofBranch_value hy
  have hbranch := hb (fun l x => want l x ∨ (l = n ∧ x = h) ∨ (l = n + 1 ∧ x = h + 1)) h n false
    (.inr (.inl ⟨rfl, rfl⟩)) htest
  -- Both ways push: the one that goes on jumps over the other.
  have hall := ((Stacks.creates n 2).append hbranch).append ((Stacks.pushInt 1).append
    ((Stacks.goto (.inr (.inr ⟨rfl, rfl⟩)) h).append ((Stacks.place n).append
      ((Stacks.pushInt 0).append (Stacks.place (n + 1))))))
  refine hall.close fun l x hw => hw.imp_right ?_
  rintro (⟨rfl, rfl⟩ | ⟨rfl, rfl⟩) <;> simp

/-- A label that the first of two parts may jump to is placed behind the second. -/
theorem stacks_skipping {n : Nat} {p q : List Piece}
    (hp : Stacks code [] (fun l x => want l x ∨ (l = n ∧ x = h)) h p h)
    (hq : Stacks code [] (fun l x => want l x ∨ (l = n ∧ x = h)) h q h) :
    Stacks code [] want h (created n 1 ++ p ++ q ++ [.give (.place n)]) h := by
  refine ((((Stacks.creates n 1).append hp).append hq).append (Stacks.place n)).close ?_
  rintro l x (hw | ⟨rfl, rfl⟩)
  · exact .inl hw
  · exact .inr (by simp)

theorem lifts_shortCircuit {decisive : Bool} {left right : ExprCode} (hl : left.Lifts code)
    (hr : right.Lifts code) (want : Label → Nat → Prop) (h : Nat) (target : Label) (onTrue : Bool)
    (ht : want target h) : (shortCircuit decisive left right target onTrue).Lifts code want h h := by
  intro n n' u ps hy
  obtain rfl | hne := Decidable.em (onTrue = decisive)
  · obtain ⟨p, m, q, hp, hq, rfl⟩ := yields_shortCircuit_direct hy
    exact (hl.branch want h _ _ ht hp).append (hr.branch want h _ _ ht hq)
  · obtain ⟨p, m, q, hp, hq, rfl⟩ := yields_shortCircuit_skipping hne hy
    exact stacks_skipping (hl.branch _ h _ _ (.inr ⟨rfl, rfl⟩) hp) (hr.branch _ h _ _ (.inl ht) hq)

/-- A comparison takes two values off the stack, and so does its opposite. -/
theorem effect_comparison {op : BinaryOp} {opcode : Opcode} (hop : comparison? op = some opcode)
    (operand : Option Operand) : Instruction.pops ⟨opcode, operand⟩ = 2 ∧
      Instruction.pushes ⟨opcode, operand⟩ = 0 ∧ Instruction.fallsThrough ⟨opcode, operand⟩ := by
  cases op <;> simp only [comparison?, Option.some.injEq, reduceCtorEq] at hop <;> subst hop <;>
    exact ⟨rfl, rfl, rfl⟩

theorem effect_opposite {op : BinaryOp} {opcode opposite : Opcode}
    (hop : comparison? op = some opcode) (hneg : opcode.negate? = some opposite)
    (operand : Option Operand) : Instruction.pops ⟨opposite, operand⟩ = 2 ∧
      Instruction.pushes ⟨opposite, operand⟩ = 0 ∧
      Instruction.fallsThrough ⟨opposite, operand⟩ := by
  cases op <;> simp only [comparison?, Option.some.injEq, reduceCtorEq] at hop <;> subst hop <;>
    simp only [Opcode.negate?, Option.some.injEq] at hneg <;> subst hneg <;> exact ⟨rfl, rfl, rfl⟩

theorem stacks_compare {opcode : Opcode} {l : Label}
    (heffect : Instruction.pops ⟨opcode, some (.label l)⟩ = 2 ∧
      Instruction.pushes ⟨opcode, some (.label l)⟩ = 0 ∧
      Instruction.fallsThrough ⟨opcode, some (.label l)⟩) (hl : want l h) :
    Stacks code [] want (h + 2) [.give (.emit ⟨opcode, some (.label l)⟩)] h := by
  obtain ⟨hpops, hpushes, hfalls⟩ := heffect
  have hjump : Stacks code [] want _ _ _ := .jump h hfalls hl
  rwa [hpops, hpushes] at hjump

theorem lifts_compareBranch {op : BinaryOp} {ty : Ty} {left right : Gen Unit}
    (hl : ∀ want h, left.Lifts code want h (h + 1))
    (hr : ∀ want h, right.Lifts code want h (h + 1)) (want : Label → Nat → Prop) (h : Nat)
    (target : Label) (onTrue : Bool) (ht : want target h) :
    (compareBranch op ty left right target onTrue).Lifts code want h h := by
  intro n n' u ps hy
  obtain ⟨p, m, q, m', opcode, jump, hp, hq, hop, hjump, rfl⟩ := yields_compareBranch hy
  refine ((hl want h hp).append (hr want (h + 1) hq)).append ?_
  cases hjump with
  | holds => exact stacks_compare (effect_comparison hop _) ht
  | fails hty hneg => exact stacks_compare (effect_opposite hop hneg _) ht
  | failsOnDoubles =>
      have hskip : Stacks code [] (fun l x => want l x ∨ (l = m' ∧ x = h)) (h + 2) _ h :=
        stacks_compare (effect_comparison hop _) (.inr ⟨rfl, rfl⟩)
      refine ((Stacks.creates m' 1).append (hskip.append ((Stacks.goto (.inl ht) h).append
        (Stacks.place m')))).close ?_
      rintro l x (hw | ⟨rfl, rfl⟩)
      · exact .inl hw
      · exact .inr (by simp)

theorem lifts_pushLong (v : Int64) : (pushLong v).Lifts code want h (h + 1) := by
  rw [pushLong]
  split
  · exact lifts_emit rfl rfl h
  · split
    · exact lifts_emit rfl rfl h
    · exact lifts_emit rfl rfl h

theorem lifts_pushDouble (v : Float) : (pushDouble v).Lifts code want h (h + 1) := by
  rw [pushDouble]
  split
  · exact lifts_emit rfl rfl h
  · split
    · exact lifts_emit rfl rfl h
    · exact lifts_emit rfl rfl h

theorem lifts_pushOne (ty : Ty) : (pushOne ty).Lifts code want h (h + 1) := by
  rw [pushOne.eq_def]
  split
  · exact lifts_emit rfl rfl h
  · exact lifts_emit rfl rfl h
  · exact lifts_emit rfl rfl h

theorem lifts_widening (source target : Ty) :
    (match widening? source target with
      | some opcode => Gen.emit opcode
      | none => Gen.fail (.noWidening source target)).Lifts code want (h + 1) (h + 1) := by
  cases hop : widening? source target with
  | none => exact lifts_fail
  | some opcode =>
      cases source <;> cases target <;>
        simp only [widening?, Option.some.injEq, reduceCtorEq] at hop <;> subst hop <;>
        exact lifts_emit rfl rfl h

theorem lifts_applyUnary (op : UnaryOp) (ty : Ty) :
    (applyUnary op ty).Lifts code want (h + 1) (h + 1) := by
  cases op with
  | minus => exact lifts_emit rfl rfl h
  | plus | logicalNot => exact lifts_pure
  | bitwiseNot =>
      refine lifts_bind (m := h + 2) ?_ (lifts_emit rfl rfl h)
      split <;> exact lifts_emit rfl rfl (h + 1)

theorem lifts_arithmetic {op : BinaryOp} {opcode : Opcode} (hop : arithmetic? op = some opcode) :
    (Gen.emit opcode).Lifts code want (h + 2) (h + 1) := by
  cases op <;> simp only [arithmetic?, Option.some.injEq, reduceCtorEq] at hop <;> subst hop <;>
    exact lifts_emit rfl rfl h

/-- A step of a local leaves a value if one is wanted. -/
theorem lifts_incrementSlot (op : UpdateOp) (slot : Nat) (used : Bool) :
    (incrementSlot op slot used).Lifts code want h (if used then h + 1 else h) := by
  have hload (h : Nat) :
      (Gen.give (.emit ⟨.load, some (.slot slot)⟩)).Lifts code want h (h + 1) :=
    lifts_emit rfl rfl h
  have hinc (h : Nat) :
      (Gen.give (.emit ⟨.inc, some (.increment slot op.delta)⟩)).Lifts code want h h :=
    lifts_emit rfl rfl h
  rw [incrementSlot]
  cases used <;> cases op.givesOldValue
  · exact lifts_bind lifts_pure (lifts_bind (hinc h) lifts_pure)
  · exact lifts_bind lifts_pure (lifts_bind (hinc h) lifts_pure)
  · exact lifts_bind lifts_pure (lifts_bind (hinc h) (hload h))
  · exact lifts_bind (hload h) (lifts_bind (hinc (h + 1)) lifts_pure)

/-- A step of a field leaves a value if one is wanted, under the object and the value
that are stored or under both and the number one. -/
theorem lifts_incrementField (op : UpdateOp) (ty : Ty) {target : Gen Unit} (name : String)
    (used : Bool) (ht : target.Lifts code want h (h + 1)) :
    (incrementField op ty target name used).Lifts code want h (if used then h + 1 else h) := by
  have hdup : (Gen.emit .dup).Lifts code want (h + 1) (h + 2) := lifts_emit rfl rfl h
  have hget : (Gen.emitWith .getField (.name name)).Lifts code want (h + 2) (h + 2) :=
    lifts_emit rfl rfl (h + 1)
  have hcopy : (Gen.give (.emit ⟨.dupX1, none⟩)).Lifts code want (h + 2) (h + 3) :=
    lifts_emit rfl rfl h
  have hstep (h : Nat) : (Gen.emit (if 0 < op.delta then .add else .sub)).Lifts code want
      (h + 2) (h + 1) := by
    split <;> exact lifts_emit rfl rfl h
  have hput (h : Nat) : (Gen.emitWith .putField (.name name)).Lifts code want (h + 2) h :=
    lifts_emit rfl rfl h
  refine lifts_bind ht (lifts_bind hdup (lifts_bind hget ?_))
  cases used <;> cases op.givesOldValue
  · exact lifts_bind lifts_pure (lifts_bind (lifts_pushOne ty) (lifts_bind (hstep (h + 1))
      (lifts_bind lifts_pure (hput h))))
  · exact lifts_bind lifts_pure (lifts_bind (lifts_pushOne ty) (lifts_bind (hstep (h + 1))
      (lifts_bind lifts_pure (hput h))))
  · exact lifts_bind lifts_pure (lifts_bind (lifts_pushOne ty) (lifts_bind (hstep (h + 1))
      (lifts_bind hcopy (hput (h + 1)))))
  · exact lifts_bind hcopy (lifts_bind (lifts_pushOne ty) (lifts_bind (hstep (h + 2))
      (lifts_bind lifts_pure (hput (h + 1)))))

theorem lifts_assignSlot {value : Gen Unit} (slot : Nat) (used : Bool)
    (hv : value.Lifts code want h (h + 1)) :
    Gen.Lifts code want h (do
      value
      Gen.emitIf used ⟨.dup, none⟩
      Gen.emitWith .store (.slot slot)) (if used then h + 1 else h) := by
  refine lifts_bind hv ?_
  cases used
  · exact lifts_bind lifts_pure (lifts_emit rfl rfl h)
  · exact lifts_bind (m := h + 2) (lifts_emit rfl rfl h) (lifts_emit rfl rfl (h + 1))

theorem lifts_assignField {target value : Gen Unit} (name : String) (used : Bool)
    (ht : target.Lifts code want h (h + 1)) (hv : value.Lifts code want (h + 1) (h + 2)) :
    Gen.Lifts code want h (do
      target
      value
      Gen.emitIf used ⟨.dupX1, none⟩
      Gen.emitWith .putField (.name name)) (if used then h + 1 else h) := by
  refine lifts_bind ht (lifts_bind hv ?_)
  cases used
  · exact lifts_bind lifts_pure (lifts_emit rfl rfl h)
  · exact lifts_bind (m := h + 3) (lifts_emit rfl rfl h) (lifts_emit rfl rfl (h + 1))

/-- A call takes its arguments off the stack and leaves a value unless it is void. -/
theorem lifts_invoke (name : String) (argc : Nat) (returns : Bool) :
    (Gen.emitWith .invoke (.call name argc returns)).Lifts code want (h + argc)
      (if returns then h + 1 else h) := by
  cases returns
  · exact lifts_emit rfl rfl h
  · exact lifts_emit rfl rfl h

mutual

/-- The codes of an expression without void parts, whose value is wanted. -/
theorem lifts_exprCode (e : Expr) (hs : e.Sound true) (ht : e.Types (· ≠ .void)) :
    (exprCode e).Lifts code := by
  match e with
  | .int _ v | .null _ | .slot _ slot | .new _ className =>
      exact lifts_ofValue fun want h => lifts_emit rfl rfl h
  | .long _ v => exact lifts_ofValue fun want h => lifts_pushLong v
  | .double _ v => exact lifts_ofValue fun want h => lifts_pushDouble v
  | .bool _ v =>
      refine ⟨fun want h => lifts_emit rfl rfl h, fun want h target onTrue ht => ?_⟩
      simp only [exprCode]
      split
      · exact lifts_give (.goto ht h)
      · exact lifts_pure
  | .field _ target name =>
      have ih := lifts_exprCode target hs ht.2
      exact lifts_ofValue fun want h => lifts_bind (ih.value want h) (lifts_emit rfl rfl h)
  | .widen ty inner =>
      have ih := lifts_exprCode inner hs.2 ht.2
      exact lifts_ofValue fun want h => lifts_bind (ih.value want h) (lifts_widening _ _)
  | .assign _ (.slot slot) value used =>
      obtain ⟨rfl, hs⟩ := hs
      have ih := lifts_exprCode value hs ht.2
      exact lifts_ofValue fun want h => lifts_assignSlot slot true (ih.value want h)
  | .assign _ (.field target name) value used =>
      obtain ⟨rfl, hst, hsv⟩ := hs
      obtain ⟨-, htt, htv⟩ := ht
      have iht := lifts_exprCode target hst htt
      have ihv := lifts_exprCode value hsv htv
      exact lifts_ofValue fun want h =>
        lifts_assignField name true (iht.value want h) (ihv.value want (h + 1))
  | .binary _ op left right =>
      obtain ⟨hsl, hsr⟩ := hs
      obtain ⟨-, htl, htr⟩ := ht
      have ihl := lifts_exprCode left hsl htl
      have ihr := lifts_exprCode right hsr htr
      rw [exprCode.eq_def]
      simp only
      split
      · exact lifts_ofBranch (lifts_shortCircuit ihl ihr)
      · exact lifts_ofBranch (lifts_shortCircuit ihl ihr)
      · split
        · next opcode hop =>
            exact lifts_ofValue fun want h => lifts_bind (ihl.value want h)
              (lifts_bind (ihr.value want (h + 1)) (lifts_arithmetic hop))
        · exact lifts_ofBranch (lifts_compareBranch ihl.value ihr.value)
  | .unary _ op operand =>
      have ih := lifts_exprCode operand hs ht.2
      rw [exprCode.eq_def]
      simp only
      split
      · exact lifts_ofBranch fun want h target onTrue => ih.branch want h target (!onTrue)
      · exact lifts_ofValue fun want h => lifts_bind (ih.value want h) (lifts_applyUnary op _)
  | .increment _ op (.slot slot) used =>
      obtain rfl : used = true := hs
      exact lifts_ofValue fun want h => lifts_incrementSlot op slot true
  | .increment ty op (.field target name) used =>
      obtain ⟨rfl, hs⟩ := hs
      have ih := lifts_exprCode target hs ht.2
      exact lifts_ofValue fun want h => lifts_incrementField op ty name true (ih.value want h)
  | .call ty name args =>
      have hvoid : (ty != .void) = true := bne_iff_ne.mpr ht.1
      refine lifts_ofValue fun want h => lifts_bind (lifts_argsCode args hs ht.2 want h) ?_
      rw [hvoid]
      exact lifts_invoke name args.length true
  | .error _ => exact hs.elim
termination_by structural e

theorem lifts_argsCode (es : List Expr) (hs : Expr.AllSound es) (ht : Expr.AllTypes (· ≠ .void) es)
    (want : Label → Nat → Prop) (h : Nat) : (argsCode es).Lifts code want h (h + es.length) := by
  match es with
  | [] => exact lifts_pure
  | e :: rest =>
      have hrest := lifts_argsCode rest hs.2 ht.2 want (h + 1)
      rw [List.length_cons, Nat.add_comm rest.length 1, ← Nat.add_assoc]
      exact lifts_bind ((lifts_exprCode e hs.1 ht.1).value want h) hrest
termination_by structural es

end

theorem types_ty {P : Ty → Prop} {e : Expr} (ht : e.Types P) : P e.ty := by
  match e with
  | .int .. | .long .. | .double .. | .bool .. | .null _ | .slot .. | .new .. | .error _
  | .increment _ _ (.slot _) _ => exact ht
  | .field .. | .widen .. | .binary .. | .unary .. | .call .. | .assign _ (.slot _) _ _
  | .assign _ (.field _ _) _ _ | .increment _ _ (.field _ _) _ => exact ht.1

theorem lifts_value {e : Expr} (hs : e.Sound true) (ht : e.Types (· ≠ .void))
    (hleaves : Typing.leavesValue e = (e.ty != .void)) :
    (value e).Lifts code want h (if Typing.leavesValue e then h + 1 else h) := by
  have hvoid : e.ty ≠ .void := types_ty ht
  rw [hleaves, bne_iff_ne.mpr hvoid]
  exact (lifts_exprCode e hs ht).value want h

/-- An expression that is a statement leaves a value only if there is one to drop. -/
theorem lifts_unused {e : Expr} (hs : e.Sound false)
    (ht : e.Types (· ≠ .void) ∨ ∃ name args, e = .call .void name args ∧
      Expr.AllTypes (· ≠ .void) args) :
    (value e).Lifts code want h (if Typing.leavesValue e then h + 1 else h) := by
  obtain ht | ⟨name, args, rfl, ht⟩ := ht
  · match e with
    | .int .. | .long .. | .double .. | .bool .. | .null _ | .slot .. | .field .. | .widen .. | .new ..
    | .binary .. | .unary .. | .call .. =>
        exact lifts_value hs ht rfl
    | .assign _ (.slot slot) value used =>
        obtain ⟨rfl, hs⟩ := hs
        exact lifts_assignSlot slot false ((lifts_exprCode value hs ht.2).value want h)
    | .assign _ (.field target name) value used =>
        obtain ⟨rfl, hst, hsv⟩ := hs
        obtain ⟨-, htt, htv⟩ := ht
        exact lifts_assignField name false ((lifts_exprCode target hst htt).value want h)
          ((lifts_exprCode value hsv htv).value want (h + 1))
    | .increment _ op (.slot slot) used =>
        obtain rfl : used = false := hs
        exact lifts_incrementSlot op slot false
    | .increment ty op (.field target name) used =>
        obtain ⟨rfl, hs⟩ := hs
        exact lifts_incrementField op ty name false ((lifts_exprCode target hs ht.2).value want h)
    | .error _ => exact hs.elim
  · exact lifts_bind (lifts_argsCode args hs ht want h) (lifts_invoke name args.length false)

end MethodCompiler.Lowering
