import MethodCompiler.Proofs.StructuredRuns

/-!
# Runs of the code of tries

The block of a try is guarded by its clauses and by the handler of its finally body, and
its clauses by that handler alone. An object in flight goes to the first clause that takes
it, which is what the tree says too. If none does it goes on to the handler, which keeps
it in a slot, runs a copy of the finally body and throws it again.

When the block or a clause has run to its end, the run stands at another copy of the
finally body and behind it at the jump to the end of the try. When it is left by a jump,
the run stands at the copies that come with the jump, of which the first is the one of
this try. So the finally body runs once on each way out.
-/

namespace MethodCompiler.Simulation

open Annotated (Stmt)
open Lowering hiding stmt stmts groups catches catching
open Interpretation Machine

variable {σ : Type} {host : Host σ} {code : Code} {rounds : Nat}

/-! ## Where the parts of a try stand -/

/-- Catch clauses stand somewhere. What their bodies throw is caught by `own` first. -/
structure StandingClauses (code : Code) (own around : List Guard) (done : Label) (pc : Nat)
    (clauses : List (Clause Piece)) : Prop where
  laid : Laid code pc (layOutClauses done clauses)
  covered : ForSites (fun q s => Covered code q s.guards) pc (clauseSites own around done clauses)

/-- A catch clause stands at `pc`: the store of the caught object, the body, the copy of the
finally body and the jump to the end of the try. -/
structure StandingClause (code : Code) (own around : List Guard) (done : Label) (pc : Nat)
    (c : Clause Piece) : Prop where
  start : code.position c.stretch.1 = some pc
  store : code.instructions[pc]? = some ⟨.store, some (.slot c.slot)⟩
  body : Standing code (own ++ around) (pc + 1) c.body
  exit : Standing code around (pc + 1 + size (layOut c.body))
    (c.exit ++ [.give (.emit ⟨.goto, some (.label done)⟩)])

theorem standing_clauses_cons {own around : List Guard} {done : Label} {pc : Nat}
    {c : Clause Piece} {rest : List (Clause Piece)}
    (h : StandingClauses code own around done pc (c :: rest)) :
    StandingClause code own around done pc c ∧ StandingClauses code own around done
      (pc + 1 + size (layOut c.body) + size (layOut c.exit) + 1) rest := by
  obtain ⟨hlaid, hcov⟩ := h
  have hl := laid_clause hlaid
  simp only [clauseSites, forSites_append, forSites_cons, List.length_append, List.length_cons,
    List.length_nil, length_sites, Nat.zero_add, ← Nat.add_assoc] at hcov
  obtain ⟨⟨⟨⟨⟨-, -⟩, hbody⟩, hexit⟩, ⟨hleave, -⟩⟩, hrest⟩ := hcov
  refine ⟨⟨hl.start, hl.store, ⟨hl.laid_body, hbody⟩, ?_⟩, ⟨hl.laid_rest, hrest⟩⟩
  rw [standing_append, standing_emit]
  exact ⟨⟨hl.laid_exit, hexit⟩, ⟨hl.leave, hleave⟩, standing_nil⟩

/-- The handler of a finally body stands at `pc`. -/
structure StandingRescue (code : Code) (around : List Guard) (pc : Nat) (r : Rescue Piece) :
    Prop where
  handler : code.position r.handler = some pc
  store : code.instructions[pc]? = some ⟨.store, some (.slot r.slot)⟩
  body : Standing code around (pc + 1)
    (r.body ++ [.give (.emit ⟨.load, some (.slot r.slot)⟩), .give (.emit ⟨.throw, none⟩)])

/-- A try stands between `pc` and `next`. -/
structure StandingTry (code : Code) (around : List Guard) (pc next : Nat) (t : TryFrame)
    (block exit : List Piece) (clauses : List (Clause Piece)) (rescue : Option (Rescue Piece)) :
    Prop where
  standing_block : Standing code (blockGuard clauses rescue :: around) pc block
  standing_exit : Standing code around (pc + size (layOut block))
    (exit ++ [.give (.emit ⟨.goto, some (.label t.done)⟩)])
  standing_clauses : StandingClauses code (clauseGuards rescue) around t.done
    (pc + size (layOut block) + size (layOut exit) + 1) clauses
  standing_rescue : ∀ r ∈ rescue, StandingRescue code around
    (pc + size (layOut block) + size (layOut exit) + 1 + size (layOutClauses t.done clauses)) r
  done : code.position t.done = some next

theorem standing_tryCatch {around : List Guard} {pc : Nat} {t : TryFrame} {block exit : List Piece}
    {clauses : List (Clause Piece)} {rescue : Option (Rescue Piece)}
    (h : Standing code around pc [.tryCatch t block exit clauses rescue]) :
    StandingTry code around pc
      (pc + size (layOut [.tryCatch t block exit clauses rescue])) t block exit clauses rescue := by
  obtain ⟨hlaid, hcov⟩ := h
  have hds : layOut [.tryCatch t block exit clauses rescue] =
      (Piece.tryCatch t block exit clauses rescue).directives := by simp [layOut]
  have hss : sites around [.tryCatch t block exit clauses rescue] =
      (Piece.tryCatch t block exit clauses rescue).sites around := by simp [sites]
  rw [hds] at hlaid ⊢
  rw [hss, sites_tryCatch] at hcov
  obtain ⟨catches, hl⟩ := laid_tryCatch hlaid
  simp only [forSites_append, forSites_cons, List.length_append, List.length_cons,
    List.length_nil, length_sites, length_clauseSites, Nat.zero_add, ← Nat.add_assoc] at hcov
  obtain ⟨⟨⟨⟨hblock, hexit⟩, hleave, -⟩, hclauses⟩, hrescue⟩ := hcov
  obtain rfl := hl.catches_eq
  refine ⟨⟨hl.laid_block, hblock⟩, ?_, ⟨hl.laid_clauses, hclauses⟩, ?_, ?_⟩
  · rw [standing_append, standing_emit]
    exact ⟨⟨hl.laid_exit, hexit⟩, ⟨hl.leave, hleave⟩, standing_nil⟩
  · rintro r ⟨⟩
    have hr := hl.laid_rescue r rfl
    simp only [forSites_append, forSites_cons, List.length_append, List.length_cons,
      List.length_nil, length_sites, Nat.zero_add, ← Nat.add_assoc] at hrescue
    obtain ⟨⟨-, hbody⟩, hload, hthrow, -⟩ := hrescue
    refine ⟨hr.handler, hr.store, ?_⟩
    rw [standing_append, standing_emit, standing_emit]
    exact ⟨⟨hr.laid, hbody⟩, ⟨hr.load, hload⟩, ⟨hr.throw, hthrow⟩, standing_nil⟩
  · rw [hl.done, size_tryCatch]
    congr 1
    omega

/-! ## Objects in flight -/

/-- The first guard takes an object of its class. -/
theorem reaches_of_taken {g : Option String × Label} {gs : Guard} {v : Value} {className : String}
    {m : Machine σ} {c : Nat × Machine σ} {pc : Nat}
    (h : Comes host code c (flight code (g :: gs) v className m))
    (htakes : takes m className g.1) (hg : code.position g.2 = some pc) :
    Reaches host code c (pc, m.on [v]) := by
  rw [flight, List.find?_cons, htakes] at h
  simp only [Code.offset_eq hg] at h
  exact h.onward.to_reflTransGen

theorem comes_of_passed {g : Option String × Label} {gs : Guard} {v : Value} {className : String}
    {m : Machine σ} {c : Nat × Machine σ}
    (h : Comes host code c (flight code (g :: gs) v className m))
    (htakes : takes m className g.1 = false) :
    Comes host code c (flight code gs v className m) := by
  rw [flight, List.find?_cons, htakes] at h
  exact h

theorem Ends.catching {gs gs' : Guard} {c : Nat × Machine σ} {block : Eval σ Flow}
    {handle : Value → String → Eval σ Flow} {m : Machine σ} {K : Flow → Machine σ → Prop}
    (hblock : Ends host code rounds gs c (block m) K)
    (hhandle : ∀ v className m' S, m'.classOf? v = some className →
      Comes host code c (flight code gs v className (m'.on S)) →
        Ends host code rounds gs' c (handle v className m') K) :
    Ends host code rounds gs' c (Eval.catching block handle m) K := by
  rw [Eval.catching]
  cases hb : block m with
  | raised v className m' =>
      rw [hb] at hblock
      obtain ⟨hclass, S, hcomes⟩ := hblock
      exact hhandle v className m' S hclass hcomes
  | done _ _ | stopped _ _ | exhausted =>
      rw [hb] at hblock
      exact hblock

theorem Ends.withFinally {gs gs' : Guard} {c : Nat × Machine σ} {block body : Eval σ Flow}
    {slot : Nat} {m : Machine σ} {K K' : Flow → Machine σ → Prop}
    (hblock : Ends host code rounds gs c (block m) K)
    (hdone : ∀ flow m', K flow m' →
      Ends host code rounds gs' c (Eval.andThen body (pure flow) m') K')
    (hraised : ∀ v className m' S, Comes host code c (flight code gs v className (m'.on S)) →
      Ends host code rounds gs' c ((do
        Eval.store slot v
        Eval.andThen body do Eval.throwValue (← Eval.load slot) : Eval σ Flow) m') K') :
    Ends host code rounds gs' c (Eval.withFinally block slot body m) K' := by
  rw [Eval.withFinally]
  cases hb : block m with
  | done flow m' =>
      rw [hb] at hblock
      exact hdone flow m' hblock
  | raised v className m' =>
      rw [hb] at hblock
      obtain ⟨-, S, hcomes⟩ := hblock
      exact hraised v className m' S hcomes
  | stopped _ _ | exhausted =>
      rw [hb] at hblock
      exact hblock

/-- A store throws nothing, so it does not matter what guards it. -/
theorem ends_store {pc slot : Nat} {gs : Guard}
    (hat : code.instructions[pc]? = some ⟨.store, some (.slot slot)⟩) (v : Value)
    (m : Machine σ) :
    Ends host code rounds gs (pc, m.on [v]) (Eval.store slot v m) fun _ m' =>
      Reaches host code (pc, m.on [v]) (pc + 1, m'.on []) := by
  by_cases hlt : slot < m.locals.size
  · have hstore : Eval.store slot v m =
        .done () { m with locals := m.locals.setIfInBounds slot v } := by
      rw [Eval.store, if_pos hlt]
    rw [hstore]
    exact .single ((does_store host code slot v).onward hat m hstore [])
  · have hturn : (m.on [v]).advance host code pc =
        .ended (.stopped (.defect (.outOfBounds m.locals.size slot))) (m.on []) := by
      have hstep := step_store host code slot v m []
      rw [List.append_nil, if_neg hlt] at hstep
      rw [advance, hat]
      simp only [hstep]
    rw [Eval.store, if_neg hlt]
    exact ⟨[], .here hturn⟩

theorem throwValue_of_ne {α : Type} {v : Value} (hv : v ≠ .null) (m : Machine σ) :
    (Eval.throwValue v m : Result σ α) =
      match m.classOf? v with
      | some className => .raised v className m
      | none => .stopped (.cannotThrow v) m := by
  cases v with
  | null => exact (hv rfl).elim
  | int _ | long _ | double _ | ref _ => rfl

/-- What is thrown goes where it is caught. Only an object can be. -/
theorem ends_throw {α : Type} {pc : Nat} {gs : Guard} {K : α → Machine σ → Prop}
    (hat : code.instructions[pc]? = some ⟨.throw, none⟩) (hcov : Covered code pc gs) (v : Value)
    (m : Machine σ) (S : List Value) :
    Ends host code rounds gs (pc, m.on (v :: S)) (Eval.throwValue v m : Result σ α) K := by
  by_cases hv : v = .null
  · subst hv
    have hnew : Does host code ⟨.throw, none⟩ [.null]
        (Eval.raiseNew "NullPointerException" : Eval σ α) fun _ => [] :=
      fun m S => agrees_raiseNew _ m S _
    exact (hnew.ends hat hcov m S : Ends host code rounds gs _ _ _)
  · have hstep : (m.on (v :: S)).step host code ⟨.throw, none⟩ = .raise v (m.on S) := by
      cases v with
      | null => exact (hv rfl).elim
      | int _ | long _ | double _ | ref _ => rfl
    rw [throwValue_of_ne hv]
    cases hclass : m.classOf? v with
    | some className =>
        refine ⟨hclass, S, .here ?_⟩
        simp only [advance, hat, hstep]
        exact unwind_covered hcov hclass
    | none =>
        refine ⟨S, .here ?_⟩
        simp only [advance, hat, hstep, unwind, classOf?_on, hclass]

theorem runs_throw {α : Type} (v : Value) (leave : α → List Value) :
    Runs host code rounds (Gen.emit .throw) [v] (Eval.throwValue v : Eval σ α) leave := by
  intro n n' u ps hy around pc hps m S
  obtain ⟨rfl, -⟩ := Gen.yields_emit.mp hy
  obtain ⟨⟨hat, hcov⟩, -⟩ := standing_emit.mp hps
  exact ends_throw hat hcov v m S

/-- Nothing follows a throw. -/
theorem throwValue_bind {α β : Type} (v : Value) (f : α → Eval σ β) :
    (Eval.throwValue v >>= f) = (Eval.throwValue v : Eval σ β) := by
  funext m
  by_cases hv : v = .null
  · subst hv
    rfl
  · simp only [bind, throwValue_of_ne hv]
    cases m.classOf? v <;> rfl

/-! ## Tries -/

variable {C : Context}

/-- Code that runs into a jump ends where the jump leads. -/
theorem ends_into_goto {x : Gen Unit} {e : Eval σ Flow} (h : Follows host code rounds C x e)
    {n n' : Nat} {ps : List Piece} (hy : x.Yields n () ps n') {pc next : Nat} {l : Label}
    (hps : Standing code C.guards pc (ps ++ [.give (.emit ⟨.goto, some (.label l)⟩)]))
    (hl : code.position l = some next) (m : Machine σ) :
    Ends host code rounds C.guards.flatten (pc, m.on []) (e m)
      (Goes host code C next (pc, m.on [])) := by
  obtain ⟨hsp, hsj⟩ := standing_append.mp hps
  obtain ⟨⟨hat, -⟩, -⟩ := standing_emit.mp hsj
  exact (h hy hsp m).imp fun flow m' hg => hg.goto hat hl

/-- A run from `c` has come to the end of the block or of a clause of a try, and stands
before the copy of the finally body, or else at the code of a jump. -/
def Tried (host : Host σ) (code : Code) (C : Context) (exit : Nat → Prop) (c : Nat × Machine σ) :
    Flow → Machine σ → Prop
  | .normal, m => ∃ q, exit q ∧ Reaches host code c (q, m.on [])
  | flow, m => Jumps host code C c flow m

/-- The clauses of a try, guarded as `C` says, do with an object in flight what the tree
says. -/
def Handles (host : Host σ) (code : Code) (rounds : Nat) (C : Context) (exit : Nat → Prop)
    (clauses : List (Clause Piece)) (handle : Value → String → Eval σ Flow) : Prop :=
  ∀ (c : Nat × Machine σ) (v : Value) (className : String) (m : Machine σ) (S : List Value),
    m.classOf? v = some className →
    Comes host code c (flight code
      (clauses.map (fun c => (some c.exceptionType, c.stretch.1)) ++ C.guards.flatten)
      v className (m.on S)) →
    Ends host code rounds C.guards.flatten c (handle v className m) (Tried host code C exit c)

theorem handles_nil {exit : Nat → Prop} :
    Handles host code rounds C exit [] fun v className m => .raised v className m :=
  fun _ _ _ _ S hclass hcomes => ⟨hclass, S, hcomes⟩

/-- An object goes to the first clause or past it. -/
theorem handles_cons {own around : List Guard} {done : Label} {pc : Nat} {c : Clause Piece}
    {rest : List (Clause Piece)} {exit : Nat → Prop} {x : Gen Unit} {n n' : Nat}
    {body : Eval σ Flow} {handle : Value → String → Eval σ Flow}
    (hguards : C.guards = own ++ around) (hc : StandingClause code own around done pc c)
    (hy : x.Yields n () c.body n') (hbody : Follows host code rounds C x body)
    (hexit : exit (pc + 1 + size (layOut c.body)))
    (hrest : Handles host code rounds C exit rest handle) :
    Handles host code rounds C exit (c :: rest) fun v className m =>
      if m.classes.isSubclass className c.exceptionType then (do
        Eval.store c.slot v
        body) m
      else handle v className m := by
  intro c' v className m S hclass hcomes
  have hstanding := hc.body
  rw [← hguards] at hstanding
  rw [List.map_cons, List.cons_append] at hcomes
  simp only
  by_cases htakes : m.classes.isSubclass className c.exceptionType = true
  · rw [if_pos htakes]
    have hreach := reaches_of_taken hcomes htakes hc.start
    refine Ends.after hreach (K := fun flow m' => Tried host code C exit (pc, m.on [v]) flow m')
      ((ends_store hc.store v m).bind fun _ m' hr => ?_) ?_
    · refine (hbody hy hstanding m').after hr fun flow m'' hg => ?_
      cases flow with
      | normal => exact ⟨_, hexit, hr.trans hg⟩
      | brk id | cont id => exact Jumps.after hr hg
    · intro flow m' ht
      cases flow with
      | normal =>
          obtain ⟨q, hq, hr⟩ := ht
          exact ⟨q, hq, hreach.trans hr⟩
      | brk id | cont id => exact Jumps.after hreach ht
  · rw [if_neg htakes]
    exact hrest c' v className m S hclass (comes_of_passed hcomes (by simpa [takes] using htakes))

/-- The block of a try with its clauses, which are in the regions of `C'`. -/
theorem ends_guarded (C' : Context) {region : Region} {rescue : Option (Rescue Piece)}
    {clauses : List (Clause Piece)} {pc q : Nat} {block : Eval σ Flow}
    {handle : Value → String → Eval σ Flow} {exit : Nat → Prop} {m : Machine σ}
    (hguards : C'.guards = clauseGuards rescue ++ C.guards)
    (hblock : Ends host code rounds (C.inside region (blockGuard clauses rescue)).guards.flatten
      (pc, m.on []) (block m)
      (Goes host code (C.inside region (blockGuard clauses rescue)) q (pc, m.on [])))
    (hexit : exit q)
    (hjumps : ∀ flow m', Jumps host code (C.inside region (blockGuard clauses rescue))
      (pc, m.on []) flow m' → Jumps host code C' (pc, m.on []) flow m')
    (hhandles : Handles host code rounds C' exit clauses handle) :
    Ends host code rounds C'.guards.flatten (pc, m.on []) (Eval.catching block handle m)
      (Tried host code C' exit (pc, m.on [])) := by
  have hflat : (C.inside region (blockGuard clauses rescue)).guards.flatten =
      clauses.map (fun c => (some c.exceptionType, c.stretch.1)) ++ C'.guards.flatten := by
    simp [Context.inside, hguards, blockGuard]
  rw [hflat] at hblock
  refine Ends.catching (hblock.imp fun flow m' hg => ?_) fun v className m' S hclass hcomes => ?_
  · cases flow with
    | normal => exact ⟨q, hexit, hg⟩
    | brk id | cont id => exact hjumps _ m' hg
  · exact hhandles _ v className m' S hclass hcomes

/-- A try without a finally body. -/
theorem ends_tryCatch {t : TryFrame} {block : List Piece} {clauses : List (Clause Piece)}
    {pc next : Nat} (hs : StandingTry code C.guards pc next t block [] clauses none)
    {x : Gen Unit} {n n' : Nat} (hy : x.Yields n () block n') {e : Eval σ Flow}
    (hblock : Follows host code rounds (C.inside none (blockGuard clauses none)) x e)
    {handle : Value → String → Eval σ Flow}
    (hhandles : Handles host code rounds C
      (fun q => code.instructions[q]? = some ⟨.goto, some (.label t.done)⟩) clauses handle)
    (m : Machine σ) :
    Ends host code rounds C.guards.flatten (pc, m.on []) (Eval.catching e handle m)
      (Goes host code C next (pc, m.on [])) := by
  obtain ⟨⟨hgoto, -⟩, -⟩ := standing_emit.mp hs.standing_exit
  have htried := ends_guarded C rfl (hblock hy hs.standing_block m) hgoto
    (fun flow m' ⟨hf, l, hl, T, q, hT, hq, hr⟩ =>
      ⟨hf, l, hl, T, q, hT, hq.outside C.depth_le, hr⟩) hhandles
  refine htried.imp fun flow m' ht => ?_
  cases flow with
  | normal =>
      obtain ⟨q, hq, hr⟩ := ht
      exact hr.tail (onward_goto host (m'.on []) hq hs.done)
  | brk id | cont id => exact ht

/-- The handler of a finally body keeps the object in flight, runs the body and throws the
object again. -/
theorem ends_rescue {r : Rescue Piece} {pc : Nat} (hs : StandingRescue code C.guards pc r)
    {x : Gen Unit} {n n' : Nat} (hy : x.Yields n () r.body n') {body : Eval σ Flow}
    (hbody : Follows host code rounds C x body) (v : Value) (m : Machine σ) (next : Nat) :
    Ends host code rounds C.guards.flatten (pc, m.on [v])
      ((do
        Eval.store r.slot v
        Eval.andThen body do Eval.throwValue (← Eval.load r.slot) : Eval σ Flow) m)
      (Goes host code C next (pc, m.on [v])) := by
  obtain ⟨hsb, hst⟩ := standing_append.mp hs.body
  obtain ⟨⟨hload, hcovl⟩, hst⟩ := standing_emit.mp hst
  obtain ⟨⟨hthrow, hcovt⟩, -⟩ := standing_emit.mp hst
  refine (ends_store hs.store v m).bind fun _ m' hr => ?_
  suffices hrest : Ends host code rounds C.guards.flatten (pc + 1, m'.on [])
      (Eval.andThen body (do Eval.throwValue (← Eval.load r.slot)) m')
      (Goes host code C next (pc + 1, m'.on [])) from
    hrest.after hr fun _ _ hg => hg.after hr
  refine ends_andThen (hbody hy hsb m') fun m'' => ?_
  refine ((does_load host code r.slot).ends hload hcovl m'' []).bind fun v' m₃ hstep => ?_
  exact Ends.after (.single hstep) (ends_throw hthrow hcovt v' m₃ []) fun _ _ h => h

/-- At `q` there is a copy of a finally body and then the jump to the end of its try. -/
def Exits (code : Code) (C : Context) (T : Targets) (body : List Stmt) (done : Label) (q : Nat) :
    Prop :=
  ∃ n ps n', (Lowering.stmts T C.regions body).Yields n () ps n' ∧
    Standing code C.guards q (ps ++ [.give (.emit ⟨.goto, some (.label done)⟩)])

/-- A try with a finally body. On the way out by a jump the copy that comes with the jump
runs, in whatever constructs that one was generated. -/
theorem ends_tryFinally {t : TryFrame} {block exit : List Piece} {clauses : List (Clause Piece)}
    {r : Rescue Piece} {pc next : Nat}
    (hs : StandingTry code C.guards pc next t block exit clauses (some r)) {T : Targets}
    (hT : C.Names T) {body : List Stmt} {n n' : Nat}
    (hexit : (Lowering.stmts T C.regions body).Yields n () exit n') {k k' : Nat}
    (hrescue : (Lowering.stmts T C.regions body).Yields k () r.body k') {final : Eval σ Flow}
    (hbody : ∀ T, C.Names T → Follows host code rounds C (Lowering.stmts T C.regions body) final)
    {x : Gen Unit} {l l' : Nat} (hy : x.Yields l () block l') {e : Eval σ Flow}
    (hblock : Follows host code rounds (C.inside (some body) (blockGuard clauses (some r))) x e)
    {handle : Value → String → Eval σ Flow}
    (hhandles : Handles host code rounds (C.inside (some body) [(none, r.handler)])
      (Exits code C T body t.done) clauses handle) (m : Machine σ) :
    Ends host code rounds C.guards.flatten (pc, m.on [])
      (Eval.withFinally (Eval.catching e handle) r.slot final m)
      (Goes host code C next (pc, m.on [])) := by
  have htried := ends_guarded (C.inside (some body) [(none, r.handler)]) rfl
    (hblock hy hs.standing_block m) ⟨_, exit, _, hexit, hs.standing_exit⟩
    (fun flow m' ⟨hf, l, hl, T, q, hT, hq, hr⟩ => ⟨hf, l, hl, T, q, hT, hq.guarded, hr⟩) hhandles
  have hjump : ∀ flow m', Jumps host code (C.inside (some body) [(none, r.handler)])
      (pc, m.on []) flow m' → Ends host code rounds C.guards.flatten (pc, m.on [])
        (Eval.andThen final (pure flow) m') (Goes host code C next (pc, m.on [])) := by
    rintro flow m' ⟨hf, l, hl, T', q, hT', hq, hr⟩
    obtain ⟨_, ps, _, hps, hst, hq⟩ := hq.copy C.depth_le
    have hcopy : Ends host code rounds C.guards.flatten (q, m'.on [])
        (Eval.andThen final (pure flow) m') (Goes host code C next (q, m'.on [])) :=
      ends_andThen (hbody T' hT' hps hst m') fun m'' =>
        have hleft : Jumps host code C (q + size (layOut ps), m''.on []) flow m'' :=
          ⟨hf, l, hl, T', _, hT', hq, .refl⟩
        hleft.goes next
    exact hcopy.after hr fun _ _ hg => hg.after hr
  refine Ends.withFinally htried (fun flow m' ht => ?_) fun v className m' S hcomes => ?_
  · cases flow with
    | normal =>
        obtain ⟨q, ⟨_, ps, _, hps, hst⟩, hr⟩ := ht
        have hcopy : Ends host code rounds C.guards.flatten (q, m'.on [])
            (Eval.andThen final (pure .normal) m') (Goes host code C next (q, m'.on [])) :=
          ends_andThen (ends_into_goto (hbody T hT) hps hst hs.done m') fun m'' =>
            Relation.ReflTransGen.refl
        exact hcopy.after hr fun _ _ hg => hg.after hr
    | brk id | cont id => exact hjump _ m' ht
  · have hrs := hs.standing_rescue r rfl
    have hr := reaches_of_taken hcomes rfl hrs.handler
    exact (ends_rescue hrs hrescue (hbody T hT) v m' next).after hr fun _ _ hg => hg.after hr

end MethodCompiler.Simulation
