import MethodCompiler.Proofs.SwitchRuns
import MethodCompiler.Proofs.TryRuns

/-!
# Runs of whole trees

Each form of statement runs as the tree says if its parts do, and so whole trees do, by
induction on the tree. The induction is not on the code: a finally body is met there as
often as it is copied, but its copies run when its try is left, and then it is a part of
that try.
-/

namespace MethodCompiler.Simulation

open Annotated (Expr Stmt Catch Finally)
open Lowering hiding stmt stmts groups catches catching
open Interpretation Machine

variable {σ : Type} {host : Host σ} {code : Code} {rounds : Nat} {C : Context} {T : Targets}

/-! ## Statements without parts -/

theorem runs_discard {x : Gen Unit} {e : Eval σ Value} {wanted : Bool}
    (h : Runs host code rounds x [] e fun v => if wanted then [v] else []) :
    Runs host code rounds (do
      x
      Gen.emitIf wanted ⟨.pop, none⟩) [] e fun _ => [] := by
  have hpop (v : Value) : Runs host code rounds (Gen.emitIf wanted ⟨.pop, none⟩)
      (if wanted then [v] else []) (pure v : Eval σ Value) fun _ => [] := by
    cases wanted
    · exact runs_pure v rfl
    · have hdoes : Does host code ⟨.pop, none⟩ [v] (pure v : Eval σ Value) fun _ => [] :=
        fun _ _ => rfl
      exact hdoes.runs rfl
  have hall : Runs host code rounds (x >>= fun _ => Gen.emitIf wanted ⟨.pop, none⟩) []
      (e >>= fun v => pure v) fun _ => [] := runs_bind h hpop
  rwa [bind_pure e] at hall

/-- A jump is over in the tree where the code has yet to leave the regions around it. -/
theorem jumps_of_crossed {flow : Flow} {l : Label} {f : Frame} (hf : f ∈ C.inner)
    (hallows : Allows f flow) (hT : C.Names T) (hl : exitLabel C.dest flow = some l) {n n' : Nat}
    {ps : List Piece} (hy : (crossed T C.dest.depth C.regions).Yields n () ps n') {pc : Nat}
    (hps : Standing code C.guards pc (ps ++ [.give (.emit ⟨.goto, some (.label l)⟩)]))
    (m : Machine σ) : Jumps host code C (pc, m.on []) flow m := by
  obtain ⟨hsp, hsj⟩ := standing_append.mp hps
  obtain ⟨⟨hat, -⟩, -⟩ := standing_emit.mp hsj
  have hleaving : Leaving code T l C.dest.depth C.regions C.guards pc :=
    leaving_of_crossed [] hy C.length_guards hsp hat
  exact ⟨⟨f, hf, hallows⟩, l, hl, T, pc, hT, hleaving, .refl⟩

theorem follows_breakJump (hT : C.Names T) {id lo hi : Nat}
    (hs : (Stmt.breakJump id).Sound C.inner lo hi) :
    Follows host code rounds C (Lowering.stmt T C.regions (.breakJump id))
      (pure (.brk id) : Eval σ Flow) := by
  obtain ⟨⟨f, hf, rfl, hb⟩, -⟩ := hs
  intro n n' u ps hy pc hps m
  obtain ⟨t, jump, ht, hjump, rfl⟩ := yields_breakJump hy
  obtain rfl : t = C.dest := Option.some.inj (ht.symm.trans (hT f hf))
  have hallows : Allows f (.brk f.id) := ⟨rfl, hb⟩
  exact jumps_of_crossed hf hallows hT rfl hjump (standing_statement.mp hps) m

theorem follows_continueJump (hT : C.Names T) {id lo hi : Nat}
    (hs : (Stmt.continueJump id).Sound C.inner lo hi) :
    Follows host code rounds C (Lowering.stmt T C.regions (.continueJump id))
      (pure (.cont id) : Eval σ Flow) := by
  obtain ⟨⟨f, hf, rfl, hc⟩, -⟩ := hs
  intro n n' u ps hy pc hps m
  obtain ⟨t, l, jump, ht, hl, hjump, rfl⟩ := yields_continueJump hy
  obtain rfl : t = C.dest := Option.some.inj (ht.symm.trans (hT f hf))
  have hallows : Allows f (.cont f.id) := ⟨rfl, hc⟩
  exact jumps_of_crossed hf hallows hT hl hjump (standing_statement.mp hps) m

/-! ## Conditions -/

section Conditions

variable {c : Expr} {s t : Stmt}

theorem follows_ifThen (hc : Means host code rounds (exprCode c) (expr tested host c))
    (hs : Follows host code rounds C (Lowering.stmt T C.regions s) (stmt tested host rounds s)) :
    Follows host code rounds C (Lowering.stmt T C.regions (.ifElse c s none))
      (stmt tested host rounds (.ifElse c s none)) := by
  intro n n' u ps hy pc hps m
  obtain ⟨test, k, body, htest, hbody, rfl⟩ := yields_ifThen hy
  simp only [standing_statement, standing_append, standing_create, standing_place, standing_nil,
    layOut_append, layOut_cons_give, layOut_nil, size_append, size_cons, size_nil,
    Directive.width_create, true_and, and_true, Nat.zero_add, Nat.add_zero, ← Nat.add_assoc] at hps
  obtain ⟨⟨hst, hsb⟩, hout⟩ := hps
  have hsize : size (layOut [.statement ([.give (.create n)] ++ test ++ body ++
      [.give (.place n)])]) = size (layOut test) + size (layOut body) := by
    simp [layOut_append]
  rw [hsize, ← Nat.add_assoc, stmt]
  refine (hc.branch n false htest hst hout m []).bind fun truth m' hl => ?_
  cases truth with
  | false => exact (hl.jumps rfl).to_reflTransGen
  | true => exact (hs hbody hsb m').after (hl.goesOn rfl) fun _ _ h => h.after (hl.goesOn rfl)

theorem follows_ifElse (hc : Means host code rounds (exprCode c) (expr tested host c))
    (hs : Follows host code rounds C (Lowering.stmt T C.regions s) (stmt tested host rounds s))
    (ht : Follows host code rounds C (Lowering.stmt T C.regions t) (stmt tested host rounds t)) :
    Follows host code rounds C (Lowering.stmt T C.regions (.ifElse c s (some t)))
      (stmt tested host rounds (.ifElse c s (some t))) := by
  intro n n' u ps hy pc hps m
  obtain ⟨test, k, body, k', other, htest, hbody, hother, rfl⟩ := yields_ifElse hy
  simp only [ifElsePieces, standing_statement, standing_append, standing_create, standing_place,
    standing_emit, standing_nil, layOut_append, layOut_cons_give, layOut_nil, size_append, size_cons,
    size_nil, Directive.width_create, Directive.width_emit, Directive.width_place, true_and,
    and_true, Nat.zero_add, Nat.add_zero, ← Nat.add_assoc] at hps
  obtain ⟨⟨⟨⟨hst, hsb⟩, ⟨hgoto, -⟩, hotherwise⟩, hso⟩, hdone⟩ := hps
  have hsize : size (layOut (ifElsePieces n k' test body other)) =
      size (layOut test) + size (layOut body) + 1 + size (layOut other) := by
    simp [ifElsePieces, layOut_append, Nat.add_assoc, Nat.add_comm 1]
  simp only [hsize, ← Nat.add_assoc, stmt]
  refine (hc.branch n false htest hst hotherwise m []).bind fun truth m' hl => ?_
  cases truth with
  | false =>
      have hr := (hl.jumps rfl).to_reflTransGen
      exact (ht hother hso m').after hr fun _ _ h => h.after hr
  | true =>
      have hr := hl.goesOn rfl
      exact (hs hbody hsb m').after hr fun _ _ h => (h.goto hgoto hdone).after hr

theorem tests_branchUnless {c : Option Expr}
    (hc : ∀ e ∈ c, Means host code rounds (exprCode e) (expr tested host e)) (target : Label) :
    Tests host code rounds (branchUnless c target) target false (holds tested host c) := by
  cases c with
  | some e => exact (hc e rfl).branch target false
  | none =>
      intro n n' u ps hy around pc _ dest _ m S
      obtain ⟨-, rfl, -⟩ := Gen.yields_pure.mp hy
      exact ⟨nofun, fun _ => .refl⟩

end Conditions

/-! ## Loops -/

section Loops

variable {j : Annotated.Jumps} {c : Expr} {body : Stmt}

theorem follows_doLoop (hc : Means host code rounds (exprCode c) (expr tested host c))
    (hbody : ∀ b l, Follows host code rounds (C.enter (j.frame .doLoop) b (some l))
      (Lowering.stmt ((j.id, ⟨b, some l, C.regions.length⟩) :: T) C.regions body)
      (stmt tested host rounds body)) :
    Follows host code rounds C (Lowering.stmt T C.regions (.doLoop j body c))
      (stmt tested host rounds (.doLoop j body c)) := by
  intro n n' u ps hy pc hps m
  obtain ⟨-, round, k, test, hround, htest, rfl⟩ := yields_doLoop hy
  simp only [doPieces, standing_statement, standing_append, standing_created, standing_place,
    standing_placedIf, standing_nil, layOut_append, layOut_cons_give, layOut_nil, size_append,
    size_cons, size_nil, size_created, size_placedIf, Directive.width_place,
    true_and, and_true, Nat.zero_add, Nat.add_zero, ← Nat.add_assoc] at hps
  obtain ⟨⟨⟨⟨hstart, hsb⟩, hcontinue⟩, hst⟩, hbreak⟩ := hps
  have hsize : size (layOut (doPieces j n round test)) =
      size (layOut round) + size (layOut test) := by
    simp [doPieces, layOut_append]
  simp only [hsize, ← Nat.add_assoc, stmt]
  refine ends_loop (fun m => ?_) (Nat.le_refl _) m
  refine (hbody _ _ hround hsb m).bind fun flow m₁ hg => ?_
  obtain ⟨hleaves, hr⟩ | ⟨hleaves, hr⟩ := hg.leaves hbreak hcontinue
  · rw [hleaves]
    refine ((hc.branch n true htest hst hstart m₁ []).after hr fun _ _ h => h.after hr).bind
      fun truth m₂ hl => ?_
    cases truth with
    | false => exact hl.goesOn rfl
    | true => exact hl.jumps rfl
  · rw [hleaves]
    exact hr

/-- The last part of a for loop is generated inside the loop, but its jumps are those of a
statement outside. -/
theorem follows_forLoop {init update : List Stmt} {c : Option Expr} (kind : ConstructKind)
    (hT : C.Names T)
    (hinit : Follows host code rounds C (Lowering.stmts T C.regions init)
      (stmts tested host rounds init))
    (hc : ∀ e ∈ c, Means host code rounds (exprCode e) (expr tested host e))
    (hupdate : ∀ T, C.Names T → Follows host code rounds C (Lowering.stmts T C.regions update)
      (stmts tested host rounds update))
    (hbody : ∀ b l, Follows host code rounds (C.enter (j.frame kind) b (some l))
      (Lowering.stmt ((j.id, ⟨b, some l, C.regions.length⟩) :: T) C.regions body)
      (stmt tested host rounds body)) :
    Follows host code rounds C (Lowering.stmt T C.regions (.forLoop j init c update body))
      (stmt tested host rounds (.forLoop j init c update body)) := by
  intro n n' u ps hy pc hps m
  obtain ⟨hid, first, k, test, k', round, k'', last, hfirst, htest, hround, hlast, rfl⟩ :=
    yields_forLoop hy
  simp only [forPieces, standing_statement, standing_append, standing_created, standing_place,
    standing_emit, standing_placedIf, standing_nil, layOut_append, layOut_cons_give, layOut_nil,
    size_append, size_cons, size_nil, size_created, size_placedIf, Directive.width_emit,
    Directive.width_place, and_true, Nat.add_zero, ← Nat.add_assoc] at hps
  obtain ⟨⟨⟨⟨⟨⟨⟨⟨hsf, hstart⟩, hst⟩, hsb⟩, hcontinue⟩, hsl⟩, ⟨hgoto, -⟩⟩, hbreak⟩, hout⟩ := hps
  have hsize : size (layOut (forPieces j k first test round last)) =
      size (layOut first) + size (layOut test) + size (layOut round) + size (layOut last) + 1 := by
    simp [forPieces, layOut_append, Nat.add_assoc]
  simp only [hsize, ← Nat.add_assoc, stmt]
  refine ends_andThen (hinit hfirst hsf m) fun m => ends_loop (fun m => ?_) (Nat.le_refl _) m
  refine (tests_branchUnless hc (k + 1) htest hst hout m []).bind fun truth m₁ hl => ?_
  cases truth with
  | false => exact (hl.jumps rfl).to_reflTransGen
  | true =>
      have hr := hl.goesOn rfl
      refine ((hbody _ _ hround hsb m₁).after hr fun _ _ h => h.after hr).bind fun flow m₂ hg => ?_
      obtain ⟨hleaves, hr⟩ | ⟨hleaves, hr⟩ := hg.leaves hbreak hcontinue
      · rw [hleaves]
        refine ((hupdate _ (hT.cons hid _) hlast hsl m₂).after hr fun _ _ h => h.after hr).bind
          fun flow m₃ hg => ?_
        cases flow with
        | normal => exact .tail' hg (onward_goto host (m₃.on []) hgoto hstart)
        | brk id | cont id => exact hg
      · rw [hleaves]
        exact hr

/-- A while loop is generated as a for loop without first and last part. -/
theorem lowering_whileLoop : Lowering.stmt T C.regions (.whileLoop j c body) =
    Lowering.stmt T C.regions (.forLoop j [] (some c) [] body) := by
  have hpure : ∀ {α : Type} (x : Gen α), (pure () >>= fun _ => x) = x := by
    intro α x
    funext n
    simp only [bind, pure]
    cases x n <;> rfl
  rw [Lowering.stmt, Lowering.stmt]
  simp only [Lowering.stmts, hpure, branchUnless]

/-- A while loop runs as a for loop without first and last part. -/
theorem stmt_whileLoop : stmt tested host rounds (.whileLoop j c body) =
    stmt tested host rounds (.forLoop j [] (some c) [] body) := by
  simp only [stmt, stmts, Eval.andThen, holds, pure_bind]
  congr! with truth - flow
  cases leaves j.id flow <;> rfl

end Loops

/-! ## Trees -/

mutual

/-- A sound statement without void parts runs as the tree says, wherever it stands. -/
theorem follows_stmt (C : Context) {T : Targets} (hT : C.Names T) (s : Stmt) {lo hi : Nat}
    (hs : s.Sound C.inner lo hi) (ht : s.Types (· ≠ .void)) :
    Follows host code rounds C (Lowering.stmt T C.regions s) (stmt tested host rounds s) := by
  match s with
  | .block body =>
      rw [Lowering.stmt, stmt]
      exact follows_statement (follows_stmts C hT body hs ht)
  | .localInit slot e =>
      have hruns : Runs host code rounds (do value e; Gen.emitWith .store (.slot slot)) []
          (do Eval.store slot (← (expr tested host e).value)) fun _ => [] :=
        runs_bind (means_exprCode e hs.1 ht).value fun v => (does_store host code slot v).runs rfl
      have h := follows_statement (follows_of_runs (C := C) hruns)
      rw [Lowering.stmt, stmt]
      simpa only [bind_assoc] using h
  | .expression e discard =>
      obtain ⟨hs, rfl, -⟩ := hs
      rw [Lowering.stmt, stmt]
      exact follows_statement (follows_of_runs (runs_discard (runs_unused hs ht)))
  | .ifElse c s none =>
      exact follows_ifThen (means_exprCode c hs.1 ht.1) (follows_stmt C hT s hs.2 ht.2)
  | .ifElse c s (some t) =>
      obtain ⟨hsc, k, hss, hst⟩ := hs
      obtain ⟨htc, hts, htt⟩ := ht
      exact follows_ifElse (means_exprCode c hsc htc) (follows_stmt C hT s hss hts)
        (follows_stmt C hT t hst htt)
  | .whileLoop j c body =>
      obtain ⟨hsc, -, hsb⟩ := hs
      have hnone : ∀ T, C.Names T → Follows host code rounds C (Lowering.stmts T C.regions [])
          (stmts tested host rounds []) := by
        intro T hT
        rw [Lowering.stmts, stmts]
        exact follows_pure
      rw [lowering_whileLoop, stmt_whileLoop]
      refine follows_forLoop .whileLoop hT (hnone T hT) (fun e he => ?_) hnone fun b l => ?_
      · obtain rfl := Option.some.inj he
        exact means_exprCode c hsc ht.1
      exact follows_stmt (C.enter (j.frame .whileLoop) b (some l))
        (C.names_enter T (j.frame .whileLoop) b (some l)) body hsb ht.2
  | .doLoop j body c =>
      obtain ⟨hsc, -, hsb⟩ := hs
      refine follows_doLoop (means_exprCode c hsc ht.1) fun b l => ?_
      exact follows_stmt (C.enter (j.frame .doLoop) b (some l))
        (C.names_enter T (j.frame .doLoop) b (some l)) body hsb ht.2
  | .forLoop j init c update body =>
      obtain ⟨hsc, k, hsi, hsu, hsb⟩ := hs
      obtain ⟨htc, hti, htu, htb⟩ := ht
      refine follows_forLoop .forLoop hT (follows_stmts C hT init hsi hti)
        (fun e he => means_exprCode e (hsc e he) (htc e he))
        (fun T hT => follows_stmts C hT update hsu htu) fun b l => ?_
      exact follows_stmt (C.enter (j.frame .forLoop) b (some l))
        (C.names_enter T (j.frame .forLoop) b (some l)) body hsb htb
  | .switch id hasBreak e bodies d =>
      obtain ⟨hse, hd, rfl, hsg⟩ := hs
      intro n n' u ps hy pc hps m
      obtain ⟨-, -, key, k, codes, hkey, hcodes, rfl⟩ := yields_switch hy
      obtain ⟨i, hi⟩ := instruction_dispatch d (k + 1) (numbered (k + 2) d.cases)
      have hwidth : (dispatchDirective d (k + 1) (numbered (k + 2) d.cases)).width = 1 := by
        simp [Directive.width, hi]
      simp only [switchPieces, standing_statement, standing_append, standing_created,
        standing_instruction hi, standing_placedIf, standing_nil, layOut_append, layOut_cons_give,
        layOut_nil, size_append, size_cons, size_nil, size_created, size_placedIf, hwidth, and_true,
        Nat.add_zero, ← Nat.add_assoc] at hps
      obtain ⟨⟨⟨⟨hsk, ⟨hat, -⟩⟩, hsc⟩, hdefault⟩, hbreak⟩ := hps
      have hsize : size (layOut (switchPieces d hasBreak k key codes)) =
          size (layOut key) + 1 + size (layOut codes) := by
        simp [switchPieces, layOut_append, hwidth, Nat.add_assoc]
      have hgroups := runs_groups (C.enter (.switch ⟨id, hasBreak⟩) k none)
        (C.names_enter T (.switch ⟨id, hasBreak⟩) k none) bodies hsg ht.2 hcodes hsc
      rw [hsize, stmt]
      simp only [← Nat.add_assoc]
      exact ends_switch hd ((means_exprCode e hse ht.1).value hkey hsk m []) hi hat hgroups
        hdefault hbreak
  | .tryCatch guarded clauses none =>
      obtain ⟨k, hsg, hsc⟩ := hs
      intro n n' u ps hy pc hps m
      obtain ⟨block, l, codes, hblock, hcodes, rfl⟩ := yields_tryCatch hy
      have hst := standing_tryCatch (standing_statement.mp hps)
      have hhandles : Handles host code rounds C
          (fun q => code.instructions[q]? = some ⟨.goto, some (.label (n + 2))⟩) codes
          (catches tested host rounds clauses) := by
        refine handles_clauses C hT none rfl rfl (fun _ _ _ q hcopy hq => ?_) clauses hsc
          ht.2 hcodes hst.standing_clauses
        obtain ⟨rfl, -⟩ := yields_finallyCopy_none hcopy
        exact (standing_emit.mp hq).1.1
      have hinside := follows_stmts (C.inside none (blockGuard codes none)) hT guarded hsg ht.1
      rw [stmt, layOut_cons_statement, layOut_nil, List.append_nil]
      exact ends_tryCatch hst hblock hinside hhandles m
  | .tryCatch guarded clauses (some ⟨slot, body⟩) =>
      obtain ⟨k, k', hsg, hsc, hsb⟩ := hs
      obtain ⟨htg, htc, htb⟩ := ht
      intro n n' u ps hy pc hps m
      obtain ⟨block, l, exit, l', codes, r, rescue, hblock, hexit, hcodes, hrescue, rfl⟩ :=
        yields_tryFinally hy
      have hst := standing_tryCatch (standing_statement.mp hps)
      have hhandles : Handles host code rounds (C.inside (some body) [(none, r)])
          (Exits code C T body (n + 2)) codes (catches tested host rounds clauses) :=
        handles_clauses (C.inside (some body) [(none, r)]) hT (some body) rfl rfl
          (fun _ copy _ q hcopy hq => ⟨_, copy, _, yields_finallyCopy_some hcopy, hq⟩) clauses hsc
          htc hcodes hst.standing_clauses
      have hinside := follows_stmts
        (C.inside (some body) (blockGuard codes (some ⟨r, r + 1, slot, rescue⟩))) hT guarded hsg htg
      rw [stmt, layOut_cons_statement, layOut_nil, List.append_nil]
      exact ends_tryFinally hst hT hexit hrescue
        (fun T hT => follows_stmts C hT body hsb htb) hblock hinside hhandles m
  | .breakJump id => exact follows_breakJump hT hs
  | .continueJump id => exact follows_continueJump hT hs
  | .throw e =>
      have hruns : Runs host code rounds (do value e; Gen.emit .throw) []
          (do Eval.throwValue (← (expr tested host e).value) : Eval σ Unit) fun _ => [] :=
        runs_bind (means_exprCode e hs.1 ht).value fun v => runs_throw v _
      have h := follows_statement (follows_of_runs (C := C) hruns)
      rw [Lowering.stmt, stmt]
      simpa only [bind_assoc, throwValue_bind] using h
  | .empty =>
      rw [Lowering.stmt, stmt]
      exact follows_statement follows_pure
termination_by structural s

theorem follows_stmts (C : Context) {T : Targets} (hT : C.Names T) (body : List Stmt) {lo hi : Nat}
    (hs : Stmt.AllSound C.inner lo body hi) (ht : Stmt.AllTypes (· ≠ .void) body) :
    Follows host code rounds C (Lowering.stmts T C.regions body)
      (stmts tested host rounds body) := by
  match body with
  | [] =>
      rw [Lowering.stmts, stmts]
      exact follows_pure
  | s :: rest =>
      obtain ⟨k, hss, hsr⟩ := hs
      rw [Lowering.stmts, stmts]
      exact follows_seq (follows_stmt C hT s hss ht.1) (follows_stmts C hT rest hsr ht.2)
termination_by structural body

theorem runs_groups (C : Context) {T : Targets} (hT : C.Names T) (bodies : List (List Stmt))
    {lo hi : Nat} (hs : Stmt.GroupsSound C.inner lo bodies hi)
    (ht : Stmt.GroupsTypes (· ≠ .void) bodies) {d : Dispatch} {default : Label}
    {cases : List CaseTarget} {index n n' : Nat} {u : Unit} {ps : List Piece}
    (hy : (Lowering.groups T C.regions (placeGroup d default cases) index bodies).Yields n u ps n')
    {pc : Nat} (hps : Standing code C.guards pc ps) :
    RunsGroups host code rounds C (labelsOfGroup d default cases) pc (pc + size (layOut ps)) index
      bodies.length (groups tested host rounds bodies) := by
  match bodies with
  | [] =>
      obtain ⟨rfl, -⟩ := yields_groups_nil hy
      exact runsGroups_nil
  | body :: rest =>
      obtain ⟨k, hsb, hsr⟩ := hs
      obtain ⟨first, l, others, hfirst, hothers, rfl⟩ := yields_groups_cons hy
      simp only [standing_append, layOut_append, size_append, size_groupLabels, Nat.zero_add] at hps
      obtain ⟨⟨hsl, hsf⟩, hso⟩ := hps
      have hrest := runs_groups C hT rest hsr ht.2 hothers hso
      simp only [layOut_append, size_append, size_groupLabels, Nat.zero_add, ← Nat.add_assoc]
      exact runsGroups_cons rfl (fun _ => rfl) (standing_groupLabels hsl)
        (fun m => follows_stmts C hT body hsb ht.1 hfirst hsf m) hrest
termination_by structural bodies

theorem handles_clauses (C : Context) {T : Targets} (hT : C.Names T) {R : List Region}
    (region : Region) (hregions : C.regions = clauseRegions R region) {own around : List Guard}
    (hguards : C.guards = own ++ around) {done : Label} {exit : Nat → Prop}
    (hexit : ∀ n ps n' q, (finallyCopy T R region).Yields n () ps n' →
      Standing code around q (ps ++ [.give (.emit ⟨.goto, some (.label done)⟩)]) → exit q)
    (clauses : List (Catch Stmt)) {lo hi : Nat} (hs : Stmt.ClausesSound C.inner lo clauses hi)
    (ht : Stmt.ClausesTypes (· ≠ .void) clauses) {n n' k : Nat} {ps : List Piece}
    {codes : List (Clause Piece)}
    (hy : (Lowering.catches T R region clauses (stretchesFrom k clauses.length)).Yields
      n codes ps n') {pc : Nat} (hst : StandingClauses code own around done pc codes) :
    Handles host code rounds C exit codes (catches tested host rounds clauses) := by
  match clauses with
  | [] =>
      obtain ⟨rfl, -⟩ := yields_catches_nil hy
      exact handles_nil
  | ⟨exceptionType, slot, body⟩ :: rest =>
      obtain ⟨l, hsb, hsr⟩ := hs
      obtain ⟨first, _, copy, _, others, hfirst, hcopy, hothers, rfl⟩ := yields_catches_cons hy
      obtain ⟨hclause, hrest⟩ := standing_clauses_cons hst
      have hbody := follows_stmts C hT body hsb ht.1
      rw [hregions] at hbody
      exact handles_cons hguards hclause hfirst hbody (hexit _ copy _ _ hcopy hclause.exit)
        (handles_clauses C hT region hregions hguards hexit rest hsr ht.2 hothers hrest)
termination_by structural clauses

end

end MethodCompiler.Simulation
