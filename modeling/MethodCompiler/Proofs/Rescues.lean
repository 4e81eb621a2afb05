import MethodCompiler.Proofs.Compilation
import MethodCompiler.Proofs.ExpressionWrites
import MethodCompiler.Proofs.StatementRuns

/-!
# The handlers of finally bodies

The code of a try with a finally body has a handler that stores the object in flight, runs
a copy of the body and throws the object again. A try inside a finally body has as many of
them as the body has copies. `rescues` lists them all, in the order of the code.

Two things are said of each. `stands_rescues` says where it is: the code around it is in
front of it or behind it. `traced_stmts` says how it came about: it is that of a try of the
tree, and its labels are not those of anything that is around it. By `rescue_of_row` no row
that holds for every class leads elsewhere.
-/

namespace MethodCompiler.Lowering

open Annotated (Expr Stmt Catch)
open Simulation (Standing StandingClauses StandingRescue standing_append standing_statement
  standing_tryCatch standing_clauses_cons standing_copy)

mutual

/-- The handlers of finally bodies in a piece, each with the guards of the regions around
it. -/
def Piece.rescues (around : List Guard) : Piece → List (List Guard × Rescue Piece)
  | .give _ => []
  | .statement body => rescues around body
  | .copy _ stillOpen body => rescues (around.drop (around.length - stillOpen)) body
  | .tryCatch _ block exit clauses rescue =>
    rescues (blockGuard clauses rescue :: around) block ++ rescues around exit ++
      clauseRescues (clauseGuards rescue) around clauses ++
      match rescue with
      | none => []
      | some ⟨handler, stored, slot, body⟩ =>
        (around, ⟨handler, stored, slot, body⟩) :: rescues around body
termination_by structural p => p

/-- The handlers of finally bodies in pieces one after another. -/
def rescues (around : List Guard) : List Piece → List (List Guard × Rescue Piece)
  | [] => []
  | p :: rest => p.rescues around ++ rescues around rest
termination_by structural ps => ps

/-- The handlers of finally bodies in catch clauses with the guards `own`. -/
def clauseRescues (own around : List Guard) :
    List (Clause Piece) → List (List Guard × Rescue Piece)
  | [] => []
  | ⟨_, _, _, body, exit⟩ :: rest =>
    rescues (own ++ around) body ++ rescues around exit ++ clauseRescues own around rest
termination_by structural cs => cs

end

/-! ## Where the handlers stand -/

/-- The directives `es` are among `ds`, with `k` instructions before them. -/
def LiesAt (ds : List Directive) (k : Nat) (es : List Directive) : Prop :=
  ∃ front back, ds = front ++ es ++ back ∧ size front = k

/-- The code of a handler from the store of the object in flight up to where it is loaded
again. -/
def Rescue.core (r : Rescue Piece) : List Directive :=
  .emit ⟨.store, some (.slot r.slot)⟩ :: .place r.stored :: (layOut r.body ++
    [.emit ⟨.load, some (.slot r.slot)⟩])

/-- A handler has its place in code that is at `pc`. -/
def StandsIn (code : Code) (pc : Nat) (ds : List Directive) (x : List Guard × Rescue Piece) :
    Prop :=
  ∃ k, LiesAt ds k x.2.core ∧ StandingRescue code x.1 (pc + k) x.2

section Stands

variable {code : Code} {ds es fs : List Directive} {j k pc pc' : Nat}
  {x : List Guard × Rescue Piece} {around own : List Guard}

theorem liesAt_first : LiesAt (ds ++ es) 0 ds :=
  ⟨[], es, rfl, rfl⟩

theorem liesAt_last (h : size ds = k) : LiesAt (ds ++ es) k es :=
  ⟨ds, [], (List.append_nil _).symm, h⟩

theorem LiesAt.behind (h : LiesAt es 0 fs) (hk : size ds = k) : LiesAt (ds ++ es) k fs := by
  obtain ⟨front, back, rfl, hfront⟩ := h
  exact ⟨ds ++ front, back, by simp, by rw [size_append, hfront, hk, Nat.add_zero]⟩

theorem LiesAt.followed (h : LiesAt ds k fs) : LiesAt (ds ++ es) k fs := by
  obtain ⟨front, back, rfl, rfl⟩ := h
  exact ⟨front, back ++ es, by simp, rfl⟩

theorem LiesAt.trans (h : LiesAt ds j es) (h' : LiesAt es k fs) : LiesAt ds (j + k) fs := by
  obtain ⟨front, back, rfl, rfl⟩ := h
  obtain ⟨front', back', rfl, rfl⟩ := h'
  exact ⟨front ++ front', back' ++ back, by simp, size_append front front'⟩

theorem StandsIn.within (h : StandsIn code pc' es x) (hes : LiesAt ds j es) (hpc : pc' = pc + j) :
    StandsIn code pc ds x := by
  obtain ⟨k, hk, hst⟩ := h
  refine ⟨j + k, hes.trans hk, ?_⟩
  rwa [← Nat.add_assoc, ← hpc]

/-- Where the parts of a try are in its code. -/
theorem liesAt_tryCatch (t : TryFrame) (block exit : List Piece) (clauses : List (Clause Piece))
    (rescue : Option (Rescue Piece))
    (hds : ds = (Piece.tryCatch t block exit clauses rescue).directives) :
    LiesAt ds 0 (layOut block) ∧ LiesAt ds (size (layOut block)) (layOut exit) ∧
      LiesAt ds (size (layOut block) + size (layOut exit) + 1) (layOutClauses t.done clauses) := by
  cases rescue with
  | none | some r =>
      rw [Piece.directives] at hds
      subst hds
      refine ⟨?_, ?_, ?_⟩
      · exact .followed (.followed (.followed (.followed (.followed (.followed (.followed
          (liesAt_last (by simp))))))))
      · exact .followed (.followed (.followed (.followed (.followed (liesAt_last (by simp))))))
      · exact .followed (.followed (.followed (liesAt_last (by simp [Nat.add_assoc]))))

/-- The handler comes behind the clauses. -/
theorem liesAt_rescue (t : TryFrame) (block exit : List Piece) (clauses : List (Clause Piece))
    (r : Rescue Piece) (hds : ds = (Piece.tryCatch t block exit clauses (some r)).directives) :
    LiesAt ds (size (layOut block) + size (layOut exit) + 1 +
      size (layOutClauses t.done clauses)) r.core := by
  rw [Piece.directives] at hds
  subst hds
  refine .followed (.behind ⟨[.create r.handler, .create r.stored, .place r.handler],
    .emit ⟨.throw, none⟩ :: t.rescueRows r.handler r.stored block clauses, ?_, rfl⟩ ?_)
  · simp [Rescue.core]
  · simp [Nat.add_assoc]

theorem liesAt_core (r : Rescue Piece) : LiesAt r.core 1 (layOut r.body) :=
  ⟨[_, _], _, rfl, rfl⟩

/-- Where the parts of a clause are in the code of the clauses. -/
theorem liesAt_clause (done : Label) (c : Clause Piece) (rest : List (Clause Piece))
    (hds : ds = layOutClauses done (c :: rest)) :
    LiesAt ds 1 (layOut c.body) ∧ LiesAt ds (1 + size (layOut c.body)) (layOut c.exit) ∧
      LiesAt ds (1 + size (layOut c.body) + size (layOut c.exit) + 1)
        (layOutClauses done rest) := by
  obtain ⟨_, stretch, slot, body, exit⟩ := c
  rw [layOutClauses] at hds
  subst hds
  refine ⟨?_, ?_, ?_⟩
  · exact .followed (.followed (.followed (.followed (liesAt_last rfl))))
  · exact .followed (.followed (liesAt_last (by simp)))
  · exact liesAt_last (by simp [Nat.add_assoc])

mutual

theorem stands_piece (around : List Guard) (p : Piece) {pc : Nat}
    (h : Standing code around pc [p]) :
    ∀ x ∈ p.rescues around, StandsIn code pc p.directives x := by
  match p with
  | .give _ =>
      intro x hx
      cases hx
  | .statement body => exact stands_rescues around body (standing_statement.mp h)
  | .copy stretch stillOpen body =>
      have hbody : LiesAt (Piece.copy stretch stillOpen body).directives 0 (layOut body) :=
        ⟨_, _, rfl, rfl⟩
      intro x hx
      exact (stands_rescues _ body (standing_copy h).1 x hx).within hbody rfl
  | .tryCatch t block exit clauses none =>
      obtain ⟨hblock, hexit, hclauses⟩ := liesAt_tryCatch t block exit clauses none rfl
      have hst := standing_tryCatch h
      simp only [Piece.rescues, List.append_nil, List.forall_mem_append]
      refine ⟨⟨fun x hx => ?_, fun x hx => ?_⟩, fun x hx => ?_⟩
      · exact (stands_rescues _ block hst.standing_block x hx).within hblock rfl
      · exact (stands_rescues _ exit (standing_append.mp hst.standing_exit).1 x hx).within hexit rfl
      · exact (stands_clauses _ _ clauses hst.standing_clauses x hx).within hclauses (by omega)
  | .tryCatch t block exit clauses (some ⟨handler, stored, slot, body⟩) =>
      obtain ⟨hblock, hexit, hclauses⟩ := liesAt_tryCatch t block exit clauses
        (some ⟨handler, stored, slot, body⟩) rfl
      have hst := standing_tryCatch h
      have hr := hst.standing_rescue _ rfl
      have hcore := liesAt_rescue t block exit clauses ⟨handler, stored, slot, body⟩ rfl
      simp only [Piece.rescues, List.forall_mem_append, List.forall_mem_cons]
      refine ⟨⟨⟨fun x hx => ?_, fun x hx => ?_⟩, fun x hx => ?_⟩, ⟨_, hcore, ?_⟩, fun x hx => ?_⟩
      · exact (stands_rescues _ block hst.standing_block x hx).within hblock rfl
      · exact (stands_rescues _ exit (standing_append.mp hst.standing_exit).1 x hx).within hexit rfl
      · exact (stands_clauses _ _ clauses hst.standing_clauses x hx).within hclauses (by omega)
      · simpa only [← Nat.add_assoc] using hr
      · exact (stands_rescues _ body (standing_append.mp hr.body).1 x hx).within
          (hcore.trans (liesAt_core _)) (by omega)
termination_by structural p

theorem stands_rescues (around : List Guard) (ps : List Piece) {pc : Nat}
    (h : Standing code around pc ps) : ∀ x ∈ rescues around ps, StandsIn code pc (layOut ps) x := by
  match ps with
  | [] =>
      intro x hx
      cases hx
  | p :: rest =>
      have happend : Standing code around pc ([p] ++ rest) := h
      obtain ⟨hp, hrest⟩ := standing_append.mp happend
      have hsize : size (layOut [p]) = size p.directives := by rw [layOut, layOut, List.append_nil]
      refine List.forall_mem_append.mpr ⟨fun x hx => ?_, fun x hx => ?_⟩
      · exact (stands_piece around p hp x hx).within liesAt_first rfl
      · exact (stands_rescues around rest hrest x hx).within (liesAt_last rfl) (by rw [hsize])
termination_by structural ps

theorem stands_clauses (own around : List Guard) {done : Label} (clauses : List (Clause Piece))
    {pc : Nat} (h : StandingClauses code own around done pc clauses) :
    ∀ x ∈ clauseRescues own around clauses, StandsIn code pc (layOutClauses done clauses) x := by
  match clauses with
  | [] =>
      intro x hx
      cases hx
  | ⟨type, stretch, slot, body, exit⟩ :: rest =>
      obtain ⟨hbody, hexit, hrest⟩ := liesAt_clause done ⟨type, stretch, slot, body, exit⟩ rest rfl
      obtain ⟨hc, hst⟩ := standing_clauses_cons h
      refine List.forall_mem_append.mpr ⟨List.forall_mem_append.mpr
        ⟨fun x hx => ?_, fun x hx => ?_⟩, fun x hx => ?_⟩
      · exact (stands_rescues _ body hc.body x hx).within hbody rfl
      · exact (stands_rescues _ exit (standing_append.mp hc.exit).1 x hx).within hexit
          (Nat.add_assoc ..)
      · exact (stands_clauses own around rest hst x hx).within hrest
          (by simp only [Nat.add_assoc])
termination_by structural clauses

end

end Stands

/-! ## What leads to the handlers -/

section Rows

variable {start stop l l' : Label} {ct : Option String}

theorem handler_mem_rows {first last : Label} {gaps : List Stretch}
    (h : .handler start stop l none ∈ rows l' ct first last gaps) : l = l' ∧ ct = none := by
  induction gaps generalizing first with
  | nil =>
      simp only [rows, List.mem_singleton, Directive.handler.injEq] at h
      exact ⟨h.2.2.1, h.2.2.2.symm⟩
  | cons gap rest ih =>
      simp only [rows, List.mem_cons, Directive.handler.injEq] at h
      rcases h with ⟨-, -, hl, hct⟩ | h
      · exact ⟨hl, hct.symm⟩
      · exact ih h

theorem handler_not_mem_clauseRows {t : TryFrame} {block : List Piece}
    {clauses : List (Clause Piece)} : .handler start stop l none ∉ t.clauseRows block clauses := by
  intro h
  obtain ⟨c, -, hc⟩ := List.mem_flatMap.mp h
  cases (handler_mem_rows hc).2

theorem handler_mem_rescueRows {t : TryFrame} {handler stored : Label} {block : List Piece}
    {clauses : List (Clause Piece)}
    (h : .handler start stop l none ∈ t.rescueRows handler stored block clauses) : l = handler := by
  simp only [TryFrame.rescueRows, List.mem_append, List.mem_flatMap, List.mem_singleton,
    Directive.handler.injEq] at h
  rcases h with (h | ⟨c, -, h⟩) | ⟨-, -, h, -⟩
  · exact (handler_mem_rows h).1
  · exact (handler_mem_rows h).1
  · exact h

mutual

/-- A row of a piece that holds for every class leads to a handler of a finally body in it. -/
theorem rescue_of_row_piece (around : List Guard) (p : Piece) {depth : Nat} (hn : p.Nested depth)
    (h : .handler start stop l none ∈ p.directives) : ∃ x ∈ p.rescues around, x.2.handler = l := by
  match p with
  | .give d =>
      obtain rfl := List.mem_singleton.mp h
      cases hn
  | .statement body => exact rescue_of_row around body hn h
  | .copy stretch stillOpen body =>
      simp only [Piece.directives, List.mem_append, List.mem_cons, List.not_mem_nil, reduceCtorEq,
        or_false, false_or] at h
      exact rescue_of_row _ body hn.2 h
  | .tryCatch t block exit clauses none =>
      obtain ⟨-, hblock, hexit, hclauses, -⟩ := nested_tryCatch.mp hn
      simp only [Piece.directives, TryFrame.creates, List.mem_append, List.mem_cons,
        List.mem_flatMap, List.not_mem_nil, reduceCtorEq, handler_not_mem_clauseRows, or_false,
        false_or, and_false, exists_false] at h
      simp only [Piece.rescues, List.append_nil, List.mem_append]
      rcases h with (h | h) | h
      · obtain ⟨x, hx, hl⟩ := rescue_of_row _ block hblock h
        exact ⟨x, .inl (.inl hx), hl⟩
      · obtain ⟨x, hx, hl⟩ := rescue_of_row around exit hexit h
        exact ⟨x, .inl (.inr hx), hl⟩
      · obtain ⟨x, hx, hl⟩ := rescue_of_row_clauses _ around clauses hclauses h
        exact ⟨x, .inr hx, hl⟩
  | .tryCatch t block exit clauses (some ⟨handler, stored, slot, body⟩) =>
      obtain ⟨-, hblock, hexit, hclauses, hbody⟩ := nested_tryCatch.mp hn
      simp only [Piece.directives, TryFrame.creates, List.mem_append, List.mem_cons,
        List.mem_flatMap, List.not_mem_nil, reduceCtorEq, handler_not_mem_clauseRows, or_false,
        false_or, and_false, exists_false] at h
      simp only [Piece.rescues, List.mem_append, List.mem_cons]
      rcases h with ((h | h) | h) | h | h
      · obtain ⟨x, hx, hl⟩ := rescue_of_row _ block hblock h
        exact ⟨x, .inl (.inl (.inl hx)), hl⟩
      · obtain ⟨x, hx, hl⟩ := rescue_of_row around exit hexit h
        exact ⟨x, .inl (.inl (.inr hx)), hl⟩
      · obtain ⟨x, hx, hl⟩ := rescue_of_row_clauses _ around clauses hclauses h
        exact ⟨x, .inl (.inr hx), hl⟩
      · obtain ⟨x, hx, hl⟩ := rescue_of_row around body (hbody _ rfl) h
        exact ⟨x, .inr (.inr hx), hl⟩
      · exact ⟨_, .inr (.inl rfl), (handler_mem_rescueRows h).symm⟩
termination_by structural p

theorem rescue_of_row (around : List Guard) (ps : List Piece) {depth : Nat} (hn : Nested depth ps)
    (h : .handler start stop l none ∈ layOut ps) : ∃ x ∈ rescues around ps, x.2.handler = l := by
  match ps with
  | [] => cases h
  | p :: rest =>
      rcases List.mem_append.mp h with h | h
      · obtain ⟨x, hx, hl⟩ := rescue_of_row_piece around p hn.1 h
        exact ⟨x, List.mem_append_left _ hx, hl⟩
      · obtain ⟨x, hx, hl⟩ := rescue_of_row around rest hn.2 h
        exact ⟨x, List.mem_append_right _ hx, hl⟩
termination_by structural ps

theorem rescue_of_row_clauses (own around : List Guard) {done : Label}
    (clauses : List (Clause Piece)) {inner depth : Nat} (hn : ClausesNested inner depth clauses)
    (h : .handler start stop l none ∈ layOutClauses done clauses) :
    ∃ x ∈ clauseRescues own around clauses, x.2.handler = l := by
  match clauses with
  | [] => cases h
  | ⟨_, stretch, slot, body, exit⟩ :: rest =>
      obtain ⟨hbody, hexit, hrest⟩ := hn
      simp only [layOutClauses, List.mem_append, List.mem_cons, List.not_mem_nil, reduceCtorEq,
        or_false, false_or] at h
      simp only [clauseRescues, List.mem_append]
      rcases h with (h | h) | h
      · obtain ⟨x, hx, hl⟩ := rescue_of_row _ body hbody h
        exact ⟨x, .inl (.inl hx), hl⟩
      · obtain ⟨x, hx, hl⟩ := rescue_of_row around exit hexit h
        exact ⟨x, .inl (.inr hx), hl⟩
      · obtain ⟨x, hx, hl⟩ := rescue_of_row_clauses own around rest hrest h
        exact ⟨x, .inr hx, hl⟩
termination_by structural clauses

end

end Rows

/-! ## How the handlers came about -/

/-- What is around a statement of which code is generated with the labels from `n` up to
`n'`. Statements have the property `Q`, those of the finally bodies of open regions too. The
labels of everything around are others. -/
structure Surroundings (Q : Stmt → Prop) (T : Targets) (R : List Region) (around : List Guard)
    (inner : Option Frame) (lo hi n n' : Nat) : Prop where
  fits : Fits T (· < n) R inner lo hi
  below : ∀ p ∈ T, p.2.breakLabel < n ∧ ∀ l ∈ p.2.continueLabel, l < n
  regions : ∀ body, some body ∈ R → ∀ s ∈ Stmt.allParts body, Q s
  length : R.length ≤ around.length
  guards : ∀ g ∈ around.flatten, g.2 < n ∨ n' ≤ g.2

/-- The handler is that of a try with the property `Q`. -/
inductive Origin (Q : Stmt → Prop) (around : List Guard) : Rescue Piece → Prop
  | intro {T : Targets} {R : List Region} {inner : Option Frame} {lo hi n n' slot : Nat}
      {guarded body : List Stmt} {clauses : List (Catch Stmt)} {copy : List Piece}
      (htry : Q (.tryCatch guarded clauses (some ⟨slot, body⟩)))
      (hsound : Stmt.AllSound inner lo body hi) (hset : Surroundings Q T R around inner lo hi n n')
      (hcopy : (stmts T R body).Yields (n + 2) () copy n') :
      Origin Q around ⟨n, n + 1, slot, copy⟩

/-- The handlers in the pieces are those of tries with the property `Q`. -/
def Traced (Q : Stmt → Prop) (around : List Guard) (ps : List Piece) : Prop :=
  ∀ x ∈ rescues around ps, Origin Q x.1 x.2

/-- The handlers in catch clauses are those of tries with the property `Q`. -/
def TracedClauses (Q : Stmt → Prop) (own around : List Guard) (clauses : List (Clause Piece)) :
    Prop :=
  ∀ x ∈ clauseRescues own around clauses, Origin Q x.1 x.2

section Traced

variable {Q : Stmt → Prop} {own around : List Guard} {ps qs : List Piece}

theorem rescues_append : rescues around (ps ++ qs) = rescues around ps ++ rescues around qs := by
  induction ps with
  | nil => rfl
  | cons p ps ih => rw [List.cons_append, rescues, rescues, ih, List.append_assoc]

theorem Traced.append (hp : Traced Q around ps) (hq : Traced Q around qs) :
    Traced Q around (ps ++ qs) := by
  rw [Traced, rescues_append]
  exact List.forall_mem_append.mpr ⟨hp, hq⟩

theorem traced_nil : Traced Q around [] := by
  simp [Traced, rescues]

theorem traced_single {p : Piece} (h : ∀ x ∈ p.rescues around, Origin Q x.1 x.2) :
    Traced Q around [p] := by
  rwa [Traced, rescues, rescues, List.append_nil]

theorem traced_give (d : Directive) : Traced Q around [.give d] :=
  traced_single nofun

theorem traced_all (h : ∀ p ∈ ps, Traced Q around [p]) : Traced Q around ps := by
  induction ps with
  | nil => exact traced_nil
  | cons p ps ih =>
      obtain ⟨hp, hps⟩ := List.forall_mem_cons.mp h
      exact hp.append (ih hps)

theorem traced_statement (h : Traced Q around ps) : Traced Q around [.statement ps] :=
  traced_single h

theorem traced_copy {stretch : Stretch} {stillOpen : Nat}
    (h : Traced Q (around.drop (around.length - stillOpen)) ps) :
    Traced Q around [.copy stretch stillOpen ps] :=
  traced_single h

theorem traced_tryCatch {t : TryFrame} {block exit : List Piece} {clauses : List (Clause Piece)}
    {rescue : Option (Rescue Piece)} (hblock : Traced Q (blockGuard clauses rescue :: around) block)
    (hexit : Traced Q around exit) (hclauses : TracedClauses Q (clauseGuards rescue) around clauses)
    (hrescue : ∀ r ∈ rescue, Origin Q around r ∧ Traced Q around r.body) :
    Traced Q around [.tryCatch t block exit clauses rescue] := by
  refine traced_single ?_
  cases rescue with
  | none =>
      simp only [Piece.rescues, List.append_nil, List.forall_mem_append]
      exact ⟨⟨hblock, hexit⟩, hclauses⟩
  | some r =>
      obtain ⟨handler, stored, slot, body⟩ := r
      obtain ⟨horigin, hbody⟩ := hrescue _ rfl
      simp only [Piece.rescues, List.forall_mem_append, List.forall_mem_cons]
      exact ⟨⟨⟨hblock, hexit⟩, hclauses⟩, horigin, hbody⟩

theorem tracedClauses_nil : TracedClauses Q own around [] := by
  simp [TracedClauses, clauseRescues]

theorem tracedClauses_cons {c : Clause Piece} {rest : List (Clause Piece)}
    (hbody : Traced Q (own ++ around) c.body) (hexit : Traced Q around c.exit)
    (hrest : TracedClauses Q own around rest) : TracedClauses Q own around (c :: rest) := by
  obtain ⟨_, stretch, slot, body, exit⟩ := c
  exact List.forall_mem_append.mpr ⟨List.forall_mem_append.mpr ⟨hbody, hexit⟩, hrest⟩

end Traced

namespace Surroundings

variable {Q : Stmt → Prop} {T : Targets} {R : List Region} {around : List Guard}
  {inner : Option Frame} {lo hi lo' hi' n n' m m' : Nat}

theorem part (h : Surroundings Q T R around inner lo hi n n') (hlo : lo ≤ lo') (hhi : hi' ≤ hi)
    (hn : n ≤ m) (hn' : m' ≤ n') : Surroundings Q T R around inner lo' hi' m m' where
  fits := (h.fits.mono fun _ hl => Nat.lt_of_lt_of_le hl hn).part hlo hhi
  below := fun p hp => (h.below p hp).imp (Nat.lt_of_lt_of_le · hn) fun hl l hmem =>
    Nat.lt_of_lt_of_le (hl l hmem) hn
  regions := h.regions
  length := h.length
  guards := fun g hg => (h.guards g hg).imp (Nat.lt_of_lt_of_le · hn) (Nat.le_trans hn')

theorem inside (h : Surroundings Q T R around inner lo hi n n') (hn : n ≤ m) (hn' : m' ≤ n') :
    Surroundings Q T R around inner lo hi m m' :=
  h.part (Nat.le_refl _) (Nat.le_refl _) hn hn'

/-- The body of a construct. -/
theorem enter (h : Surroundings Q T R around inner lo hi n n') {s : Stmt} {f : Frame} {t : Target}
    (hin : Entered T R s f t m) (hlo : lo ≤ f.id) (hhi : f.id < hi) (hn : n ≤ m) (hn' : m' ≤ n') :
    Surroundings Q ((f.id, t) :: T) R around (some f) (f.id + 1) hi m m' := by
  have hpart := h.inside hn hn'
  refine ⟨hpart.fits.enter rfl hlo hhi hin.depth (fun _ => hin.breaks) fun hcont => ?_,
    List.forall_mem_cons.mpr ⟨⟨hin.breaks, hin.continues⟩, hpart.below⟩, h.regions, h.length,
    hpart.guards⟩
  obtain ⟨l, hl⟩ := Option.ne_none_iff_exists'.mp (hin.loop hcont)
  exact ⟨l, hl, hin.continues l hl⟩

/-- The last part of a for loop stands outside the loop but is generated after it was
entered. -/
theorem beside (h : Surroundings Q T R around inner lo hi n n') {s : Stmt} {f : Frame} {t : Target}
    (hin : Entered T R s f t m) (hlo : lo ≤ f.id) (hhi : f.id < hi) (hn : n ≤ m) (hn' : m' ≤ n') :
    Surroundings Q ((f.id, t) :: T) R around inner lo f.id m m' := by
  have hpart := h.inside hn hn'
  exact ⟨hpart.fits.beside hlo hhi,
    List.forall_mem_cons.mpr ⟨⟨hin.breaks, hin.continues⟩, hpart.below⟩, h.regions, h.length,
    hpart.guards⟩

/-- The block of a try without a finally body. -/
theorem inTry (h : Surroundings Q T R around inner lo hi n n') {gs : Guard}
    (hgs : ∀ g ∈ gs, g.2 < n ∨ n' ≤ g.2) :
    Surroundings Q T (none :: R) (gs :: around) inner lo hi n n' where
  fits := h.fits.inTry
  below := h.below
  regions := fun body hbody => h.regions body (by simpa using hbody)
  length := Nat.succ_le_succ h.length
  guards := fun g hg => (List.mem_append.mp hg).elim (hgs g) (h.guards g)

/-- The block of a try with a finally body, and the bodies of its catch clauses. -/
theorem inTryFinally (h : Surroundings Q T R around inner lo hi n n') {body : List Stmt}
    {gs : Guard} (hlo : lo ≤ lo') (hbody : Stmt.AllSound inner lo' body hi)
    (hq : ∀ s ∈ Stmt.allParts body, Q s) (hgs : ∀ g ∈ gs, g.2 < n ∨ n' ≤ g.2) :
    Surroundings Q T (some body :: R) (gs :: around) inner lo lo' n n' where
  fits := h.fits.inTryFinally hlo hbody
  below := h.below
  regions := fun body' hbody' => by
    rcases List.mem_cons.mp hbody' with heq | hbody'
    · obtain rfl := Option.some.inj heq
      exact hq
    · exact h.regions body' hbody'
  length := Nat.succ_le_succ h.length
  guards := fun g hg => (List.mem_append.mp hg).elim (hgs g) (h.guards g)

/-- A jump only wants the regions it leaves. -/
theorem leaving (h : Surroundings Q T R around inner lo hi n n') :
    Surroundings Q T R around none hi hi n n' where
  fits := ⟨fun id h₁ h₂ => absurd h₁ (by omega), Targets.serves_none, h.fits.opens⟩
  below := h.below
  regions := h.regions
  length := h.length
  guards := h.guards

theorem outside {region : Region} (h : Surroundings Q T (region :: R) around inner lo hi n n') :
    ∃ hi', Surroundings Q T R around none hi' hi' n n' := by
  obtain ⟨hi', hopens⟩ := h.fits.opens.outside
  exact ⟨hi', ⟨fun id h₁ h₂ => absurd h₁ (by omega), Targets.serves_none, hopens⟩, h.below,
    fun body hbody => h.regions body (List.mem_cons_of_mem _ hbody), Nat.le_of_succ_le h.length,
    h.guards⟩

/-- A copy of a finally body is in the regions outside that of the body and in no others. -/
theorem inCopy {body : List Stmt} (h : Surroundings Q T (some body :: R) around inner lo hi n n') :
    ∃ inner' lo' hi', Stmt.AllSound inner' lo' body hi' ∧
      Surroundings Q T R (around.drop (around.length - R.length)) inner' lo' hi' n n' := by
  have hlength := h.length
  rw [List.length_cons] at hlength
  obtain ⟨inner', lo', hi', hbody, hfits⟩ := h.fits.opens.fits
  refine ⟨inner', lo', hi', hbody, hfits, h.below,
    fun body hbody => h.regions body (List.mem_cons_of_mem _ hbody), ?_, fun g hg => ?_⟩
  · rw [List.length_drop]
    omega
  · obtain ⟨gs, hgs, hg⟩ := List.mem_flatten.mp hg
    exact h.guards g (List.mem_flatten.mpr ⟨gs, List.mem_of_mem_drop hgs, hg⟩)

end Surroundings

/-! ### Statements -/

/-- The guards of a block are labels from before it, of its clauses, or from behind it. -/
theorem blockGuard_outside {codes : List (Clause Piece)} {rescue : Option (Rescue Piece)}
    {n k : Nat} (hstretch : codes.map (·.stretch) = stretchesFrom n codes.length)
    (hrescue : ∀ r ∈ rescue, k ≤ r.handler) :
    ∀ g ∈ blockGuard codes rescue, g.2 < n + 2 * codes.length ∨ k ≤ g.2 := by
  intro g hg
  rcases List.mem_append.mp hg with hg | hg
  · obtain ⟨c, hc, rfl⟩ := List.mem_map.mp hg
    have hmem : c.stretch ∈ stretchesFrom n codes.length := hstretch ▸ List.mem_map_of_mem hc
    have hlabel : c.stretch.1 ∈ (stretchesFrom n codes.length).flatMap fun s => [s.1, s.2] :=
      List.mem_flatMap.mpr ⟨_, hmem, by simp⟩
    rw [flatMap_stretchesFrom, List.mem_range'_1] at hlabel
    exact .inl hlabel.2
  · cases rescue with
    | none => cases hg
    | some r =>
        obtain rfl : g = (none, r.handler) := by simpa [clauseGuards] using hg
        exact .inr (hrescue r rfl)

variable {Q : Stmt → Prop}

mutual

/-- Every handler in the code of a statement is that of a try in it, or of one in the finally
body of an open region. -/
theorem traced_stmt {T : Targets} {R : List Region} {around : List Guard} {inner : Option Frame}
    {lo hi : Nat} (s : Stmt) (hs : s.Sound inner lo hi) (hq : ∀ t ∈ s.parts, Q t) :
    ∀ ⦃n u ps n'⦄, Surroundings Q T R around inner lo hi n n' → (stmt T R s).Yields n u ps n' →
      Traced Q around ps := by
  intro n u ps n' hset hy
  by_cases hflat : s.Flat
  · obtain ⟨body, rfl, hbody⟩ := composed_stmt hflat (own_any s) hy
    refine traced_statement (traced_all fun p hp => ?_)
    obtain ⟨d, rfl, -⟩ | ⟨ht, hn, hn', hcode⟩ | ⟨ht, hin, hn, hn', hcode⟩ := hbody p hp
    · exact traced_give d
    · have := Stmt.sizeOf_lt_of_mem (List.mem_append_left _ ht)
      have hqt := Stmt.forall_parts hflat hq (List.mem_append_left _ ht)
      obtain ⟨lo', hi', hlo, hhi, hsound⟩ := hs.of_mem_outer ht
      exact traced_stmt _ hsound hqt (hset.part hlo hhi hn hn') hcode
    · have := Stmt.sizeOf_lt_of_mem (List.mem_append_right _ ht)
      have hqt := Stmt.forall_parts hflat hq (List.mem_append_right _ ht)
      obtain ⟨f, hf, hlo, hhi, lo', hi', hchild⟩ := hs.of_mem_inner ht
      obtain rfl := Option.some.inj (hf.symm.trans hin.frame)
      obtain ⟨hlo', hhi', hsound⟩ | ⟨hlo', hhi', hsound⟩ := hchild
      · exact traced_stmt _ hsound hqt ((hset.enter hin hlo hhi hn hn').part hlo' hhi'
          (Nat.le_refl _) (Nat.le_refl _)) hcode
      · exact traced_stmt _ hsound hqt ((hset.beside hin hlo hhi hn hn').part hlo' hhi'
          (Nat.le_refl _) (Nat.le_refl _)) hcode
  match s with
  | .tryCatch guarded clauses none =>
      obtain ⟨m, hguarded, hclauses⟩ := hs
      obtain ⟨-, hq⟩ := List.forall_mem_cons.mp hq
      obtain ⟨hqguarded, hqclauses⟩ := List.forall_mem_append.mp hq
      obtain ⟨block, k, codes, hblock, hcodes, rfl⟩ := yields_tryCatch hy
      have := sizeOf_clauses_pos clauses
      have hstretch := yields_catches_stretches hcodes length_stretchesFrom
      have hlength : codes.length = clauses.length := by
        rw [← List.length_map, hstretch, length_stretchesFrom]
      have hcopy : ∀ ⦃n u ps n'⦄, (finallyCopy T R none).Yields n u ps n' → Traced Q around ps :=
        fun _ _ _ _ h => (yields_finallyCopy_none h).1 ▸ traced_nil
      have h₁ := le_stmts guarded hblock
      have h₂ := le_catches none clauses _ hcodes
      rw [← hlength] at hstretch
      refine traced_statement (traced_tryCatch ?_ traced_nil ?_ (by simp))
      · have hhandler : ∀ r ∈ (none : Option (Rescue Piece)), k ≤ r.handler := by simp
        have hguards := blockGuard_outside hstretch hhandler
        rw [hlength] at hguards
        exact traced_stmts guarded hguarded hqguarded
          ((hset.part (Nat.le_refl _) hclauses.le (by omega) h₂).inTry hguards) hblock
      · exact traced_catches [] none clauses _ hclauses hqclauses length_stretchesFrom
          (hset.part hguarded.le (Nat.le_refl _) (by omega) (Nat.le_refl _))
          (fun _ _ _ _ _ _ h => hcopy h) hcodes
  | .tryCatch guarded clauses (some ⟨slot, body⟩) =>
      obtain ⟨m, m', hguarded, hclauses, hbody⟩ := hs
      have hm := hguarded.le
      have hm' := hclauses.le
      obtain ⟨htry, hq⟩ := List.forall_mem_cons.mp hq
      obtain ⟨hq, hqbody⟩ := List.forall_mem_append.mp hq
      obtain ⟨hqguarded, hqclauses⟩ := List.forall_mem_append.mp hq
      obtain ⟨block, k, exit, k', codes, e, rescue, hblock, hexit, hcodes, hrescue, rfl⟩ :=
        yields_tryFinally hy
      have := sizeOf_clauses_pos clauses
      have hstretch := yields_catches_stretches hcodes length_stretchesFrom
      have hlength : codes.length = clauses.length := by
        rw [← List.length_map, hstretch, length_stretchesFrom]
      have h₁ := le_stmts guarded hblock
      have h₂ := le_stmts body hexit
      have h₃ := le_catches (some body) clauses _ hcodes
      have h₄ := le_stmts body hrescue
      have hcopy : ∀ ⦃a u ps b⦄, n ≤ a → b ≤ n' → (stmts T R body).Yields a u ps b →
          Traced Q around ps := fun a u ps b ha hb =>
        traced_stmts body hbody hqbody (hset.part (Nat.le_trans hm hm') (Nat.le_refl _) ha hb)
      rw [← hlength] at hstretch
      refine traced_statement (traced_tryCatch ?_ (hcopy (by omega) (by omega) hexit) ?_ ?_)
      · have hhandler : ∀ r ∈ some (⟨e, e + 1, slot, rescue⟩ : Rescue Piece), k ≤ r.handler := by
          rintro _ ⟨⟩
          exact Nat.le_trans h₂ h₃
        have hguards := blockGuard_outside hstretch hhandler
        rw [hlength] at hguards
        have hblock' := (hset.inside (by omega) (by omega)).inTryFinally (Nat.le_trans hm hm') hbody
          hqbody hguards
        exact traced_stmts guarded hguarded hqguarded
          (hblock'.part (Nat.le_refl _) hm' (Nat.le_refl _) (Nat.le_refl _)) hblock
      · have hout' : Surroundings Q T R around inner lo hi k' e := hset.inside (by omega) (by omega)
        have hhandler : ∀ g ∈ [((none : Option String), e)], g.2 < k' ∨ e ≤ g.2 := by simp
        have hclauses' := hout'.inTryFinally (Nat.le_trans hm hm') hbody hqbody hhandler
        exact traced_catches [[(none, e)]] (some body) clauses _ hclauses hqclauses
          length_stretchesFrom (hclauses'.part hm (Nat.le_refl _) (Nat.le_refl _) (Nat.le_refl _))
          (fun a u ps b ha hb h => hcopy (by omega) (by omega) (yields_finallyCopy_some h)) hcodes
      · rintro _ ⟨⟩
        exact ⟨.intro htry hbody (hset.part (Nat.le_trans hm hm') (Nat.le_refl _) (by omega)
          (Nat.le_refl _)) hrescue, hcopy (by omega) (Nat.le_refl _) hrescue⟩
  | .breakJump id =>
      obtain ⟨t, copies, -, hcopies, rfl⟩ := yields_breakJump hy
      exact traced_statement (.append (traced_crossed R t.depth hset.leaving hcopies)
        (traced_give _))
  | .continueJump id =>
      obtain ⟨t, l, copies, -, -, hcopies, rfl⟩ := yields_continueJump hy
      exact traced_statement (.append (traced_crossed R t.depth hset.leaving hcopies)
        (traced_give _))
  | .block _ | .localInit .. | .expression .. | .throw _ | .empty | .ifElse .. | .whileLoop ..
  | .doLoop .. | .forLoop .. | .switch .. => exact absurd trivial hflat
termination_by sizeOf s + sizeOf R

theorem traced_stmts {T : Targets} {R : List Region} {around : List Guard} {inner : Option Frame}
    {lo hi : Nat} (body : List Stmt) (hs : Stmt.AllSound inner lo body hi)
    (hq : ∀ t ∈ Stmt.allParts body, Q t) :
    ∀ ⦃n u ps n'⦄, Surroundings Q T R around inner lo hi n n' → (stmts T R body).Yields n u ps n' →
      Traced Q around ps := by
  intro n u ps n' hset hy
  match body with
  | [] =>
      obtain ⟨rfl, -⟩ := yields_nil hy
      exact traced_nil
  | s :: rest =>
      obtain ⟨m, hs, hrest⟩ := hs
      obtain ⟨hqs, hqrest⟩ := List.forall_mem_append.mp hq
      obtain ⟨first, k, others, hfirst, hothers, rfl⟩ := yields_cons hy
      have h₁ := le_stmt s hfirst
      have h₂ := le_stmts rest hothers
      exact (traced_stmt s hs hqs (hset.part (Nat.le_refl _) hrest.le (Nat.le_refl _) h₂)
        hfirst).append (traced_stmts rest hrest hqrest
          (hset.part hs.le (Nat.le_refl _) h₁ (Nat.le_refl _)) hothers)
termination_by sizeOf body + sizeOf R

theorem traced_catches {T : Targets} {R : List Region} {around : List Guard}
    {inner : Option Frame} {lo hi : Nat} (own : List Guard) (region : Region)
    (clauses : List (Catch Stmt)) (stretches : List Stretch)
    (hs : Stmt.ClausesSound inner lo clauses hi) (hq : ∀ t ∈ Stmt.clauseParts clauses, Q t)
    (hlength : stretches.length = clauses.length) :
    ∀ ⦃n n' codes ps⦄, Surroundings Q T (clauseRegions R region) (own ++ around) inner lo hi n n' →
      (∀ ⦃a u ps b⦄, n ≤ a → b ≤ n' → (finallyCopy T R region).Yields a u ps b →
        Traced Q around ps) →
      (catches T R region clauses stretches).Yields n codes ps n' →
        TracedClauses Q own around codes := by
  intro n n' codes ps hset hcopy hy
  match clauses, stretches with
  | [], [] =>
      obtain ⟨rfl, -⟩ := yields_catches_nil hy
      exact tracedClauses_nil
  | ⟨_, slot, body⟩ :: rest, stretch :: stretches =>
      obtain ⟨m, hbody, hrest⟩ := hs
      obtain ⟨hqbody, hqrest⟩ := List.forall_mem_append.mp hq
      obtain ⟨first, k, exit, m', others, hfirst, hexit, hothers, rfl⟩ := yields_catches_cons hy
      have := sizeOf_clauseRegions_le R region
      have hlength : stretches.length = rest.length := by simpa using hlength
      have h₁ := le_stmts body hfirst
      have h₂ := le_finallyCopy region hexit
      have h₃ := le_catches region rest stretches hothers
      refine tracedClauses_cons ?_ (hcopy h₁ h₃ hexit) ?_
      · exact traced_stmts body hbody hqbody
          (hset.part (Nat.le_refl _) hrest.le (Nat.le_refl _) (by omega)) hfirst
      · exact traced_catches own region rest stretches hrest hqrest hlength
          (hset.part hbody.le (Nat.le_refl _) (by omega) (Nat.le_refl _))
          (fun a u ps b ha hb => hcopy (by omega) hb) hothers
termination_by sizeOf clauses + sizeOf region + sizeOf R

theorem traced_crossed {T : Targets} {around : List Guard} {hi : Nat} (R : List Region)
    (depth : Nat) : ∀ ⦃n u ps n'⦄, Surroundings Q T R around none hi hi n n' →
      (crossed T depth R).Yields n u ps n' → Traced Q around ps := by
  intro n u ps n' hset hy
  match R with
  | [] =>
      obtain ⟨rfl, -⟩ := yields_crossed_nil hy
      exact traced_nil
  | none :: R =>
      by_cases hd : depth ≤ R.length
      · obtain ⟨hi', hout⟩ := hset.outside
        exact traced_crossed R depth hout (yields_crossed_none hd hy)
      · obtain ⟨rfl, -⟩ := yields_crossed_inside (by rw [List.length_cons]; omega) hy
        exact traced_nil
  | some body :: R =>
      by_cases hd : depth ≤ R.length
      · obtain ⟨copy, m, rest, hcopy, hrest, rfl⟩ := yields_crossed_some hd hy
        obtain ⟨inner, lo', hi', hbody, hin⟩ := hset.inCopy
        obtain ⟨hi'', hout⟩ := hset.outside
        have h₁ := le_stmts body hcopy
        have h₂ := le_crossed R hrest
        have hqbody := hset.regions body (List.mem_cons_self ..)
        exact (traced_copy (traced_stmts body hbody hqbody (hin.inside (by omega) h₂) hcopy)).append
          (traced_crossed R depth (hout.inside (by omega) (Nat.le_refl _)) hrest)
      · obtain ⟨rfl, -⟩ := yields_crossed_inside (by rw [List.length_cons]; omega) hy
        exact traced_nil
termination_by sizeOf R

end

end MethodCompiler.Lowering
