import MethodCompiler.Proofs.Assembled
import MethodCompiler.Proofs.Yields

/-!
# Instructions and the regions around them

While code is generated, tries are open around it. What a region catches is a list of
pairs, a class or none for any, and the label of the handler, in the order in which
they are tried. The block of a try is guarded by its clauses and then by the handler of
its finally body, the body of a clause by that handler alone. A copy of a finally body
on the way out of its region stands in the regions outside.

`sites` lists the instructions of pieces with the regions that were open around each.
Two instructions are caught by more than that: the store of a caught object, whose try
is not open any more but whose finally body still has to run, and the store of an
object in flight.
-/

namespace MethodCompiler.Lowering

/-- What a region catches, and where it goes. -/
abbrev Guard := List (Option String × Label)

/-- An instruction and the regions around it, innermost first. -/
structure Site where
  instruction : Instruction
  /-- what catches before the regions do -/
  extra : Guard
  around : List Guard

/-- Everything that catches what the instruction throws, in order. -/
def Site.guards (s : Site) : Guard :=
  s.extra ++ s.around.flatten

/-- The body of a clause is guarded by the handler of the finally body, if there is
one. -/
def clauseGuards : Option (Rescue Piece) → List Guard
  | none => []
  | some rescue => [[(none, rescue.handler)]]

/-- The block of a try is guarded by the clauses and then by the handler of the finally
body. -/
def blockGuard (clauses : List (Clause Piece)) (rescue : Option (Rescue Piece)) : Guard :=
  clauses.map (fun c => (some c.exceptionType, c.stretch.1)) ++ (clauseGuards rescue).flatten

mutual

/-- The instructions of a piece in the regions `around`. -/
def Piece.sites (around : List Guard) : Piece → List Site
  | .give d => d.instruction?.toList.map fun i => ⟨i, [], around⟩
  | .statement body => sites around body
  | .copy _ stillOpen body => sites (around.drop (around.length - stillOpen)) body
  | .tryCatch t block exit clauses rescue =>
    sites (blockGuard clauses rescue :: around) block ++ sites around exit ++
      [⟨⟨.goto, some (.label t.done)⟩, [], around⟩] ++
      clauseSites (clauseGuards rescue) around t.done clauses ++
      match rescue with
      | none => []
      | some ⟨handler, _, slot, body⟩ =>
        [⟨⟨.store, some (.slot slot)⟩, [(none, handler)], around⟩] ++ sites around body ++
          [⟨⟨.load, some (.slot slot)⟩, [], around⟩, ⟨⟨.throw, none⟩, [], around⟩]
termination_by structural p => p

/-- The instructions of pieces one after another. -/
def sites (around : List Guard) : List Piece → List Site
  | [] => []
  | p :: rest => p.sites around ++ sites around rest
termination_by structural ps => ps

/-- The instructions of catch clauses with the guards `own`. -/
def clauseSites (own around : List Guard) (done : Label) : List (Clause Piece) → List Site
  | [] => []
  | ⟨_, _, slot, body, exit⟩ :: rest =>
    [⟨⟨.store, some (.slot slot)⟩, own.flatten, around⟩] ++ sites (own ++ around) body ++
      sites around exit ++ [⟨⟨.goto, some (.label done)⟩, [], around⟩] ++
      clauseSites own around done rest
termination_by structural cs => cs

end

theorem sites_append (around : List Guard) (ps qs : List Piece) :
    sites around (ps ++ qs) = sites around ps ++ sites around qs := by
  induction ps with
  | nil => rfl
  | cons p ps ih => rw [List.cons_append, sites, sites, ih, List.append_assoc]

/-! ## Sites are the instructions -/

/-- The instructions of directives. -/
def instructionsOf (ds : List Directive) : List Instruction :=
  ds.filterMap Directive.instruction?

@[simp]
theorem instructionsOf_nil : instructionsOf [] = [] := rfl

@[simp]
theorem instructionsOf_cons (d : Directive) (ds : List Directive) :
    instructionsOf (d :: ds) = d.instruction?.toList ++ instructionsOf ds := by
  cases hd : d.instruction? <;> simp [instructionsOf, hd]

@[simp]
theorem instructionsOf_append (ds es : List Directive) :
    instructionsOf (ds ++ es) = instructionsOf ds ++ instructionsOf es :=
  List.filterMap_append

@[simp]
theorem instructionsOf_rows {handler : Label} {catchType : Option String} {start stop : Label}
    {gaps : List Stretch} : instructionsOf (rows handler catchType start stop gaps) = [] := by
  induction gaps generalizing start with
  | nil => rfl
  | cons gap rest ih => simp [rows, ih, Directive.instruction?]

theorem instructionsOf_flatMap {α : Type} {f : α → List Directive}
    (hf : ∀ a, instructionsOf (f a) = []) (l : List α) : instructionsOf (l.flatMap f) = [] := by
  induction l with
  | nil => rfl
  | cons a l ih => simp [hf, ih]

@[simp]
theorem instructionsOf_clauseRows {t : TryFrame} {block : List Piece}
    {clauses : List (Clause Piece)} : instructionsOf (t.clauseRows block clauses) = [] :=
  instructionsOf_flatMap (fun _ => instructionsOf_rows) clauses

@[simp]
theorem instructionsOf_rescueRows {t : TryFrame} {handler stored : Label} {block : List Piece}
    {clauses : List (Clause Piece)} :
    instructionsOf (t.rescueRows handler stored block clauses) = [] := by
  simp [TryFrame.rescueRows, Directive.instruction?,
    instructionsOf_flatMap (fun _ => instructionsOf_rows) clauses]

@[simp]
theorem instructionsOf_creates {t : TryFrame} {clauses : List (Clause Piece)} :
    instructionsOf (t.creates clauses) = [] := by
  rw [TryFrame.creates, instructionsOf_append, instructionsOf_flatMap fun _ => rfl]
  rfl

mutual

theorem map_instruction_pieceSites (around : List Guard) (p : Piece) :
    (p.sites around).map (·.instruction) = instructionsOf p.directives := by
  match p with
  | .give d => cases hd : d.instruction? <;> simp [Piece.sites, Piece.directives, hd]
  | .statement body => exact map_instruction_sites around body
  | .copy _ stillOpen body =>
      have hbody := map_instruction_sites (around.drop (around.length - stillOpen)) body
      simp [Piece.sites, Piece.directives, hbody, Directive.instruction?]
  | .tryCatch t block exit clauses none =>
      have hblock := map_instruction_sites (blockGuard clauses none :: around) block
      have hexit := map_instruction_sites around exit
      have hclauses := map_instruction_clauseSites [] around t.done clauses
      simp [Piece.sites, Piece.directives, clauseGuards, hblock, hexit, hclauses,
        Directive.instruction?]
  | .tryCatch t block exit clauses (some ⟨handler, stored, slot, body⟩) =>
      have hblock := map_instruction_sites
        (blockGuard clauses (some ⟨handler, stored, slot, body⟩) :: around) block
      have hexit := map_instruction_sites around exit
      have hclauses := map_instruction_clauseSites [[(none, handler)]] around t.done clauses
      have hbody := map_instruction_sites around body
      simp [Piece.sites, Piece.directives, clauseGuards, hblock, hexit, hclauses, hbody,
        Directive.instruction?]
termination_by structural p

theorem map_instruction_sites (around : List Guard) (ps : List Piece) :
    (sites around ps).map (·.instruction) = instructionsOf (layOut ps) := by
  match ps with
  | [] => rfl
  | p :: rest =>
      rw [sites, layOut, List.map_append, instructionsOf_append,
        map_instruction_pieceSites around p, map_instruction_sites around rest]
termination_by structural ps

theorem map_instruction_clauseSites (own around : List Guard) (done : Label)
    (clauses : List (Clause Piece)) :
    (clauseSites own around done clauses).map (·.instruction) =
      instructionsOf (layOutClauses done clauses) := by
  match clauses with
  | [] => rfl
  | ⟨_, stretch, slot, body, exit⟩ :: rest =>
      have hbody := map_instruction_sites (own ++ around) body
      have hexit := map_instruction_sites around exit
      have hrest := map_instruction_clauseSites own around done rest
      simp [clauseSites, layOutClauses, hbody, hexit, hrest, Directive.instruction?]
termination_by structural clauses

end

theorem length_pieceSites (around : List Guard) (p : Piece) :
    (p.sites around).length = size p.directives := by
  rw [size_eq_length, ← instructionsOf, ← map_instruction_pieceSites around, List.length_map]

theorem length_sites (around : List Guard) (ps : List Piece) :
    (sites around ps).length = size (layOut ps) := by
  rw [size_eq_length, ← instructionsOf, ← map_instruction_sites around, List.length_map]

theorem length_clauseSites (own around : List Guard) (done : Label)
    (clauses : List (Clause Piece)) :
    (clauseSites own around done clauses).length = size (layOutClauses done clauses) := by
  rw [size_eq_length, ← instructionsOf, ← map_instruction_clauseSites own around,
    List.length_map]

/-! ## Sites and positions -/

/-- Something holds of sites and the positions from `pc` on. -/
def ForSites (P : Nat → Site → Prop) : Nat → List Site → Prop
  | _, [] => True
  | pc, s :: rest => P pc s ∧ ForSites P (pc + 1) rest

theorem forSites_cons {P : Nat → Site → Prop} {pc : Nat} {s : Site} {ss : List Site} :
    ForSites P pc (s :: ss) ↔ P pc s ∧ ForSites P (pc + 1) ss := Iff.rfl

theorem forSites_append {P : Nat → Site → Prop} {pc : Nat} {ss ts : List Site} :
    ForSites P pc (ss ++ ts) ↔ ForSites P pc ss ∧ ForSites P (pc + ss.length) ts := by
  induction ss generalizing pc with
  | nil => simp [ForSites]
  | cons s ss ih =>
      rw [List.cons_append, forSites_cons, forSites_cons, ih, List.length_cons, and_assoc,
        Nat.add_comm ss.length 1, Nat.add_assoc]

/-- What holds of sites may use that their positions are among these. -/
theorem ForSites.imp {P Q : Nat → Site → Prop} {pc : Nat} {ss : List Site}
    (h : ForSites P pc ss) (hPQ : ∀ q s, pc ≤ q → q < pc + ss.length → P q s → Q q s) :
    ForSites Q pc ss := by
  induction ss generalizing pc with
  | nil => trivial
  | cons s ss ih =>
      rw [List.length_cons] at hPQ
      refine ⟨hPQ pc s (Nat.le_refl _) (by omega) h.1, ih h.2 fun q s h₁ h₂ => ?_⟩
      exact hPQ q s (by omega) (by omega)

theorem ForSites.get {P : Nat → Site → Prop} {pc : Nat} {ss : List Site} (h : ForSites P pc ss)
    {i : Nat} {s : Site} (hs : ss[i]? = some s) : P (pc + i) s := by
  induction ss generalizing pc i with
  | nil => simp at hs
  | cons s' ss ih =>
      cases i with
      | zero =>
          obtain rfl : s' = s := by simpa using hs
          exact h.1
      | succ i =>
          have := ih h.2 (by simpa using hs)
          rwa [Nat.add_assoc, Nat.add_comm 1 i] at this

/-! ## Where the parts of a try are -/

theorem size_eq_zero {ds : List Directive} (h : instructionsOf ds = []) : size ds = 0 := by
  rw [size_eq_length, ← instructionsOf, h, List.length_nil]

@[simp]
theorem size_creates {t : TryFrame} {clauses : List (Clause Piece)} :
    size (t.creates clauses) = 0 :=
  size_eq_zero instructionsOf_creates

@[simp]
theorem size_clauseRows {t : TryFrame} {block : List Piece} {clauses : List (Clause Piece)} :
    size (t.clauseRows block clauses) = 0 :=
  size_eq_zero instructionsOf_clauseRows

@[simp]
theorem size_rescueRows {t : TryFrame} {handler stored : Label} {block : List Piece}
    {clauses : List (Clause Piece)} : size (t.rescueRows handler stored block clauses) = 0 :=
  size_eq_zero instructionsOf_rescueRows

/-- The handler of a finally body is at `pc`. -/
structure LaidRescue (code : Code) (pc : Nat) (r : Rescue Piece) : Prop where
  handler : code.position r.handler = some pc
  store : code.instructions[pc]? = some ⟨.store, some (.slot r.slot)⟩
  stored : code.position r.stored = some (pc + 1)
  laid : Laid code (pc + 1) (layOut r.body)
  load : code.instructions[pc + 1 + size (layOut r.body)]? = some ⟨.load, some (.slot r.slot)⟩
  throw : code.instructions[pc + 1 + size (layOut r.body) + 1]? = some ⟨.throw, none⟩

/-- How many instructions the handler of a finally body has. -/
def rescueSize : Option (Rescue Piece) → Nat
  | none => 0
  | some r => 1 + size (layOut r.body) + 2

/-- A try is at `pc`, and its clauses, after the block and the copy of the finally
body, at `catches`. -/
structure LaidTry (code : Code) (pc : Nat) (t : TryFrame) (block exit : List Piece)
    (clauses : List (Clause Piece)) (rescue : Option (Rescue Piece)) (catches : Nat) : Prop where
  start : code.position t.stretch.1 = some pc
  laid_block : Laid code pc (layOut block)
  stop : code.position t.stretch.2 = some (pc + size (layOut block))
  laid_exit : Laid code (pc + size (layOut block)) (layOut exit)
  leave : code.instructions[pc + size (layOut block) + size (layOut exit)]? =
    some ⟨.goto, some (.label t.done)⟩
  catches_eq : catches = pc + size (layOut block) + size (layOut exit) + 1
  laid_clauses : Laid code catches (layOutClauses t.done clauses)
  laid_rescue : ∀ r ∈ rescue, LaidRescue code (catches + size (layOutClauses t.done clauses)) r
  done : code.position t.done =
    some (catches + size (layOutClauses t.done clauses) + rescueSize rescue)

theorem laid_tryCatch {code : Code} {pc : Nat} {t : TryFrame} {block exit : List Piece}
    {clauses : List (Clause Piece)} {rescue : Option (Rescue Piece)}
    (h : Laid code pc (Piece.tryCatch t block exit clauses rescue).directives) :
    ∃ catches, LaidTry code pc t block exit clauses rescue catches := by
  cases rescue with
  | none =>
      simp only [Piece.directives, laid_append, laid_cons, laid_nil, size_append, size_cons,
        size_nil, size_creates, size_clauseRows, Directive.width_place, Directive.width_emit,
        Directive.laidAt_place, Directive.laidAt_emit, Nat.add_zero, Nat.zero_add,
        ← Nat.add_assoc, and_true] at h
      obtain ⟨⟨⟨⟨⟨⟨⟨⟨-, hstart⟩, hblock⟩, hstop⟩, hexit⟩, hleave⟩, hclauses⟩, -⟩, hdone⟩ := h
      exact ⟨_, hstart, hblock, hstop, hexit, hleave, rfl, hclauses, by simp, hdone⟩
  | some r =>
      obtain ⟨handler, stored, slot, body⟩ := r
      simp only [Piece.directives, laid_append, laid_cons, laid_nil, size_append, size_cons,
        size_nil, size_creates, size_clauseRows, size_rescueRows, Directive.width_place,
        Directive.width_emit, Directive.width_create, Directive.laidAt_place,
        Directive.laidAt_emit, Nat.add_zero, Nat.zero_add, ← Nat.add_assoc, and_true] at h
      obtain ⟨⟨⟨⟨⟨⟨⟨⟨⟨-, hstart⟩, hblock⟩, hstop⟩, hexit⟩, hleave⟩, hclauses⟩, -⟩,
        ⟨⟨⟨-, -, hhandler, hstore, hstored⟩, hbody⟩, hload, hthrow⟩, -⟩, hdone⟩ := h
      refine ⟨_, hstart, hblock, hstop, hexit, hleave, rfl, hclauses, ?_, ?_⟩
      · rintro _ ⟨⟩
        exact ⟨hhandler, hstore, hstored, hbody, hload, hthrow⟩
      · simpa [rescueSize, ← Nat.add_assoc] using hdone

theorem size_tryCatch {t : TryFrame} {block exit : List Piece} {clauses : List (Clause Piece)}
    {rescue : Option (Rescue Piece)} :
    size (Piece.tryCatch t block exit clauses rescue).directives =
      size (layOut block) + size (layOut exit) + 1 + size (layOutClauses t.done clauses) +
        rescueSize rescue := by
  cases rescue <;> simp [Piece.directives, rescueSize] <;> omega

/-- A clause is at `pc`: the store of the caught object, the body, the copy of the
finally body, and the jump behind the try. -/
structure LaidClause (code : Code) (pc : Nat) (done : Label) (c : Clause Piece)
    (rest : List (Clause Piece)) : Prop where
  start : code.position c.stretch.1 = some pc
  store : code.instructions[pc]? = some ⟨.store, some (.slot c.slot)⟩
  laid_body : Laid code (pc + 1) (layOut c.body)
  stop : code.position c.stretch.2 = some (pc + 1 + size (layOut c.body))
  laid_exit : Laid code (pc + 1 + size (layOut c.body)) (layOut c.exit)
  leave : code.instructions[pc + 1 + size (layOut c.body) + size (layOut c.exit)]? =
    some ⟨.goto, some (.label done)⟩
  laid_rest : Laid code (pc + 1 + size (layOut c.body) + size (layOut c.exit) + 1)
    (layOutClauses done rest)

theorem laid_clause {code : Code} {pc : Nat} {done : Label} {c : Clause Piece}
    {rest : List (Clause Piece)} (h : Laid code pc (layOutClauses done (c :: rest))) :
    LaidClause code pc done c rest := by
  obtain ⟨_, stretch, slot, body, exit⟩ := c
  simp only [layOutClauses, laid_append, laid_cons, laid_nil, size_append, size_cons, size_nil,
    Directive.width_place, Directive.width_emit, Directive.laidAt_place, Directive.laidAt_emit,
    Nat.add_zero, Nat.zero_add, ← Nat.add_assoc, and_true] at h
  obtain ⟨⟨⟨⟨⟨⟨hstart, hstore⟩, hbody⟩, hstop⟩, hexit⟩, hleave⟩, hrest⟩ := h
  exact ⟨hstart, hstore, hbody, hstop, hexit, hleave, hrest⟩

theorem size_clause {done : Label} {c : Clause Piece} {rest : List (Clause Piece)} :
    size (layOutClauses done (c :: rest)) =
      1 + size (layOut c.body) + size (layOut c.exit) + 1 + size (layOutClauses done rest) := by
  simp [layOutClauses, Nat.add_assoc]

theorem laid_copy {code : Code} {pc : Nat} {stretch : Stretch} {stillOpen : Nat}
    {body : List Piece} (h : Laid code pc (Piece.copy stretch stillOpen body).directives) :
    code.position stretch.1 = some pc ∧ Laid code pc (layOut body) ∧
      code.position stretch.2 = some (pc + size (layOut body)) := by
  simp only [Piece.directives, laid_append, laid_cons, laid_nil, size_append, size_cons, size_nil,
    Directive.width_place, Directive.width_create, Directive.laidAt_place, Nat.add_zero,
    Nat.zero_add, and_true] at h
  obtain ⟨⟨⟨-, -, hstart⟩, hbody⟩, hstop⟩ := h
  exact ⟨hstart, hbody, hstop⟩

theorem size_copy {stretch : Stretch} {stillOpen : Nat} {body : List Piece} :
    size (Piece.copy stretch stillOpen body).directives = size (layOut body) := by
  simp [Piece.directives]

end MethodCompiler.Lowering
