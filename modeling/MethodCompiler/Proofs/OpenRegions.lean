import MethodCompiler.Proofs.Sites
import MethodCompiler.Proofs.StatementCode

/-!
# The regions that generation has open

Generation carries the open regions along, as the finally bodies that a jump out of them
has to run. `Emits` follows it: it goes through pieces with the regions that were open when
they were generated, and for each of them with what the region catches. The block of a try
opens a region with the guards of that try, and so does the body of a clause if there is a
finally body. A copy on the way out of a region is the code of its finally body generated
in the regions outside, and in these only.

So the numbers that pieces hold are right: how many regions are open around a try, and how
many remain open around a copy.
-/

namespace MethodCompiler.Lowering

open Annotated (Expr Stmt Catch)

/-- An open region: its finally body as generation knows it, and what it catches. -/
structure OpenRegion where
  region : Region
  guard : Guard
  /-- what its try catches anywhere -/
  catches : Guard

/-- An instruction and the regions that were open when it was generated, innermost
first. -/
structure OpenSite where
  instruction : Instruction
  /-- what catches before the regions do -/
  extra : Guard
  opened : List OpenRegion
  /-- the regions left by the copies that the instruction is part of -/
  left : List OpenRegion

/-- Everything that catches what the instruction throws, in order. -/
def OpenSite.guards (s : OpenSite) : Guard :=
  s.extra ++ s.opened.flatMap (·.guard)

/-- The code of a statement generated in open regions. -/
def StatementCode (opened : List OpenRegion) (s : Stmt) (body : List Piece) : Prop :=
  ∃ T n n', (stmt T (opened.map (·.region)) s).Yields n () [.statement body] n'

/-- The code of statements generated in open regions. -/
def BodyCode (opened : List OpenRegion) (body : List Stmt) (ps : List Piece) : Prop :=
  ∃ T n n', (stmts T (opened.map (·.region)) body).Yields n () ps n'

/-- The region of the block of a try. -/
def blockRegion (region : Region) (codes : List (Clause Piece)) (rescue : Option (Rescue Piece)) :
    OpenRegion :=
  ⟨region, blockGuard codes rescue, blockGuard codes rescue⟩

/-- The region of a clause: with a finally body, its handler guards the clause. -/
def clauseRegion (region : Region) (codes : List (Clause Piece))
    (rescue : Option (Rescue Piece)) : List OpenRegion :=
  (clauseGuards rescue).map (⟨region, ·, blockGuard codes rescue⟩)

mutual

/-- A piece generated in the regions `opened`, as part of copies that left the regions
`left`, and its instructions. -/
def Piece.Emits (opened left : List OpenRegion) : Piece → List OpenSite → Prop
  | .give d, ss => d.row? = none ∧ ss = d.instruction?.toList.map (⟨·, [], opened, left⟩)
  | .statement body, ss => (∃ s, StatementCode opened s body) ∧ Emits opened left body ss
  | .copy _ stillOpen body, ss => ∃ inside here outside last,
      opened = inside ++ here :: outside ∧ here.region = some last ∧
        stillOpen = outside.length ∧ BodyCode outside last body ∧
        Emits outside (inside ++ here :: left) body ss
  | .tryCatch t block exit codes rescue, ss => ∃ guarded clauses finalizer,
      StatementCode opened (.tryCatch guarded clauses finalizer)
          [.tryCatch t block exit codes rescue] ∧
        t.depth = opened.length ∧ rescue.isSome = finalizer.isSome ∧
        codes.map (·.exceptionType) = clauses.map (·.exceptionType) ∧
        BodyCode (blockRegion (finalizer.map (·.body)) codes rescue :: opened) guarded block ∧
        ∃ blockSites exitSites codesSites rescueSites,
          Emits (blockRegion (finalizer.map (·.body)) codes rescue :: opened) left block
            blockSites ∧
          Emits opened left exit exitSites ∧
          ClausesEmit (clauseRegion (finalizer.map (·.body)) codes rescue) opened left t.done codes
            codesSites ∧
          (match rescue with
            | none => rescueSites = []
            | some ⟨handler, _, slot, body⟩ => ∃ bodySites, Emits opened left body bodySites ∧
              rescueSites =
                [⟨⟨.store, some (.slot slot)⟩, [(none, handler)], opened, left⟩] ++ bodySites ++
                  [⟨⟨.load, some (.slot slot)⟩, [], opened, left⟩,
                    ⟨⟨.throw, none⟩, [], opened, left⟩]) ∧
          ss = blockSites ++ exitSites ++ [⟨⟨.goto, some (.label t.done)⟩, [], opened, left⟩] ++
            codesSites ++ rescueSites
termination_by structural p => p

/-- Pieces generated one after another in the regions `opened`. -/
def Emits (opened left : List OpenRegion) : List Piece → List OpenSite → Prop
  | [], ss => ss = []
  | p :: rest, ss => ∃ first others, p.Emits opened left first ∧ Emits opened left rest others ∧
      ss = first ++ others
termination_by structural ps => ps

/-- Clauses whose bodies are generated in the regions `own` too. -/
def ClausesEmit (own opened left : List OpenRegion) (done : Label) :
    List (Clause Piece) → List OpenSite → Prop
  | [], ss => ss = []
  | ⟨_, _, slot, body, exit⟩ :: rest, ss => ∃ bodySites exitSites others,
      Emits (own ++ opened) left body bodySites ∧ Emits opened left exit exitSites ∧
        ClausesEmit own opened left done rest others ∧
        ss = [⟨⟨.store, some (.slot slot)⟩, own.flatMap (·.guard), opened, left⟩] ++ bodySites ++
          exitSites ++ [⟨⟨.goto, some (.label done)⟩, [], opened, left⟩] ++ others
termination_by structural cs => cs

end

/-! ## Pieces that are generated -/

/-- Pieces generated in the regions `opened`. -/
def Emitted (opened left : List OpenRegion) (ps : List Piece) : Prop :=
  ∃ ss, Emits opened left ps ss

section Emitted

variable {opened left own : List OpenRegion} {ps qs body : List Piece}

theorem emits_append {ss ts : List OpenSite} (hp : Emits opened left ps ss)
    (hq : Emits opened left qs ts) : Emits opened left (ps ++ qs) (ss ++ ts) := by
  induction ps generalizing ss with
  | nil =>
      obtain rfl := hp
      exact hq
  | cons p ps ih =>
      obtain ⟨first, others, hfirst, hothers, rfl⟩ := hp
      exact ⟨first, others ++ ts, hfirst, ih hothers, List.append_assoc _ _ _⟩

theorem Emitted.append (hp : Emitted opened left ps) (hq : Emitted opened left qs) :
    Emitted opened left (ps ++ qs) := by
  obtain ⟨ss, hss⟩ := hp
  obtain ⟨ts, hts⟩ := hq
  exact ⟨_, emits_append hss hts⟩

theorem emitted_nil : Emitted opened left [] :=
  ⟨[], rfl⟩

theorem emitted_piece {p : Piece} {ss : List OpenSite} (h : p.Emits opened left ss) :
    Emitted opened left [p] :=
  ⟨_, ss, [], h, rfl, rfl⟩

theorem emitted_give {d : Directive} (hd : d.row? = none) : Emitted opened left [.give d] :=
  emitted_piece (p := .give d) ⟨hd, rfl⟩

theorem emitted_all (h : ∀ p ∈ ps, Emitted opened left [p]) : Emitted opened left ps := by
  induction ps with
  | nil => exact emitted_nil
  | cons p ps ih =>
      obtain ⟨hp, hps⟩ := List.forall_mem_cons.mp h
      exact hp.append (ih hps)

theorem emitted_statement {s : Stmt} (hs : StatementCode opened s body)
    (h : Emitted opened left body) : Emitted opened left [.statement body] := by
  obtain ⟨ss, hss⟩ := h
  exact emitted_piece (p := .statement body) ⟨⟨s, hs⟩, hss⟩

/-- Clauses whose bodies are generated in the regions `own` too. -/
def ClausesEmitted (own opened left : List OpenRegion) (codes : List (Clause Piece)) : Prop :=
  ∀ done, ∃ ss, ClausesEmit own opened left done codes ss

theorem clausesEmitted_nil : ClausesEmitted own opened left [] :=
  fun _ => ⟨[], rfl⟩

theorem clausesEmitted_cons {c : Clause Piece} {rest : List (Clause Piece)}
    (hbody : Emitted (own ++ opened) left c.body) (hexit : Emitted opened left c.exit)
    (hrest : ClausesEmitted own opened left rest) :
    ClausesEmitted own opened left (c :: rest) := by
  intro done
  obtain ⟨bodySites, hbody⟩ := hbody
  obtain ⟨exitSites, hexit⟩ := hexit
  obtain ⟨others, hothers⟩ := hrest done
  exact ⟨_, bodySites, exitSites, others, hbody, hexit, hothers, rfl⟩

end Emitted

/-! ## Statements -/

/-- No directive of a flat statement adds a row to the exception table. -/
theorem own_rowless (s : Stmt) : OwnDirectives (fun d => d.row? = none) s where
  create _ := rfl
  place _ := rfl
  emit _ _ := rfl
  dispatch d default cases := by
    rw [dispatchDirective]
    split <;> rfl
  exprs _ _ _ _ _ _ := rfl
  store _ _ _ := rfl

theorem map_clauseRegion {opened : List OpenRegion} {R : List Region}
    (hR : opened.map (·.region) = R) (region : Region) (codes : List (Clause Piece))
    {rescue : Option (Rescue Piece)} (h : rescue.isSome = region.isSome) :
    (clauseRegion region codes rescue ++ opened).map (·.region) = clauseRegions R region := by
  cases rescue <;> cases region <;> simp_all [clauseRegion, clauseGuards, clauseRegions]

/-- Each clause of a try has its code, under the same class. -/
theorem map_exceptionType_catches {T : Targets} {R : List Region} {region : Region}
    {clauses : List (Catch Stmt)} {first n n' : Nat} {codes : List (Clause Piece)}
    {ps : List Piece}
    (h : (catches T R region clauses (stretchesFrom first clauses.length)).Yields n codes ps n') :
    codes.map (·.exceptionType) = clauses.map (·.exceptionType) := by
  induction clauses generalizing first n codes with
  | nil =>
      obtain ⟨rfl, -⟩ := yields_catches_nil h
      rfl
  | cons c rest ih =>
      obtain ⟨code, k, exit, m, others, -, -, hothers, rfl⟩ := yields_catches_cons h
      rw [List.map_cons, List.map_cons, ih hothers]

theorem statementCode {T : Targets} {R : List Region} {opened : List OpenRegion} {s : Stmt}
    {n n' : Nat} {body : List Piece} (hR : opened.map (·.region) = R)
    (h : (stmt T R s).Yields n () [.statement body] n') : StatementCode opened s body :=
  ⟨T, n, n', hR ▸ h⟩

mutual

/-- Statements are generated in the regions that are open. -/
theorem emitted_stmt (T : Targets) (R : List Region) {opened : List OpenRegion}
    (left : List OpenRegion) (s : Stmt) (hR : opened.map (·.region) = R) {n n' : Nat}
    {ps : List Piece} (h : (stmt T R s).Yields n () ps n') : Emitted opened left ps := by
  by_cases hs : s.Flat
  · obtain ⟨body, rfl, hbody⟩ := composed_stmt hs (own_rowless s) h
    refine emitted_statement (statementCode hR h) (emitted_all fun p hp => ?_)
    obtain ⟨d, rfl, hd⟩ | ⟨ht, -, -, hcode⟩ | ⟨ht, -, -, -, hcode⟩ := hbody p hp
    · exact emitted_give hd
    · have := Stmt.sizeOf_lt_of_mem (List.mem_append_left _ ht)
      exact emitted_stmt T R left _ hR hcode
    · have := Stmt.sizeOf_lt_of_mem (List.mem_append_right _ ht)
      exact emitted_stmt _ R left _ hR hcode
  match s with
  | .tryCatch guarded clauses none =>
      obtain ⟨block, k, codes, hblock, hcodes, rfl⟩ := yields_tryCatch h
      have := sizeOf_clauses_pos clauses
      have hopened : (blockRegion none codes none :: opened).map (·.region) = none :: R := by
        rw [List.map_cons, hR]
        rfl
      obtain ⟨blockSites, hblock'⟩ := emitted_stmts T (none :: R) left guarded hopened hblock
      have hcopy : ∀ n ps n', (finallyCopy T R none).Yields n () ps n' →
          Emitted opened left ps := by
        intro n ps n' h
        obtain ⟨rfl, -⟩ := yields_finallyCopy_none h
        exact emitted_nil
      obtain ⟨codesSites, hcodes'⟩ :=
        clausesEmitted_catches T R left none codes none rfl clauses _ hR hcopy hcodes (n + 2)
      have hlength : R.length = opened.length := by rw [← hR, List.length_map]
      exact emitted_statement (statementCode hR h) (emitted_piece
        (p := .tryCatch ⟨R.length, (n, n + 1), n + 2⟩ block [] codes none)
        ⟨guarded, clauses, none, statementCode hR h, hlength, rfl, map_exceptionType_catches hcodes,
          ⟨T, _, _, hopened ▸ hblock⟩, blockSites, [], codesSites, [], hblock', rfl, hcodes', rfl,
          rfl⟩)
  | .tryCatch guarded clauses (some ⟨slot, body⟩) =>
      obtain ⟨block, k, exit, k', codes, e, rescue, hblock, hexit, hcodes, hrescue, rfl⟩ :=
        yields_tryFinally h
      have := sizeOf_clauses_pos clauses
      let handler : Rescue Piece := ⟨e, e + 1, slot, rescue⟩
      have hopened : (blockRegion (some body) codes (some handler) :: opened).map (·.region) =
          some body :: R := by
        rw [List.map_cons, hR]
        rfl
      obtain ⟨blockSites, hblock'⟩ := emitted_stmts T (some body :: R) left guarded hopened hblock
      obtain ⟨exitSites, hexit'⟩ := emitted_stmts T R left body hR hexit
      have hcopy : ∀ n ps n', (finallyCopy T R (some body)).Yields n () ps n' →
          Emitted opened left ps := fun n ps n' h =>
        emitted_stmts T R left body hR (yields_finallyCopy_some h)
      obtain ⟨codesSites, hcodes'⟩ := clausesEmitted_catches T R left (some body) codes
        (some handler) rfl clauses _ hR hcopy hcodes (n + 2)
      obtain ⟨rescueSites, hrescue'⟩ := emitted_stmts T R left body hR hrescue
      have hlength : R.length = opened.length := by rw [← hR, List.length_map]
      exact emitted_statement (statementCode hR h) (emitted_piece
        (p := .tryCatch ⟨R.length, (n, n + 1), n + 2⟩ block exit codes (some handler))
        ⟨guarded, clauses, some ⟨slot, body⟩, statementCode hR h, hlength, rfl,
          map_exceptionType_catches hcodes, ⟨T, _, _, hopened ▸ hblock⟩, blockSites, exitSites,
          codesSites, _, hblock', hexit', hcodes', ⟨rescueSites, hrescue', rfl⟩, rfl⟩)
  | .breakJump id =>
      obtain ⟨t, code, -, hcode, rfl⟩ := yields_breakJump h
      exact emitted_statement (statementCode hR h)
        ((emitted_crossed T t.depth R [] opened left hR hcode).append (emitted_give rfl))
  | .continueJump id =>
      obtain ⟨t, l, code, -, -, hcode, rfl⟩ := yields_continueJump h
      exact emitted_statement (statementCode hR h)
        ((emitted_crossed T t.depth R [] opened left hR hcode).append (emitted_give rfl))
  | .block _ | .localInit .. | .expression .. | .throw _ | .empty | .ifElse .. | .whileLoop ..
  | .doLoop .. | .forLoop .. | .switch .. => exact absurd trivial hs
termination_by sizeOf s + sizeOf R

theorem emitted_stmts (T : Targets) (R : List Region) {opened : List OpenRegion}
    (left : List OpenRegion) (body : List Stmt) (hR : opened.map (·.region) = R) {n n' : Nat}
    {ps : List Piece} (h : (stmts T R body).Yields n () ps n') : Emitted opened left ps := by
  match body with
  | [] =>
      obtain ⟨rfl, -⟩ := yields_nil h
      exact emitted_nil
  | s :: rest =>
      obtain ⟨code, m, codes, hcode, hcodes, rfl⟩ := yields_cons h
      exact (emitted_stmt T R left s hR hcode).append (emitted_stmts T R left rest hR hcodes)
termination_by sizeOf body + sizeOf R

theorem clausesEmitted_catches (T : Targets) (R : List Region) {opened : List OpenRegion}
    (left : List OpenRegion) (region : Region) (allCodes : List (Clause Piece))
    (rescue : Option (Rescue Piece)) (hrescue : rescue.isSome = region.isSome)
    (clauses : List (Catch Stmt))
    (stretches : List Stretch) (hR : opened.map (·.region) = R)
    (hcopy : ∀ n ps n', (finallyCopy T R region).Yields n () ps n' → Emitted opened left ps)
    {n n' : Nat} {codes : List (Clause Piece)} {ps : List Piece}
    (h : (catches T R region clauses stretches).Yields n codes ps n') :
    ClausesEmitted (clauseRegion region allCodes rescue) opened left codes := by
  match clauses, stretches with
  | ⟨_, _, body⟩ :: rest, stretch :: stretches =>
      obtain ⟨code, k, exit, m, others, hcode, hexit, hothers, rfl⟩ := yields_catches_cons h
      have := sizeOf_clauseRegions_le R region
      have hcode' := emitted_stmts T (clauseRegions R region) left body
        (map_clauseRegion hR region allCodes hrescue) hcode
      exact clausesEmitted_cons hcode' (hcopy _ _ _ hexit)
        (clausesEmitted_catches T R left region allCodes rescue hrescue rest stretches hR hcopy
          hothers)
  | [], _ =>
      obtain ⟨rfl, -⟩ := yields_catches_nil h
      exact clausesEmitted_nil
  | _ :: _, [] =>
      rw [catches] at h
      · obtain ⟨rfl, -⟩ := Gen.yields_pure.mp h
        exact clausesEmitted_nil
      · simp
termination_by sizeOf clauses + sizeOf region + sizeOf R

/-- A jump that has left the regions `inside` goes on with copies for those around them.
Each copy is generated in the regions outside its own. -/
theorem emitted_crossed (T : Targets) (depth : Nat) (R : List Region)
    (inside outside left : List OpenRegion) (hR : outside.map (·.region) = R) {n n' : Nat}
    {ps : List Piece} (h : (crossed T depth R).Yields n () ps n') :
    Emitted (inside ++ outside) left ps := by
  match R, outside with
  | [], _ =>
      obtain ⟨rfl, -⟩ := yields_crossed_nil h
      exact emitted_nil
  | none :: R, o :: outside =>
      by_cases hd : depth ≤ R.length
      · have hrest := emitted_crossed T depth R (inside ++ [o]) outside left
          (List.cons.inj hR).2 (yields_crossed_none hd h)
        rwa [List.append_assoc] at hrest
      · obtain ⟨rfl, -⟩ := yields_crossed_inside (by rw [List.length_cons]; omega) h
        exact emitted_nil
  | some last :: R, here :: outside =>
      obtain ⟨hhere, hR'⟩ := List.cons.inj hR
      by_cases hd : depth ≤ R.length
      · obtain ⟨copy, m, code, hcopy, hcode, rfl⟩ := yields_crossed_some hd h
        obtain ⟨ss, hss⟩ := emitted_stmts T R (inside ++ here :: left) last hR' hcopy
        have hrest := emitted_crossed T depth R (inside ++ [here]) outside left hR' hcode
        rw [List.append_assoc] at hrest
        have hlength : R.length = outside.length := by rw [← hR', List.length_map]
        exact (emitted_piece (p := .copy (n, n + 1) R.length copy) ⟨inside, here, outside, last,
          rfl, hhere, hlength, ⟨T, _, _, hR' ▸ hcopy⟩, hss⟩).append hrest
      · obtain ⟨rfl, -⟩ := yields_crossed_inside (by rw [List.length_cons]; omega) h
        exact emitted_nil
termination_by sizeOf R

end

theorem emitted_program {p : Annotated.Program} {n n' : Nat} {ps : List Piece}
    (h : (program p).Yields n () ps n') : Emitted [] [] ps := by
  obtain ⟨body, hbody, rfl⟩ := yields_program.mp h
  exact (emitted_stmts [] [] [] p.body rfl hbody).append (emitted_give rfl)

/-! ## The numbers that pieces hold -/

mutual

/-- A piece inside `depth` regions. -/
def Piece.Nested (depth : Nat) : Piece → Prop
  | .give d => d.row? = none
  | .statement body => Nested depth body
  | .copy _ stillOpen body => stillOpen < depth ∧ Nested stillOpen body
  | .tryCatch t block exit clauses rescue =>
    t.depth = depth ∧ Nested (depth + 1) block ∧ Nested depth exit ∧
      ClausesNested (depth + (clauseGuards rescue).length) depth clauses ∧
      match rescue with
      | none => True
      | some ⟨_, _, _, body⟩ => Nested depth body
termination_by structural p => p

/-- Pieces inside `depth` regions. -/
def Nested (depth : Nat) : List Piece → Prop
  | [] => True
  | p :: rest => p.Nested depth ∧ Nested depth rest
termination_by structural ps => ps

/-- Clauses inside `depth` regions, with bodies inside `inner` regions. -/
def ClausesNested (inner depth : Nat) : List (Clause Piece) → Prop
  | [] => True
  | ⟨_, _, _, body, exit⟩ :: rest =>
    Nested inner body ∧ Nested depth exit ∧ ClausesNested inner depth rest
termination_by structural cs => cs

end

theorem nested_tryCatch {depth : Nat} {t : TryFrame} {block exit : List Piece}
    {clauses : List (Clause Piece)} {rescue : Option (Rescue Piece)} :
    (Piece.tryCatch t block exit clauses rescue).Nested depth ↔
      t.depth = depth ∧ Nested (depth + 1) block ∧ Nested depth exit ∧
        ClausesNested (depth + (clauseGuards rescue).length) depth clauses ∧
        ∀ r ∈ rescue, Nested depth r.body := by
  cases rescue <;> simp [Piece.Nested]

mutual

theorem nested_of_emits_piece {opened left : List OpenRegion} {ss : List OpenSite} (p : Piece)
    (h : p.Emits opened left ss) : p.Nested opened.length := by
  match p with
  | .give d => exact h.1
  | .statement body => exact nested_of_emits body h.2
  | .copy _ stillOpen body =>
      obtain ⟨inside, here, outside, last, rfl, -, rfl, -, hbody⟩ := h
      refine ⟨?_, nested_of_emits body hbody⟩
      rw [List.length_append, List.length_cons]
      omega
  | .tryCatch t block exit codes none =>
      obtain ⟨_, _, _, -, hdepth, -, -, -, _, _, _, _, hblock, hexit, hcodes, -, -⟩ := h
      exact ⟨hdepth, nested_of_emits block hblock, nested_of_emits exit hexit,
        nested_of_clausesEmit codes hcodes, trivial⟩
  | .tryCatch t block exit codes (some ⟨handler, stored, slot, body⟩) =>
      obtain ⟨_, _, _, -, hdepth, -, -, -, _, _, _, _, hblock, hexit, hcodes, ⟨_, hbody, -⟩, -⟩ := h
      exact ⟨hdepth, nested_of_emits block hblock, nested_of_emits exit hexit,
        nested_of_clausesEmit codes hcodes, nested_of_emits body hbody⟩
termination_by structural p

theorem nested_of_emits {opened left : List OpenRegion} {ss : List OpenSite} (ps : List Piece)
    (h : Emits opened left ps ss) : Nested opened.length ps := by
  match ps with
  | [] => trivial
  | p :: rest =>
      obtain ⟨_, _, hp, hrest, -⟩ := h
      exact ⟨nested_of_emits_piece p hp, nested_of_emits rest hrest⟩
termination_by structural ps

theorem nested_of_clausesEmit {own opened left : List OpenRegion} {done : Label}
    {ss : List OpenSite} (codes : List (Clause Piece))
    (h : ClausesEmit own opened left done codes ss) :
    ClausesNested (opened.length + own.length) opened.length codes := by
  match codes with
  | [] => trivial
  | ⟨_, _, _, body, exit⟩ :: rest =>
      obtain ⟨_, _, _, hbody, hexit, hrest, -⟩ := h
      have hbody' := nested_of_emits body hbody
      rw [List.length_append, Nat.add_comm] at hbody'
      exact ⟨hbody', nested_of_emits exit hexit, nested_of_clausesEmit rest hrest⟩
termination_by structural codes

end

theorem nested_program {p : Annotated.Program} {n n' : Nat} {ps : List Piece}
    (h : (program p).Yields n () ps n') : Nested 0 ps := by
  obtain ⟨ss, hss⟩ := emitted_program h
  exact nested_of_emits ps hss

/-! ## Sites -/

/-- The site of an instruction in open regions. -/
def OpenSite.site (s : OpenSite) : Site :=
  ⟨s.instruction, s.extra, s.opened.map (·.guard)⟩

theorem OpenSite.site_mk (i : Instruction) (extra : Guard) (opened left : List OpenRegion) :
    site ⟨i, extra, opened, left⟩ = ⟨i, extra, opened.map (·.guard)⟩ := rfl

theorem guard_blockRegion (region : Region) (codes : List (Clause Piece))
    (rescue : Option (Rescue Piece)) :
    (blockRegion region codes rescue).guard = blockGuard codes rescue := rfl

theorem map_guard_clauseRegion (region : Region) (codes : List (Clause Piece))
    (rescue : Option (Rescue Piece)) :
    (clauseRegion region codes rescue).map (·.guard) = clauseGuards rescue := by
  simp [clauseRegion, Function.comp_def]

theorem OpenSite.site_guards (s : OpenSite) : s.site.guards = s.guards := by
  rw [Site.guards, OpenSite.guards, OpenSite.site, List.flatMap_def]

mutual

theorem map_site_piece {opened left : List OpenRegion} {ss : List OpenSite} (p : Piece)
    (h : p.Emits opened left ss) : ss.map (·.site) = p.sites (opened.map (·.guard)) := by
  match p with
  | .give d =>
      obtain ⟨-, rfl⟩ := h
      simp [Piece.sites, OpenSite.site_mk, Function.comp_def]
  | .statement body => exact map_site body h.2
  | .copy _ stillOpen body =>
      obtain ⟨inside, here, outside, last, rfl, -, rfl, -, hbody⟩ := h
      have hsplit : (inside ++ here :: outside).map (·.guard) =
          (inside.map (·.guard) ++ [here.guard]) ++ outside.map (·.guard) := by
        simp
      rw [map_site body hbody, Piece.sites, hsplit, List.drop_left']
      simp only [List.length_append, List.length_map, List.length_singleton]
      omega
  | .tryCatch t block exit codes none =>
      obtain ⟨_, _, _, -, -, -, -, -, _, _, _, _, hblock, hexit, hcodes, rfl, rfl⟩ := h
      have hblock' := map_site block hblock
      have hexit' := map_site exit hexit
      have hcodes' := map_site_clauses codes hcodes
      rw [map_guard_clauseRegion] at hcodes'
      simp [Piece.sites, hblock', hexit', hcodes', OpenSite.site_mk, guard_blockRegion]
  | .tryCatch t block exit codes (some ⟨handler, stored, slot, body⟩) =>
      obtain ⟨_, _, _, -, -, -, -, -, _, _, _, _, hblock, hexit, hcodes, ⟨_, hbody, rfl⟩, rfl⟩ := h
      have hblock' := map_site block hblock
      have hexit' := map_site exit hexit
      have hcodes' := map_site_clauses codes hcodes
      have hbody' := map_site body hbody
      rw [map_guard_clauseRegion] at hcodes'
      simp [Piece.sites, hblock', hexit', hcodes', hbody', OpenSite.site_mk, guard_blockRegion]
termination_by structural p

/-- The regions that were open are those around the sites of the pieces. -/
theorem map_site {opened left : List OpenRegion} {ss : List OpenSite} (ps : List Piece)
    (h : Emits opened left ps ss) : ss.map (·.site) = sites (opened.map (·.guard)) ps := by
  match ps with
  | [] =>
      obtain rfl := h
      rfl
  | p :: rest =>
      obtain ⟨first, others, hp, hrest, rfl⟩ := h
      rw [List.map_append, map_site_piece p hp, map_site rest hrest, sites]
termination_by structural ps

theorem map_site_clauses {own opened left : List OpenRegion} {done : Label} {ss : List OpenSite}
    (codes : List (Clause Piece)) (h : ClausesEmit own opened left done codes ss) :
    ss.map (·.site) = clauseSites (own.map (·.guard)) (opened.map (·.guard)) done codes := by
  match codes with
  | [] =>
      obtain rfl := h
      rfl
  | ⟨_, stretch, slot, body, exit⟩ :: rest =>
      obtain ⟨_, _, _, hbody, hexit, hrest, rfl⟩ := h
      have hbody' := map_site body hbody
      have hexit' := map_site exit hexit
      have hrest' := map_site_clauses rest hrest
      rw [List.map_append] at hbody'
      simp [clauseSites, hbody', hexit', hrest', OpenSite.site_mk, List.flatMap_def]
termination_by structural codes

end

/-! ## Where handlers are -/

variable {code : Code}

/-- No handler of the one is where one of the other is. -/
def Apart (code : Code) (g g' : Guard) : Prop :=
  ∀ c ∈ g, ∀ c' ∈ g', code.position c.2 ≠ code.position c'.2

/-- The handlers are somewhere outside the positions from `pc` to before `stop`. -/
def Outside (code : Code) (pc stop : Nat) (g : Guard) : Prop :=
  ∀ c ∈ g, ∃ k, code.position c.2 = some k ∧ (k < pc ∨ stop ≤ k)

/-- The handlers are somewhere among these positions. -/
def Among (code : Code) (pc stop : Nat) (g : Guard) : Prop :=
  ∀ c ∈ g, ∃ k, code.position c.2 = some k ∧ pc ≤ k ∧ k < stop

theorem Outside.apart {pc stop : Nat} {g g' : Guard} (h : Outside code pc stop g)
    (h' : Among code pc stop g') : Apart code g g' := by
  intro c hc c' hc' heq
  obtain ⟨k, hk, hout⟩ := h c hc
  obtain ⟨k', hk', hle, hlt⟩ := h' c' hc'
  rw [hk, hk'] at heq
  obtain rfl := Option.some.inj heq
  omega

theorem Among.apart {pc stop : Nat} {g g' : Guard} (h : Among code pc stop g)
    (h' : Outside code pc stop g') : Apart code g g' :=
  fun c hc c' hc' heq => h'.apart h c' hc' c hc heq.symm

theorem Outside.mono {pc stop pc' stop' : Nat} {g : Guard} (h : Outside code pc stop g)
    (hpc : pc ≤ pc') (hstop : stop' ≤ stop) : Outside code pc' stop' g := by
  intro c hc
  obtain ⟨k, hk, hout⟩ := h c hc
  exact ⟨k, hk, by omega⟩

/-- Pieces from `pc` to before `stop` in the regions `opened`, as part of copies that left the
regions `left`: the handlers of all these tries are elsewhere, and those of a try that was left
are apart from what guards the regions that are still open. -/
structure Clear (code : Code) (pc stop : Nat) (opened left : List OpenRegion) : Prop where
  guards : ∀ r ∈ opened, Outside code pc stop r.guard
  around : ∀ r ∈ opened, Outside code pc stop r.catches
  gone : ∀ r ∈ left, Outside code pc stop r.catches
  nested : opened.Pairwise fun r r' => Apart code r.catches r'.guard
  apart : ∀ r ∈ left, ∀ r' ∈ opened, Apart code r.catches r'.guard

namespace Clear

variable {pc stop pc' stop' : Nat} {opened left : List OpenRegion}

theorem mono (h : Clear code pc stop opened left) (hpc : pc ≤ pc') (hstop : stop' ≤ stop) :
    Clear code pc' stop' opened left where
  guards r hr := (h.guards r hr).mono hpc hstop
  around r hr := (h.around r hr).mono hpc hstop
  gone r hr := (h.gone r hr).mono hpc hstop
  nested := h.nested
  apart := h.apart

/-- A region is opened by a try among these positions. -/
theorem cons {r : OpenRegion} (h : Clear code pc stop opened left) (hpc : pc ≤ pc')
    (hstop : stop' ≤ stop) (hguard : Among code pc stop r.guard)
    (hcatches : Among code pc stop r.catches) (hguard' : Outside code pc' stop' r.guard)
    (hcatches' : Outside code pc' stop' r.catches) : Clear code pc' stop' (r :: opened) left := by
  have hsame := h.mono hpc hstop
  refine ⟨?_, ?_, hsame.gone, ?_, ?_⟩
  · exact List.forall_mem_cons.mpr ⟨hguard', hsame.guards⟩
  · exact List.forall_mem_cons.mpr ⟨hcatches', hsame.around⟩
  · exact List.pairwise_cons.mpr ⟨fun r' hr' => hcatches.apart (h.guards r' hr'), h.nested⟩
  · intro l hl
    exact List.forall_mem_cons.mpr ⟨(h.gone l hl).apart hguard, h.apart l hl⟩

/-- A copy leaves some of the regions. -/
theorem leave {inside outside : List OpenRegion}
    (h : Clear code pc stop (inside ++ outside) left) :
    Clear code pc stop outside (inside ++ left) := by
  obtain ⟨-, hnested, hapart⟩ := List.pairwise_append.mp h.nested
  refine ⟨fun r hr => h.guards r (List.mem_append_right _ hr),
    fun r hr => h.around r (List.mem_append_right _ hr), fun r hr => ?_, hnested, fun r hr => ?_⟩
  · obtain hr | hr := List.mem_append.mp hr
    · exact h.around r (List.mem_append_left _ hr)
    · exact h.gone r hr
  · obtain hr | hr := List.mem_append.mp hr
    · exact hapart r hr
    · exact fun r' hr' => h.apart r hr r' (List.mem_append_right _ hr')

/-- An instruction that is caught by regions around it, and first by something nearer. -/
theorem site (h : Clear code pc stop opened left) {i : Instruction} {extra : Guard}
    (hextra : Among code pc stop extra) :
    ∀ r ∈ left, Apart code r.catches (OpenSite.guards ⟨i, extra, opened, left⟩) := by
  intro r hr c hc c' hc'
  obtain hc' | hc' := List.mem_append.mp hc'
  · exact (h.gone r hr).apart hextra c hc c' hc'
  · obtain ⟨r', hr', hc'⟩ := List.mem_flatMap.mp hc'
    exact h.apart r hr r' hr' c hc c' hc'

/-- The body of a clause may be in a region of its own. -/
theorem append {own : List OpenRegion} (h : Clear code pc stop opened left)
    (hone : own.length ≤ 1) (hpc : pc ≤ pc') (hstop : stop' ≤ stop)
    (hown : ∀ r ∈ own, Among code pc stop r.guard ∧ Among code pc stop r.catches ∧
      Outside code pc' stop' r.guard ∧ Outside code pc' stop' r.catches) :
    Clear code pc' stop' (own ++ opened) left := by
  match own with
  | [] => exact h.mono hpc hstop
  | [r] =>
      obtain ⟨hguard, hcatches, hguard', hcatches'⟩ := hown r (List.mem_singleton_self r)
      exact h.cons hpc hstop hguard hcatches hguard' hcatches'

end Clear

section Laid

variable {pc catches : Nat} {t : TryFrame} {block exit : List Piece}
  {codes : List (Clause Piece)} {rescue : Option (Rescue Piece)} {done : Label}

theorem among_nil {stop : Nat} : Among code pc stop [] := by
  simp [Among]

theorem Among.mono {stop pc' stop' : Nat} {g : Guard} (h : Among code pc stop g) (hpc : pc' ≤ pc)
    (hstop : stop ≤ stop') : Among code pc' stop' g := by
  intro c hc
  obtain ⟨k, hk, hle, hlt⟩ := h c hc
  exact ⟨k, hk, by omega, by omega⟩

theorem position_clause (h : Laid code pc (layOutClauses done codes)) {c : Clause Piece}
    (hc : c ∈ codes) : ∃ k, code.position c.stretch.1 = some k ∧ pc ≤ k ∧
      k < pc + size (layOutClauses done codes) := by
  induction codes generalizing pc with
  | nil => cases hc
  | cons d rest ih =>
      have hl := laid_clause h
      rw [size_clause]
      obtain rfl | hc := List.mem_cons.mp hc
      · exact ⟨pc, hl.start, Nat.le_refl _, by omega⟩
      · obtain ⟨k, hk, hle, hlt⟩ := ih hl.laid_rest hc
        exact ⟨k, hk, by omega, by omega⟩

/-- The handlers of a try are behind its block. -/
theorem LaidTry.among (hl : LaidTry code pc t block exit codes rescue catches) :
    Among code catches (pc + size (Piece.tryCatch t block exit codes rescue).directives)
      (blockGuard codes rescue) := by
  have hcatches := hl.catches_eq
  rw [size_tryCatch]
  intro c hc
  obtain hc | hc := List.mem_append.mp hc
  · obtain ⟨clause, hclause, rfl⟩ := List.mem_map.mp hc
    obtain ⟨k, hk, hle, hlt⟩ := position_clause hl.laid_clauses hclause
    exact ⟨k, hk, hle, by omega⟩
  · cases rescue with
    | none => simp [clauseGuards] at hc
    | some r =>
        obtain rfl : c = (none, r.handler) := by simpa [clauseGuards] using hc
        exact ⟨_, (hl.laid_rescue r rfl).handler, by omega, by simp only [rescueSize]; omega⟩

/-- The block of a try is in a region whose handlers are behind it. -/
theorem LaidTry.clear (hl : LaidTry code pc t block exit codes rescue catches)
    {opened left : List OpenRegion} (region : Region)
    (hc : Clear code pc (pc + size (Piece.tryCatch t block exit codes rescue).directives) opened
      left) :
    Clear code pc (pc + size (layOut block)) (blockRegion region codes rescue :: opened) left := by
  have hcatches := hl.catches_eq
  have hsize : size (layOut block) ≤ size (Piece.tryCatch t block exit codes rescue).directives := by
    rw [size_tryCatch]
    omega
  have hamong := hl.among.mono (show pc ≤ catches by omega) (Nat.le_refl _)
  have houtside : Outside code pc (pc + size (layOut block)) (blockGuard codes rescue) := by
    intro c hc
    obtain ⟨k, hk, hle, -⟩ := hl.among c hc
    exact ⟨k, hk, .inr (by omega)⟩
  exact hc.cons (Nat.le_refl _) (by omega) hamong hamong houtside houtside

theorem length_clauseRegion_le (region : Region) :
    (clauseRegion region codes rescue).length ≤ 1 := by
  cases rescue <;> simp [clauseRegion, clauseGuards]

theorem flatten_clauseGuards_subset {c : Option String × Label}
    (hc : c ∈ (clauseGuards rescue).flatten) : c ∈ blockGuard codes rescue :=
  List.mem_append_right _ hc

/-- Where the handlers of the region of a clause are, seen from clauses of the try. -/
structure ClauseClear (code : Code) (lo hi pc stop : Nat) (codes : List (Clause Piece))
    (r : OpenRegion) : Prop where
  guard : Among code lo hi r.guard
  catches : Among code lo hi r.catches
  behind : Outside code pc stop r.guard
  elsewhere : ∀ c ∈ r.catches, c.2 ∈ codes.map (·.stretch.1) ∨
    ∃ k, code.position c.2 = some k ∧ (k < pc ∨ stop ≤ k)

theorem LaidTry.clauseClear (hl : LaidTry code pc t block exit codes rescue catches)
    {region : Region} {r : OpenRegion} (hr : r ∈ clauseRegion region codes rescue) :
    ClauseClear code pc (pc + size (Piece.tryCatch t block exit codes rescue).directives) catches
      (catches + size (layOutClauses t.done codes)) codes r := by
  have hcatches := hl.catches_eq
  have hamong := hl.among.mono (show pc ≤ catches by omega) (Nat.le_refl _)
  cases rescue with
  | none => simp [clauseRegion, clauseGuards] at hr
  | some rescue =>
      obtain rfl : r = ⟨region, [(none, rescue.handler)], blockGuard codes (some rescue)⟩ := by
        simpa [clauseRegion, clauseGuards] using hr
      have hhandler := (hl.laid_rescue rescue rfl).handler
      refine ⟨fun c hc => hamong c (flatten_clauseGuards_subset hc), hamong, fun c hc => ?_,
        fun c hc => ?_⟩
      · obtain rfl := List.mem_singleton.mp hc
        exact ⟨_, hhandler, .inr (Nat.le_refl _)⟩
      · obtain hc | hc := List.mem_append.mp hc
        · obtain ⟨clause, hclause, rfl⟩ := List.mem_map.mp hc
          exact .inl (List.mem_map_of_mem hclause)
        · obtain rfl : c = (none, rescue.handler) := by simpa [clauseGuards] using hc
          exact .inr ⟨_, hhandler, .inr (Nat.le_refl _)⟩

end Laid

mutual

/-- In a copy, nothing that catches is a handler of a try that was left. -/
theorem apart_piece {opened left : List OpenRegion} {ss : List OpenSite} (p : Piece) {pc : Nat}
    (hl : Laid code pc p.directives) (h : p.Emits opened left ss)
    (hc : Clear code pc (pc + size p.directives) opened left) :
    ∀ s ∈ ss, ∀ r ∈ s.left, Apart code r.catches s.guards := by
  match p with
  | .give d =>
      obtain ⟨-, rfl⟩ := h
      intro s hs
      obtain ⟨i, -, rfl⟩ := List.mem_map.mp hs
      exact hc.site among_nil
  | .statement body => exact apart_pieces body hl h.2 hc
  | .copy stretch stillOpen body =>
      obtain ⟨inside, here, outside, last, rfl, -, -, -, hbody⟩ := h
      obtain ⟨-, hlaid, -⟩ := laid_copy hl
      rw [size_copy] at hc
      rw [List.append_cons] at hc hbody
      exact apart_pieces body hlaid hbody hc.leave
  | .tryCatch t block exit codes none =>
      obtain ⟨catches, hl⟩ := laid_tryCatch hl
      obtain ⟨_, _, _, -, -, -, -, -, _, _, _, _, hblock, hexit, hcodes, rfl, rfl⟩ := h
      have hcatches := hl.catches_eq
      have hblock' := apart_pieces block hl.laid_block hblock (hl.clear _ hc)
      have hcodes' := apart_clauses codes hl.laid_clauses hcodes hc (by omega)
        (by rw [size_tryCatch]; omega) (length_clauseRegion_le _) fun r => hl.clauseClear
      have hexit' := apart_pieces exit hl.laid_exit hexit
        (hc.mono (by omega) (by rw [size_tryCatch]; omega))
      simp only [List.forall_mem_append, List.forall_mem_singleton, List.append_nil]
      exact ⟨⟨⟨hblock', hexit'⟩, hc.site among_nil⟩, hcodes'⟩
  | .tryCatch t block exit codes (some ⟨handler, stored, slot, body⟩) =>
      obtain ⟨catches, hl⟩ := laid_tryCatch hl
      obtain ⟨_, _, _, -, -, -, -, -, _, _, _, _, hblock, hexit, hcodes, ⟨_, hbody, rfl⟩, rfl⟩ := h
      have hcatches := hl.catches_eq
      have hblock' := apart_pieces block hl.laid_block hblock (hl.clear _ hc)
      have hcodes' := apart_clauses codes hl.laid_clauses hcodes hc (by omega)
        (by rw [size_tryCatch]; omega) (length_clauseRegion_le _) fun r => hl.clauseClear
      have hexit' := apart_pieces exit hl.laid_exit hexit
        (hc.mono (by omega) (by rw [size_tryCatch]; omega))
      have hbody' := apart_pieces body (hl.laid_rescue _ rfl).laid hbody
        (hc.mono (by omega) (by rw [size_tryCatch]; simp only [rescueSize]; omega))
      have hstore : Among code pc (pc + size (Piece.tryCatch t block exit codes
          (some ⟨handler, stored, slot, body⟩)).directives) [(none, handler)] := fun c hc =>
        hl.among.mono (by omega) (Nat.le_refl _) c (flatten_clauseGuards_subset hc)
      simp only [List.forall_mem_append, List.forall_mem_cons, List.not_mem_nil, false_implies,
        implies_true, and_true]
      exact ⟨⟨⟨⟨hblock', hexit'⟩, hc.site among_nil⟩, hcodes'⟩,
        ⟨hc.site hstore, hbody'⟩, hc.site among_nil, hc.site among_nil⟩
termination_by structural p

theorem apart_pieces {opened left : List OpenRegion} {ss : List OpenSite} (ps : List Piece)
    {pc : Nat} (hl : Laid code pc (layOut ps)) (h : Emits opened left ps ss)
    (hc : Clear code pc (pc + size (layOut ps)) opened left) :
    ∀ s ∈ ss, ∀ r ∈ s.left, Apart code r.catches s.guards := by
  match ps with
  | [] =>
      obtain rfl := h
      simp
  | p :: rest =>
      obtain ⟨first, others, hp, hrest, rfl⟩ := h
      obtain ⟨hlp, hlrest⟩ := laid_append.mp hl
      rw [layOut, size_append] at hc
      refine List.forall_mem_append.mpr ⟨?_, ?_⟩
      · exact apart_piece p hlp hp (hc.mono (Nat.le_refl _) (by omega))
      · exact apart_pieces rest hlrest hrest (hc.mono (by omega) (by omega))
termination_by structural ps

theorem apart_clauses {own opened left : List OpenRegion} {ss : List OpenSite} {done : Label}
    (codes : List (Clause Piece)) {pc lo hi : Nat} (hl : Laid code pc (layOutClauses done codes))
    (h : ClausesEmit own opened left done codes ss) (hc : Clear code lo hi opened left)
    (hlo : lo ≤ pc) (hhi : pc + size (layOutClauses done codes) ≤ hi) (hone : own.length ≤ 1)
    (hown : ∀ r ∈ own,
      ClauseClear code lo hi pc (pc + size (layOutClauses done codes)) codes r) :
    ∀ s ∈ ss, ∀ r ∈ s.left, Apart code r.catches s.guards := by
  match codes with
  | [] =>
      obtain rfl := h
      simp
  | ⟨ty, stretch, slot, body, exit⟩ :: rest =>
      obtain ⟨_, _, _, hbody, hexit, hrest, rfl⟩ := h
      have hclause := laid_clause hl
      have hlbody : Laid code (pc + 1) (layOut body) := hclause.laid_body
      have hlexit : Laid code (pc + 1 + size (layOut body)) (layOut exit) := hclause.laid_exit
      have hlrest : Laid code (pc + 1 + size (layOut body) + size (layOut exit) + 1)
        (layOutClauses done rest) := hclause.laid_rest
      rw [size_clause] at hhi hown
      simp only at hhi hown
      -- This clause starts before its body, and the others are behind it.
      have hlater : ∀ {l : Label}, l ∈ rest.map (·.stretch.1) → ∃ k, code.position l = some k ∧
          pc + 1 + size (layOut body) + size (layOut exit) + 1 ≤ k := by
        intro l hl
        obtain ⟨c, hc, rfl⟩ := List.mem_map.mp hl
        obtain ⟨k, hk, hle, -⟩ := position_clause hlrest hc
        exact ⟨k, hk, hle⟩
      have hinBody : ∀ r ∈ own, Among code lo hi r.guard ∧ Among code lo hi r.catches ∧
          Outside code (pc + 1) (pc + 1 + size (layOut body)) r.guard ∧
          Outside code (pc + 1) (pc + 1 + size (layOut body)) r.catches := by
        intro r hr
        have hclear := hown r hr
        refine ⟨hclear.guard, hclear.catches, hclear.behind.mono (by omega) (by omega),
          fun c hc => ?_⟩
        obtain hc | ⟨k, hk, hout⟩ := hclear.elsewhere c hc
        · obtain hc | hc := List.mem_cons.mp hc
          · exact ⟨pc, hc ▸ hclause.start, .inl (by omega)⟩
          · obtain ⟨k, hk, hle⟩ := hlater hc
            exact ⟨k, hk, .inr (by omega)⟩
        · exact ⟨k, hk, by omega⟩
      have hbehind : ∀ r ∈ own, ClauseClear code lo hi
          (pc + 1 + size (layOut body) + size (layOut exit) + 1)
          (pc + 1 + size (layOut body) + size (layOut exit) + 1 +
            size (layOutClauses done rest)) rest r := by
        intro r hr
        have hclear := hown r hr
        refine ⟨hclear.guard, hclear.catches, hclear.behind.mono (by omega) (by omega),
          fun c hc => ?_⟩
        obtain hc | ⟨k, hk, hout⟩ := hclear.elsewhere c hc
        · obtain hc | hc := List.mem_cons.mp hc
          · exact .inr ⟨pc, hc ▸ hclause.start, .inl (by omega)⟩
          · exact .inl hc
        · exact .inr ⟨k, hk, by omega⟩
      have hstore : Among code lo hi (own.flatMap (·.guard)) := by
        intro c hc
        obtain ⟨r, hr, hc⟩ := List.mem_flatMap.mp hc
        exact (hown r hr).guard c hc
      have hbody' := apart_pieces body hlbody hbody
        (hc.append hone (by omega) (by omega) hinBody)
      have hexit' := apart_pieces exit hlexit hexit (hc.mono (by omega) (by omega))
      have hrest' := apart_clauses rest hlrest hrest hc (by omega) (by omega) hone hbehind
      simp only [List.forall_mem_append, List.forall_mem_singleton]
      exact ⟨⟨⟨⟨hc.site hstore, hbody'⟩, hexit'⟩, hc.site among_nil⟩, hrest'⟩
termination_by structural codes

end

end MethodCompiler.Lowering
