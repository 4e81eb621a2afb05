import MethodCompiler.Proofs.Slots
import MethodCompiler.Proofs.StatementCode
import MethodCompiler.Proofs.Switches

/-!
# Operands of generated code

An opcode says nothing about its operand, and the machine looks at the operand only when
the instruction runs. Generated instructions have operands of the kind that the machine
wants, the slots among them are slots of the tree, and the pairs of a sparse switch are in
order. No more is needed of a tree than that its slots are counted: copies of finally
bodies bring no slots of their own.
-/

namespace MethodCompiler

/-- A directive that emits a shaped instruction, if it emits any. How large a dense switch
is has been checked by the assembler. -/
def Directive.Shaped (slots : Nat) : Directive → Prop
  | .emit i => i.Shaped slots
  | .lookup _ _ pairs => (pairs.map (·.1)).Pairwise (· < ·)
  | .create _ | .place _ | .table .. | .handler .. => True

/-- Sorted pairs stay sorted. -/
theorem Assoc.pairwise_insertSorted {key : Int32} {value : α} {l : List (Int32 × α)}
    (h : (l.map (·.1)).Pairwise (· < ·)) :
    ((insertSorted key value l).map (·.1)).Pairwise (· < ·) := by
  induction l with
  | nil => exact List.pairwise_singleton _ _
  | cons p rest ih =>
      obtain ⟨k, v⟩ := p
      rw [List.map_cons, List.pairwise_cons] at h
      rw [insertSorted]
      split
      · next hk =>
          obtain rfl := eq_of_beq hk
          exact List.pairwise_cons.mpr h
      · next hk =>
          split
          · next hlt =>
              refine List.pairwise_cons.mpr ⟨?_, List.pairwise_cons.mpr h⟩
              intro k' hk'
              obtain rfl | hk' := List.mem_cons.mp hk'
              · exact hlt
              · exact Int32.lt_trans hlt (h.1 k' hk')
          · next hnlt =>
              refine List.pairwise_cons.mpr ⟨?_, ih h.2⟩
              intro k' hk'
              obtain ⟨p, hp, rfl⟩ := List.mem_map.mp hk'
              obtain rfl | hp := mem_insertSorted hp
              · exact Int32.lt_of_le_of_ne (Int32.not_lt.mp hnlt) (by simpa using hk)
              · exact h.1 _ (List.mem_map_of_mem hp)

namespace Lowering

open Annotated (Expr Stmt Catch)

theorem pairwise_sortedTargets (cases : List CaseTarget) :
    ((sortedTargets cases).map (·.1)).Pairwise (· < ·) := by
  have hsorted : ∀ sorted : List (Int32 × Label), (sorted.map (·.1)).Pairwise (· < ·) →
      ((cases.foldl (fun sorted c => Assoc.insertSorted c.value c.label sorted) sorted).map
        (·.1)).Pairwise (· < ·) := by
    induction cases with
    | nil => exact fun _ h => h
    | cons c rest ih => exact fun sorted h => ih _ (Assoc.pairwise_insertSorted h)
  exact hsorted [] List.Pairwise.nil

/-! ## Pieces -/

/-- All that pieces emit is shaped. -/
def AllShaped (slots : Nat) (ps : List Piece) : Prop :=
  ∀ d ∈ layOut ps, d.Shaped slots

section Pieces

variable {slots : Nat} {ps qs : List Piece} {d : Directive}

theorem allShaped_nil : AllShaped slots [] := by
  simp [AllShaped, layOut]

theorem allShaped_append (hp : AllShaped slots ps) (hq : AllShaped slots qs) :
    AllShaped slots (ps ++ qs) := by
  rw [AllShaped, layOut_append]
  exact List.forall_mem_append.mpr ⟨hp, hq⟩

theorem allShaped_all (h : ∀ p ∈ ps, AllShaped slots [p]) : AllShaped slots ps := by
  induction ps with
  | nil => exact allShaped_nil
  | cons p ps ih =>
      obtain ⟨hp, hps⟩ := List.forall_mem_cons.mp h
      exact allShaped_append hp (ih hps)

theorem allShaped_give (h : d.Shaped slots) : AllShaped slots [.give d] := by
  simpa [AllShaped, layOut, Piece.directives] using h

theorem allShaped_statement (h : AllShaped slots ps) : AllShaped slots [.statement ps] := by
  simpa [AllShaped, layOut, Piece.directives] using h

theorem allShaped_copy {stretch : Stretch} {stillOpen : Nat} (h : AllShaped slots ps) :
    AllShaped slots [.copy stretch stillOpen ps] := by
  intro d hd
  simp only [layOut, Piece.directives, List.append_nil, List.mem_append, List.mem_cons,
    List.not_mem_nil, or_false] at hd
  obtain ((rfl | rfl | rfl) | hd) | rfl := hd
  · trivial
  · trivial
  · trivial
  · exact h d hd
  · trivial

theorem shaped_rows {handler start stop : Label} {catchType : Option String} {gaps : List Stretch} :
    ∀ d ∈ rows handler catchType start stop gaps, d.Shaped slots := by
  induction gaps generalizing start with
  | nil =>
      intro d hd
      obtain rfl := List.mem_singleton.mp hd
      trivial
  | cons gap rest ih => exact List.forall_mem_cons.mpr ⟨trivial, ih⟩

/-- The code of a catch clause is shaped. -/
def Clause.Shaped (slots : Nat) (c : Clause Piece) : Prop :=
  c.slot < slots ∧ AllShaped slots c.body ∧ AllShaped slots c.exit

theorem shaped_layOutClauses {done : Label} {codes : List (Clause Piece)}
    (h : ∀ c ∈ codes, c.Shaped slots) : ∀ d ∈ layOutClauses done codes, d.Shaped slots := by
  induction codes with
  | nil => simp [layOutClauses]
  | cons c rest ih =>
      obtain ⟨⟨hslot, hbody, hexit⟩, hrest⟩ := List.forall_mem_cons.mp h
      obtain ⟨_, stretch, slot, body, exit⟩ := c
      simp only [layOutClauses, List.forall_mem_append, List.forall_mem_cons, List.not_mem_nil,
        IsEmpty.forall_iff, implies_true, and_true]
      exact ⟨⟨⟨⟨⟨⟨trivial, slot, hslot, rfl⟩, hbody⟩, trivial⟩, hexit⟩, ⟨done, rfl⟩⟩, ih hrest⟩

/-- Of a try, everything but its parts are labels, rows and jumps. -/
theorem shaped_tryFront {t : TryFrame} {block exit : List Piece} {codes : List (Clause Piece)}
    (hblock : AllShaped slots block) (hexit : AllShaped slots exit)
    (hcodes : ∀ c ∈ codes, c.Shaped slots) :
    ∀ d ∈ t.creates codes ++ [.place t.stretch.1] ++ layOut block ++ [.place t.stretch.2] ++
      layOut exit ++ [.emit ⟨.goto, some (.label t.done)⟩] ++ layOutClauses t.done codes ++
      t.clauseRows block codes, d.Shaped slots := by
  have hcreates : ∀ d ∈ t.creates codes, d.Shaped slots := by
    simp only [TryFrame.creates, List.forall_mem_append, List.forall_mem_cons, List.not_mem_nil,
      IsEmpty.forall_iff, implies_true, and_true, List.mem_flatMap]
    refine ⟨⟨trivial, trivial, trivial⟩, ?_⟩
    rintro d ⟨c, -, hd⟩
    obtain rfl | rfl : d = _ ∨ d = _ := by simpa using hd
    · trivial
    · trivial
  have hrows : ∀ d ∈ t.clauseRows block codes, d.Shaped slots := by
    intro d hd
    obtain ⟨c, -, hd⟩ := List.mem_flatMap.mp hd
    exact shaped_rows d hd
  simp only [List.forall_mem_append, List.forall_mem_cons, List.not_mem_nil, IsEmpty.forall_iff,
    implies_true, and_true]
  exact ⟨⟨⟨⟨⟨⟨⟨hcreates, trivial⟩, hblock⟩, trivial⟩, hexit⟩, ⟨t.done, rfl⟩⟩,
    shaped_layOutClauses hcodes⟩, hrows⟩

theorem allShaped_tryCatch {t : TryFrame} {block exit : List Piece} {codes : List (Clause Piece)}
    (hblock : AllShaped slots block) (hexit : AllShaped slots exit)
    (hcodes : ∀ c ∈ codes, c.Shaped slots) :
    AllShaped slots [.tryCatch t block exit codes none] := by
  simp only [AllShaped, layOut, Piece.directives, List.append_nil]
  exact List.forall_mem_append.mpr ⟨shaped_tryFront hblock hexit hcodes, by simp [Directive.Shaped]⟩

theorem allShaped_tryFinally {t : TryFrame} {block exit body : List Piece}
    {codes : List (Clause Piece)} {handler stored : Label} {slot : Nat}
    (hblock : AllShaped slots block) (hexit : AllShaped slots exit)
    (hcodes : ∀ c ∈ codes, c.Shaped slots) (hslot : slot < slots) (hbody : AllShaped slots body) :
    AllShaped slots [.tryCatch t block exit codes (some ⟨handler, stored, slot, body⟩)] := by
  have hrows : ∀ d ∈ t.rescueRows handler stored block codes, d.Shaped slots := by
    simp only [TryFrame.rescueRows, List.forall_mem_append, List.forall_mem_singleton,
      List.mem_flatMap]
    refine ⟨⟨shaped_rows, ?_⟩, trivial⟩
    rintro d ⟨c, -, hd⟩
    exact shaped_rows d hd
  simp only [AllShaped, layOut, Piece.directives, List.append_nil]
  refine List.forall_mem_append.mpr ⟨List.forall_mem_append.mpr
    ⟨shaped_tryFront hblock hexit hcodes, ?_⟩, by simp [Directive.Shaped]⟩
  simp only [List.forall_mem_append, List.forall_mem_cons, List.not_mem_nil, IsEmpty.forall_iff,
    implies_true, and_true]
  exact ⟨⟨⟨⟨trivial, trivial, trivial, ⟨slot, hslot, rfl⟩, trivial⟩, hbody⟩, ⟨slot, hslot, rfl⟩, rfl⟩,
    hrows⟩

end Pieces

/-! ## Statements -/

section Statements

variable {slots : Nat}

/-- The instructions for the slot of an expression are shaped. -/
theorem shaped_slotCode {e : Expr} (h : ∀ i ∈ e.slot?, i < slots) :
    ∀ i ∈ e.slotCode, i.Shaped slots := by
  match e with
  | .slot _ slot => exact List.forall_mem_singleton.mpr ⟨slot, h slot rfl, rfl⟩
  | .increment _ op (.slot slot) _ =>
      exact List.forall_mem_cons.mpr ⟨⟨slot, h slot rfl, rfl⟩,
        List.forall_mem_singleton.mpr ⟨slot, h slot rfl, op.delta, rfl⟩⟩
  | .assign _ (.slot slot) _ _ => exact List.forall_mem_singleton.mpr ⟨slot, h slot rfl, rfl⟩
  | .int .. | .long .. | .double .. | .bool .. | .null _ | .new .. | .error _ | .field ..
  | .increment _ _ (.field ..) _ | .widen .. | .unary .. | .assign _ (.field ..) _ _ | .binary ..
  | .call .. => exact List.forall_mem_nil _

/-- What a flat statement has by itself is shaped if its slots are counted. -/
theorem own_shaped {s : Stmt} (h : s.NamesOnly (· < slots)) :
    OwnDirectives (Directive.Shaped slots) s where
  create _ := trivial
  place _ := trivial
  emit _ hi := hi.mono slots
  dispatch d default cases := by
    rw [dispatchDirective]
    split
    · trivial
    · exact pairwise_sortedTargets cases
  exprs e he part hpart := shaped_slotCode (h.2 e he part hpart)
  store slot e hs := by
    subst hs
    exact ⟨slot, h.1 slot (List.mem_singleton_self slot), rfl⟩

/-- The finally bodies of the regions around have only counted slots too. -/
def RegionSlots (slots : Nat) (R : List Region) : Prop :=
  ∀ body, some body ∈ R → ∀ s ∈ Stmt.allParts body, s.NamesOnly (· < slots)

theorem RegionSlots.cons {R : List Region} {region : Region} (hR : RegionSlots slots R)
    (h : ∀ body ∈ region, ∀ s ∈ Stmt.allParts body, s.NamesOnly (· < slots)) :
    RegionSlots slots (region :: R) := by
  intro body hmem
  obtain heq | hmem := List.mem_cons.mp hmem
  · exact h body heq.symm
  · exact hR body hmem

mutual

theorem shaped_stmt {T : Targets} {R : List Region} (hR : RegionSlots slots R) (s : Stmt)
    (hs : ∀ t ∈ s.parts, t.NamesOnly (· < slots)) {n n' : Nat} {u : Unit} {ps : List Piece}
    (h : (stmt T R s).Yields n u ps n') : AllShaped slots ps := by
  by_cases hflat : s.Flat
  · obtain ⟨body, rfl, hbody⟩ := composed_stmt hflat (own_shaped (hs s s.mem_parts)) h
    refine allShaped_statement (allShaped_all fun p hp => ?_)
    obtain ⟨d, rfl, hd⟩ | ⟨ht, -, -, hcode⟩ | ⟨ht, -, -, -, hcode⟩ := hbody p hp
    · exact allShaped_give hd
    · have := Stmt.sizeOf_lt_of_mem (List.mem_append_left _ ht)
      exact shaped_stmt hR _ (Stmt.forall_parts hflat hs (List.mem_append_left _ ht)) hcode
    · have := Stmt.sizeOf_lt_of_mem (List.mem_append_right _ ht)
      exact shaped_stmt hR _ (Stmt.forall_parts hflat hs (List.mem_append_right _ ht)) hcode
  match s with
  | .tryCatch guarded clauses none =>
      obtain ⟨⟨hslots, -⟩, hs⟩ := List.forall_mem_cons.mp hs
      obtain ⟨hguarded, hclauses⟩ := List.forall_mem_append.mp hs
      obtain ⟨block, k, codes, hblock, hcodes, rfl⟩ := yields_tryCatch h
      have := sizeOf_clauses_pos clauses
      have hcopy : ∀ n ps n', (finallyCopy T R none).Yields n () ps n' → AllShaped slots ps :=
        fun _ _ _ h => (yields_finallyCopy_none h).1 ▸ allShaped_nil
      refine allShaped_statement (allShaped_tryCatch ?_ allShaped_nil ?_)
      · exact shaped_stmts (hR.cons (by simp)) guarded hguarded hblock
      · exact shaped_catches none hR hcopy clauses _ (fun c hc => hslots _
          (List.mem_append_left _ (List.mem_map_of_mem hc))) hclauses hcodes
  | .tryCatch guarded clauses (some ⟨slot, body⟩) =>
      obtain ⟨⟨hslots, -⟩, hs⟩ := List.forall_mem_cons.mp hs
      obtain ⟨hs, hbody⟩ := List.forall_mem_append.mp hs
      obtain ⟨hguarded, hclauses⟩ := List.forall_mem_append.mp hs
      obtain ⟨block, k, exit, k', codes, e, rescue, hblock, hexit, hcodes, hrescue, rfl⟩ :=
        yields_tryFinally h
      have := sizeOf_clauses_pos clauses
      have hin : RegionSlots slots (some body :: R) := by
        refine hR.cons ?_
        rintro _ ⟨⟩
        exact hbody
      have hcopy : ∀ n ps n', (finallyCopy T R (some body)).Yields n () ps n' →
          AllShaped slots ps :=
        fun _ _ _ h => shaped_stmts hR body hbody (yields_finallyCopy_some h)
      refine allShaped_statement (allShaped_tryFinally ?_ (shaped_stmts hR body hbody hexit) ?_
        (hslots slot (by simp [Stmt.writes])) (shaped_stmts hR body hbody hrescue))
      · exact shaped_stmts hin guarded hguarded hblock
      · exact shaped_catches (some body) hin hcopy clauses _ (fun c hc => hslots _
          (List.mem_append_left _ (List.mem_map_of_mem hc))) hclauses hcodes
  | .breakJump id =>
      obtain ⟨t, code, -, hcode, rfl⟩ := yields_breakJump h
      exact allShaped_statement (allShaped_append (shaped_crossed R hR hcode)
        (allShaped_give ⟨_, rfl⟩))
  | .continueJump id =>
      obtain ⟨t, l, code, -, -, hcode, rfl⟩ := yields_continueJump h
      exact allShaped_statement (allShaped_append (shaped_crossed R hR hcode)
        (allShaped_give ⟨l, rfl⟩))
  | .block _ | .localInit .. | .expression .. | .throw _ | .empty | .ifElse .. | .whileLoop ..
  | .doLoop .. | .forLoop .. | .switch .. => exact absurd trivial hflat
termination_by sizeOf s + sizeOf R

theorem shaped_stmts {T : Targets} {R : List Region} (hR : RegionSlots slots R) (body : List Stmt)
    (hs : ∀ t ∈ Stmt.allParts body, t.NamesOnly (· < slots)) {n n' : Nat} {u : Unit}
    {ps : List Piece} (h : (stmts T R body).Yields n u ps n') : AllShaped slots ps := by
  match body with
  | [] =>
      obtain ⟨rfl, -⟩ := yields_nil h
      exact allShaped_nil
  | s :: rest =>
      obtain ⟨hs, hrest⟩ := List.forall_mem_append.mp hs
      obtain ⟨code, m, codes, hcode, hcodes, rfl⟩ := yields_cons h
      exact allShaped_append (shaped_stmt hR s hs hcode) (shaped_stmts hR rest hrest hcodes)
termination_by sizeOf body + sizeOf R

theorem shaped_catches {T : Targets} {R : List Region} (region : Region)
    (hR : RegionSlots slots (clauseRegions R region))
    (hcopy : ∀ n ps n', (finallyCopy T R region).Yields n () ps n' → AllShaped slots ps)
    (clauses : List (Catch Stmt)) (stretches : List Stretch)
    (hslots : ∀ c ∈ clauses, c.slot < slots)
    (hs : ∀ t ∈ Stmt.clauseParts clauses, t.NamesOnly (· < slots)) {n n' : Nat}
    {codes : List (Clause Piece)} {ps : List Piece}
    (h : (catches T R region clauses stretches).Yields n codes ps n') :
    ∀ c ∈ codes, c.Shaped slots := by
  match clauses, stretches with
  | [], _ =>
      obtain ⟨rfl, -, -⟩ := yields_catches_nil h
      exact List.forall_mem_nil _
  | _ :: _, [] =>
      rw [catches] at h
      · obtain ⟨rfl, -⟩ := Gen.yields_pure.mp h
        exact List.forall_mem_nil _
      · simp
  | ⟨_, slot, body⟩ :: rest, stretch :: stretches =>
      obtain ⟨hslot, hslots⟩ := List.forall_mem_cons.mp hslots
      obtain ⟨hbody, hrest⟩ := List.forall_mem_append.mp hs
      obtain ⟨code, k, exit, m, others, hcode, hexit, hothers, rfl⟩ := yields_catches_cons h
      have := sizeOf_clauseRegions_le R region
      exact List.forall_mem_cons.mpr
        ⟨⟨hslot, shaped_stmts hR body hbody hcode, hcopy _ _ _ hexit⟩,
          shaped_catches region hR hcopy rest stretches hslots hrest hothers⟩
termination_by sizeOf clauses + sizeOf region + sizeOf R

theorem shaped_crossed {T : Targets} {depth : Nat} (R : List Region) (hR : RegionSlots slots R)
    {n n' : Nat} {u : Unit} {ps : List Piece} (h : (crossed T depth R).Yields n u ps n') :
    AllShaped slots ps := by
  match R with
  | [] =>
      obtain ⟨rfl, -⟩ := yields_crossed_nil h
      exact allShaped_nil
  | none :: R =>
      by_cases hd : depth ≤ R.length
      · exact shaped_crossed R (fun body hmem => hR body (List.mem_cons_of_mem _ hmem))
          (yields_crossed_none hd h)
      · obtain ⟨rfl, -⟩ := yields_crossed_inside (by rw [List.length_cons]; omega) h
        exact allShaped_nil
  | some body :: R =>
      by_cases hd : depth ≤ R.length
      · obtain ⟨copy, m, code, hcopy, hcode, rfl⟩ := yields_crossed_some hd h
        have hbody := hR body List.mem_cons_self
        have hR : RegionSlots slots R := fun body hmem => hR body (List.mem_cons_of_mem _ hmem)
        exact allShaped_append (allShaped_copy (shaped_stmts hR body hbody hcopy))
          (shaped_crossed R hR hcode)
      · obtain ⟨rfl, -⟩ := yields_crossed_inside (by rw [List.length_cons]; omega) h
        exact allShaped_nil
termination_by sizeOf R

end

end Statements

/-- The code of a method body whose slots are counted is shaped. -/
theorem shaped_program {p : Annotated.Program} {n n' : Nat} {ps : List Piece}
    (hs : ∀ s ∈ Stmt.allParts p.body, s.NamesOnly (· < p.maxSlots))
    (h : (program p).Yields n () ps n') : AllShaped p.maxSlots ps := by
  obtain ⟨body, hbody, rfl⟩ := yields_program.mp h
  refine allShaped_append ?_ (allShaped_give rfl)
  exact shaped_stmts (by simp [RegionSlots]) p.body hs hbody

end Lowering

end MethodCompiler
