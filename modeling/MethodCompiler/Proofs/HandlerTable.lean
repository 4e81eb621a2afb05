import MethodCompiler.Proofs.Building

/-!
# The exception table

What an instruction throws is caught by the regions that were open around it when it
was generated, innermost first, and by nothing else. So the rows that cover a position
are, in table order, those of the site at this position.

The rows of a try come after those of the tries inside it, so the order is right, and
it remains to see that they cover the right positions. Pieces are laid out without
overlap, so the rows of a try cover no position outside it, and gaps come in order. A
row leaves out a position of its stretch exactly if a copy on the way out of the region
stands there. For pieces inside some regions, the statement that is proved by induction
is `Own`: their own rows cover a position as the regions inside the pieces do, and the
position is in a gap of the regions outside from the first one that has been left on.
-/

namespace MethodCompiler.Lowering

variable {code : Code} {q : Nat}

/-! ## Rows and gaps -/

/-- A position between two labels. -/
def Inside (code : Code) (q : Nat) (s : Stretch) : Prop :=
  code.offset s.1 ≤ q ∧ q < code.offset s.2

/-- A position in one of the gaps. -/
def InGaps (code : Code) (q : Nat) (gs : List Stretch) : Prop :=
  ∃ g ∈ gs, Inside code q g

@[simp]
theorem inGaps_nil : ¬ InGaps code q [] := by
  simp [InGaps]

@[simp]
theorem inGaps_cons {g : Stretch} {gs : List Stretch} :
    InGaps code q (g :: gs) ↔ Inside code q g ∨ InGaps code q gs := by
  simp [InGaps]

@[simp]
theorem inGaps_append {gs gs' : List Stretch} :
    InGaps code q (gs ++ gs') ↔ InGaps code q gs ∨ InGaps code q gs' := by
  simp [InGaps, or_and_right, exists_or]

/-- What the rows among directives catch at a position, in order. -/
def catching (code : Code) (q : Nat) (ds : List Directive) : Guard :=
  ((pendingRows ds).filter fun p => (code.resolved p).covers q).map
    fun p => (p.catchType, p.handler)

@[simp]
theorem catching_nil : catching code q [] = [] := rfl

@[simp]
theorem catching_append (ds es : List Directive) :
    catching code q (ds ++ es) = catching code q ds ++ catching code q es := by
  simp [catching]

theorem catching_cons_of_none {d : Directive} (hd : d.row? = none) (ds : List Directive) :
    catching code q (d :: ds) = catching code q ds := by
  rw [catching, pendingRows, List.filterMap_cons_none hd]
  rfl

@[simp]
theorem catching_emit {i : Instruction} {ds : List Directive} :
    catching code q (.emit i :: ds) = catching code q ds :=
  catching_cons_of_none rfl ds

@[simp]
theorem catching_place {l : Label} {ds : List Directive} :
    catching code q (.place l :: ds) = catching code q ds :=
  catching_cons_of_none rfl ds

@[simp]
theorem catching_create {l : Label} {ds : List Directive} :
    catching code q (.create l :: ds) = catching code q ds :=
  catching_cons_of_none rfl ds

theorem covers_resolved {p : PendingHandler} :
    (code.resolved p).covers q ↔ Inside code q (p.start, p.stop) := by
  rw [Handler.covers, Bool.and_eq_true, decide_eq_true_iff, decide_eq_true_iff]
  exact Iff.rfl

theorem catching_row_inside {start stop handler : Label} {catchType : Option String}
    (h : Inside code q (start, stop)) (ds : List Directive) :
    catching code q (.handler start stop handler catchType :: ds) =
      (catchType, handler) :: catching code q ds := by
  have hcovers := covers_resolved (p := ⟨start, stop, handler, catchType⟩).mpr h
  simp [catching, pendingRows, Directive.row?, hcovers]

theorem catching_row_outside {start stop handler : Label} {catchType : Option String}
    (h : ¬ Inside code q (start, stop)) (ds : List Directive) :
    catching code q (.handler start stop handler catchType :: ds) = catching code q ds := by
  have hcovers := mt (covers_resolved (p := ⟨start, stop, handler, catchType⟩)).mp h
  simp [catching, pendingRows, Directive.row?, hcovers]

/-- Gaps in order between two positions. -/
def Ordered (code : Code) : Nat → List Stretch → Nat → Prop
  | lo, [], hi => lo ≤ hi
  | lo, g :: rest, hi =>
    lo ≤ code.offset g.1 ∧ code.offset g.1 ≤ code.offset g.2 ∧
      Ordered code (code.offset g.2) rest hi

namespace Ordered

variable {lo mid hi : Nat} {gs gs' : List Stretch}

theorem le (h : Ordered code lo gs hi) : lo ≤ hi := by
  induction gs generalizing lo with
  | nil => exact h
  | cons g gs ih =>
      obtain ⟨h₁, h₂, h⟩ := h
      exact Nat.le_trans (Nat.le_trans h₁ h₂) (ih h)

theorem mono (h : Ordered code lo gs hi) {lo' hi' : Nat} (hlo : lo' ≤ lo) (hhi : hi ≤ hi') :
    Ordered code lo' gs hi' := by
  induction gs generalizing lo lo' with
  | nil => exact Nat.le_trans hlo (Nat.le_trans h hhi)
  | cons g gs ih =>
      obtain ⟨h₁, h₂, h⟩ := h
      exact ⟨Nat.le_trans hlo h₁, h₂, ih h (Nat.le_refl _)⟩

theorem append (h₁ : Ordered code lo gs mid) (h₂ : Ordered code mid gs' hi) :
    Ordered code lo (gs ++ gs') hi := by
  induction gs generalizing lo with
  | nil => exact h₂.mono h₁ (Nat.le_refl _)
  | cons g gs ih => exact ⟨h₁.1, h₁.2.1, ih h₁.2.2⟩

theorem bounds (h : Ordered code lo gs hi) (hq : InGaps code q gs) : lo ≤ q ∧ q < hi := by
  induction gs generalizing lo with
  | nil => exact (inGaps_nil hq).elim
  | cons g gs ih =>
      obtain ⟨h₁, h₂, h⟩ := h
      have hle := h.le
      obtain hq | hq := inGaps_cons.mp hq
      · obtain ⟨h₃, h₄⟩ := hq
        omega
      · obtain ⟨h₃, h₄⟩ := ih h hq
        omega

end Ordered

/-- The rows for a stretch do not cover a position outside the stretch or in a gap. -/
theorem catching_rows_outside {handler : Label} {catchType : Option String} {start stop : Label}
    {gs : List Stretch} (ho : Ordered code (code.offset start) gs (code.offset stop))
    (hq : ¬ Inside code q (start, stop) ∨ InGaps code q gs) :
    catching code q (rows handler catchType start stop gs) = [] := by
  induction gs generalizing start with
  | nil => exact catching_row_outside (hq.resolve_right inGaps_nil) []
  | cons g gs ih =>
      obtain ⟨h₁, h₂, ho⟩ := ho
      have hle := ho.le
      have hbounds := fun h => ho.bounds (q := q) h
      simp only [inGaps_cons, Inside] at hq hbounds ih
      rw [rows, catching_row_outside, ih ho]
      · by_cases hg : InGaps code q gs
        · exact .inr hg
        · simp only [hg, or_false] at hq ⊢
          omega
      · by_cases hg : InGaps code q gs
        · have := hbounds hg
          simp only [Inside]
          omega
        · simp only [hg, or_false, Inside] at hq ⊢
          omega

/-- At any other position exactly one of them does. -/
theorem catching_rows_inside {handler : Label} {catchType : Option String} {start stop : Label}
    {gs : List Stretch} (ho : Ordered code (code.offset start) gs (code.offset stop))
    (hq : Inside code q (start, stop)) (hgap : ¬ InGaps code q gs) :
    catching code q (rows handler catchType start stop gs) = [(catchType, handler)] := by
  induction gs generalizing start with
  | nil => exact catching_row_inside hq []
  | cons g gs ih =>
      obtain ⟨h₁, h₂, ho⟩ := ho
      rw [inGaps_cons, not_or] at hgap
      by_cases hfirst : q < code.offset g.1
      · have hbehind : ¬ Inside code q (g.2, stop) := by
          simp only [Inside]
          omega
        have hbefore : Inside code q (start, g.1) := ⟨hq.1, hfirst⟩
        rw [rows, catching_row_inside hbefore, catching_rows_outside ho (.inl hbehind)]
      · have hbehind : Inside code q (g.2, stop) := by
          have := hgap.1
          simp only [Inside] at this hq ⊢
          omega
        have hbefore : ¬ Inside code q (start, g.1) := by
          simp only [Inside]
          omega
        rw [rows, catching_row_outside hbefore, ih ho hbehind hgap.2]

/-! ## Laid out pieces -/

mutual

/-- The gaps of a piece that is laid out are in order inside it. -/
theorem ordered_pieceGaps (region : Nat) (p : Piece) {pc : Nat}
    (h : Laid code pc p.directives) :
    Ordered code pc (p.gaps region) (pc + size p.directives) := by
  match p with
  | .give d => exact Nat.le_add_right _ _
  | .statement body => exact ordered_gaps region body h
  | .copy stretch stillOpen body =>
      obtain ⟨hstart, hbody, hstop⟩ := laid_copy h
      rw [Piece.gaps, size_copy]
      split
      · simp [Ordered, Code.offset_eq hstart, Code.offset_eq hstop]
      · exact ordered_gaps region body hbody
  | .tryCatch t block exit clauses none =>
      obtain ⟨catches, hl⟩ := laid_tryCatch h
      have hblock := ordered_gaps region block hl.laid_block
      have hexit := ordered_gaps region exit hl.laid_exit
      have hclauses := ordered_clauseGaps region t.done clauses hl.laid_clauses
      rw [size_tryCatch, Piece.gaps]
      have hcatches := hl.catches_eq
      exact ((hblock.append hexit).append (hclauses.mono (by omega) (Nat.le_refl _))).append
        (show Ordered code _ [] _ from by simp only [Ordered, rescueSize]; omega)
  | .tryCatch t block exit clauses (some ⟨handler, stored, slot, body⟩) =>
      obtain ⟨catches, hl⟩ := laid_tryCatch h
      have hblock := ordered_gaps region block hl.laid_block
      have hexit := ordered_gaps region exit hl.laid_exit
      have hclauses := ordered_clauseGaps region t.done clauses hl.laid_clauses
      have hbody := ordered_gaps region body (hl.laid_rescue _ rfl).laid
      rw [size_tryCatch, Piece.gaps]
      have hcatches := hl.catches_eq
      exact ((hblock.append hexit).append (hclauses.mono (by omega) (Nat.le_refl _))).append
        (hbody.mono (by omega) (by simp only [rescueSize]; omega))
termination_by structural p

theorem ordered_gaps (region : Nat) (ps : List Piece) {pc : Nat}
    (h : Laid code pc (layOut ps)) :
    Ordered code pc (gaps region ps) (pc + size (layOut ps)) := by
  match ps with
  | [] => exact Nat.le_refl _
  | p :: rest =>
      obtain ⟨hp, hrest⟩ := laid_append.mp h
      rw [gaps, layOut, size_append, ← Nat.add_assoc]
      exact (ordered_pieceGaps region p hp).append (ordered_gaps region rest hrest)
termination_by structural ps

theorem ordered_clauseGaps (region : Nat) (done : Label) (clauses : List (Clause Piece)) {pc : Nat}
    (h : Laid code pc (layOutClauses done clauses)) :
    Ordered code pc (clauseGaps region clauses) (pc + size (layOutClauses done clauses)) := by
  match clauses with
  | [] => exact Nat.le_refl _
  | ⟨ty, stretch, slot, body, exit⟩ :: rest =>
      have hl := laid_clause h
      have hbody := ordered_gaps region body hl.laid_body
      have hexit := ordered_gaps region exit hl.laid_exit
      have hrest := ordered_clauseGaps region done rest hl.laid_rest
      rw [clauseGaps, size_clause]
      exact ((hbody.mono (Nat.le_succ _) (Nat.le_refl _)).append hexit).append
        (hrest.mono (Nat.le_succ _) (by simp only; omega))
termination_by structural clauses

end

/-- A position outside laid out pieces is in none of their gaps. -/
theorem not_inGaps_of_outside {region : Nat} {ps : List Piece} {pc : Nat}
    (h : Laid code pc (layOut ps)) (hq : q < pc ∨ pc + size (layOut ps) ≤ q) :
    ¬ InGaps code q (gaps region ps) := by
  intro hgap
  have := (ordered_gaps region ps h).bounds hgap
  omega

section Try

variable {pc catches : Nat} {t : TryFrame} {block exit : List Piece}
  {clauses : List (Clause Piece)} {rescue : Option (Rescue Piece)}

@[simp]
theorem catching_creates : catching code q (t.creates clauses) = [] := by
  rw [TryFrame.creates, catching_append, catching_create, catching_create, catching_create,
    catching_nil, List.nil_append]
  induction clauses with
  | nil => rfl
  | cons c rest ih => rw [List.flatMap_cons, catching_append, ih]; simp

/-- The block of a try is laid out between its labels. -/
theorem LaidTry.inside (hl : LaidTry code pc t block exit clauses rescue catches) :
    Inside code q t.stretch ↔ pc ≤ q ∧ q < pc + size (layOut block) := by
  rw [Inside, Code.offset_eq hl.start, Code.offset_eq hl.stop]

theorem LaidTry.ordered (hl : LaidTry code pc t block exit clauses rescue catches)
    (region : Nat) :
    Ordered code (code.offset t.stretch.1) (gaps region block) (code.offset t.stretch.2) := by
  rw [Code.offset_eq hl.start, Code.offset_eq hl.stop]
  exact ordered_gaps region block hl.laid_block

theorem LaidClause.inside {done : Label} {c : Clause Piece} {rest : List (Clause Piece)}
    (hl : LaidClause code pc done c rest) :
    Inside code q c.stretch ↔ pc ≤ q ∧ q < pc + 1 + size (layOut c.body) := by
  rw [Inside, Code.offset_eq hl.start, Code.offset_eq hl.stop]

theorem LaidClause.ordered {done : Label} {c : Clause Piece} {rest : List (Clause Piece)}
    (hl : LaidClause code pc done c rest) (region : Nat) :
    Ordered code (code.offset c.stretch.1) (gaps region c.body) (code.offset c.stretch.2) := by
  rw [Code.offset_eq hl.start, Code.offset_eq hl.stop]
  exact (ordered_gaps region c.body hl.laid_body).mono (Nat.le_succ _) (Nat.le_refl _)

theorem catching_flatMap {α : Type} {l : List α} {f : α → List Directive} {g : α → Guard}
    (h : ∀ a ∈ l, catching code q (f a) = g a) :
    catching code q (l.flatMap f) = l.flatMap g := by
  induction l with
  | nil => rfl
  | cons a l ih =>
      rw [List.flatMap_cons, List.flatMap_cons, catching_append, h a (List.mem_cons_self ..),
        ih fun b hb => h b (List.mem_cons_of_mem _ hb)]

theorem catching_clauseRows_inside (hl : LaidTry code pc t block exit clauses rescue catches)
    (hq : Inside code q t.stretch) (hgap : ¬ InGaps code q (gaps t.depth block)) :
    catching code q (t.clauseRows block clauses) =
      clauses.map fun c => (some c.exceptionType, c.stretch.1) := by
  rw [List.map_eq_flatMap]
  exact catching_flatMap fun c _ => catching_rows_inside (hl.ordered t.depth) hq hgap

theorem catching_clauseRows_outside (hl : LaidTry code pc t block exit clauses rescue catches)
    (hq : ¬ Inside code q t.stretch ∨ InGaps code q (gaps t.depth block)) :
    catching code q (t.clauseRows block clauses) = [] := by
  rw [TryFrame.clauseRows, catching_flatMap fun c _ => catching_rows_outside (hl.ordered t.depth) hq,
    List.flatMap_eq_nil_iff]
  exact fun _ _ => rfl

/-- The rows that lead from the clauses to the handler of the finally body. -/
def handlerRows (depth : Nat) (rescue : Option (Rescue Piece)) (clauses : List (Clause Piece)) :
    List Directive :=
  match rescue with
  | none => []
  | some r =>
    clauses.flatMap fun c => rows r.handler none c.stretch.1 c.stretch.2 (gaps depth c.body)

theorem handlerRows_nil {depth : Nat} : handlerRows depth rescue [] = [] := by
  cases rescue <;> rfl

theorem handlerRows_cons {depth : Nat} {c : Clause Piece} {rest : List (Clause Piece)} :
    handlerRows depth rescue (c :: rest) =
      handlerRows depth rescue [c] ++ handlerRows depth rescue rest := by
  cases rescue with
  | none => rfl
  | some r => simp [handlerRows]

/-- A clause is guarded where its stretch has no gap. -/
theorem catching_handlerRow_inside {done : Label} {depth : Nat} {c : Clause Piece}
    {rest : List (Clause Piece)} (hl : LaidClause code pc done c rest)
    (hq : Inside code q c.stretch) (hgap : ¬ InGaps code q (gaps depth c.body)) :
    catching code q (handlerRows depth rescue [c]) = (clauseGuards rescue).flatten := by
  cases rescue with
  | none => rfl
  | some r =>
      rw [handlerRows, List.flatMap_singleton]
      exact catching_rows_inside (hl.ordered depth) hq hgap

theorem catching_handlerRow_outside {done : Label} {depth : Nat} {c : Clause Piece}
    {rest : List (Clause Piece)} (hl : LaidClause code pc done c rest)
    (hq : ¬ Inside code q c.stretch ∨ InGaps code q (gaps depth c.body)) :
    catching code q (handlerRows depth rescue [c]) = [] := by
  cases rescue with
  | none => rfl
  | some r =>
      rw [handlerRows, List.flatMap_singleton]
      exact catching_rows_outside (hl.ordered depth) hq

/-- Outside the clauses these rows cover nothing. -/
theorem catching_handlerRows_outside {done : Label} {depth : Nat}
    (h : Laid code pc (layOutClauses done clauses))
    (hq : q < pc ∨ pc + size (layOutClauses done clauses) ≤ q) :
    catching code q (handlerRows depth rescue clauses) = [] := by
  induction clauses generalizing pc with
  | nil => rw [handlerRows_nil, catching_nil]
  | cons c rest ih =>
      have hl := laid_clause h
      rw [size_clause] at hq
      have houtside : ¬ Inside code q c.stretch := by
        rw [hl.inside]
        omega
      rw [handlerRows_cons, catching_append, ih hl.laid_rest (by omega),
        catching_handlerRow_outside hl (.inl houtside), List.append_nil]

/-- The rows that lead from the block to the handler of the finally body. -/
def blockRows (t : TryFrame) (rescue : Option (Rescue Piece)) (block : List Piece) :
    List Directive :=
  match rescue with
  | none => []
  | some r => rows r.handler none t.stretch.1 t.stretch.2 (gaps t.depth block)

theorem catching_blockRows_inside {rescue' : Option (Rescue Piece)}
    (hl : LaidTry code pc t block exit clauses rescue catches) (hq : Inside code q t.stretch)
    (hgap : ¬ InGaps code q (gaps t.depth block)) :
    catching code q (blockRows t rescue' block) = (clauseGuards rescue').flatten := by
  cases rescue' with
  | none => rfl
  | some r => exact catching_rows_inside (hl.ordered t.depth) hq hgap

theorem catching_blockRows_outside {rescue' : Option (Rescue Piece)}
    (hl : LaidTry code pc t block exit clauses rescue catches)
    (hq : ¬ Inside code q t.stretch ∨ InGaps code q (gaps t.depth block)) :
    catching code q (blockRows t rescue' block) = [] := by
  cases rescue' with
  | none => rfl
  | some r => exact catching_rows_outside (hl.ordered t.depth) hq

/-- What the handler of the finally body adds: the rows of its own code, those from the
block, those from the clauses, and the row of the store. -/
def rescueCatching (code : Code) (q : Nat) (t : TryFrame) (block : List Piece)
    (clauses : List (Clause Piece)) (rescue : Option (Rescue Piece)) : Guard :=
  match rescue with
  | none => []
  | some r =>
    catching code q (layOut r.body) ++
      catching code q (blockRows t (some r) block) ++
      catching code q (handlerRows t.depth (some r) clauses) ++
      catching code q [.handler r.handler r.stored r.handler none]

/-- The gaps in the code of the handler. -/
def rescueGaps (region : Nat) : Option (Rescue Piece) → List Stretch
  | none => []
  | some r => gaps region r.body

/-- The rows of a try and of what is inside it. -/
theorem catching_tryCatch (code : Code) (q : Nat) (t : TryFrame) (block exit : List Piece)
    (clauses : List (Clause Piece)) (rescue : Option (Rescue Piece)) :
    catching code q (Piece.tryCatch t block exit clauses rescue).directives =
      catching code q (layOut block) ++ catching code q (layOut exit) ++
        catching code q (layOutClauses t.done clauses) ++
        catching code q (t.clauseRows block clauses) ++
        rescueCatching code q t block clauses rescue := by
  cases rescue with
  | none => simp [Piece.directives, rescueCatching]
  | some r =>
      simp only [Piece.directives, TryFrame.rescueRows, rescueCatching, handlerRows, blockRows,
        catching_append, catching_creates, catching_create, catching_place, catching_emit,
        catching_nil, List.append_nil, List.nil_append, List.append_assoc]

theorem gaps_tryCatch (region : Nat) (t : TryFrame) (block exit : List Piece)
    (clauses : List (Clause Piece)) (rescue : Option (Rescue Piece)) :
    (Piece.tryCatch t block exit clauses rescue).gaps region =
      gaps region block ++ gaps region exit ++ clauseGaps region clauses ++
        rescueGaps region rescue := by
  cases rescue <;> rfl

/-- The row that leads from the store of the object in flight to the handler. -/
theorem LaidRescue.inside {r : Rescue Piece} (hl : LaidRescue code pc r) :
    Inside code q (r.handler, r.stored) ↔ q = pc := by
  rw [Inside, Code.offset_eq hl.handler, Code.offset_eq hl.stored]
  omega

end Try

mutual

/-- The rows of pieces cover nothing outside the pieces. -/
theorem catching_piece_outside {depth : Nat} (p : Piece) {pc : Nat} (h : Laid code pc p.directives)
    (hn : p.Nested depth) (hq : q < pc ∨ pc + size p.directives ≤ q) :
    catching code q p.directives = [] := by
  match p with
  | .give d => exact catching_cons_of_none hn []
  | .statement body => exact catching_outside body h hn hq
  | .copy stretch stillOpen body =>
      obtain ⟨hstart, hbody, hstop⟩ := laid_copy h
      rw [size_copy] at hq
      simp [Piece.directives, catching_outside body hbody hn.2 hq]
  | .tryCatch t block exit clauses rescue =>
      obtain ⟨catches, hl⟩ := laid_tryCatch h
      obtain ⟨-, hblock, hexit, hclauses, hbody⟩ := nested_tryCatch.mp hn
      have hcatches := hl.catches_eq
      rw [size_tryCatch] at hq
      have houtside : ¬ Inside code q t.stretch := by
        rw [hl.inside]
        omega
      rw [catching_tryCatch, catching_outside block hl.laid_block hblock (by omega),
        catching_outside exit hl.laid_exit hexit (by omega),
        catching_clauses_outside clauses hl.laid_clauses hclauses (by omega),
        catching_clauseRows_outside hl (.inl houtside)]
      match rescue with
      | none => rfl
      | some ⟨handler, stored, slot, body⟩ =>
          have hr := hl.laid_rescue _ rfl
          rw [rescueSize] at hq
          have hself : ¬ Inside code q (handler, stored) := by
            rw [hr.inside]
            omega
          simp only [rescueCatching] at hr hq ⊢
          rw [catching_outside body hr.laid (hbody _ rfl) (by omega),
            catching_blockRows_outside hl (.inl houtside),
            catching_handlerRows_outside hl.laid_clauses (by omega),
            catching_row_outside hself]
          rfl
termination_by structural p

theorem catching_outside {depth : Nat} (ps : List Piece) {pc : Nat} (h : Laid code pc (layOut ps))
    (hn : Nested depth ps) (hq : q < pc ∨ pc + size (layOut ps) ≤ q) :
    catching code q (layOut ps) = [] := by
  match ps with
  | [] => rfl
  | p :: rest =>
      obtain ⟨hp, hrest⟩ := laid_append.mp h
      rw [layOut, size_append] at hq
      rw [layOut, catching_append, catching_piece_outside p hp hn.1 (by omega),
        catching_outside rest hrest hn.2 (by omega), List.append_nil]
termination_by structural ps

theorem catching_clauses_outside {inner depth : Nat} {done : Label} (clauses : List (Clause Piece))
    {pc : Nat} (h : Laid code pc (layOutClauses done clauses))
    (hn : ClausesNested inner depth clauses)
    (hq : q < pc ∨ pc + size (layOutClauses done clauses) ≤ q) :
    catching code q (layOutClauses done clauses) = [] := by
  match clauses with
  | [] => rfl
  | ⟨ty, stretch, slot, body, exit⟩ :: rest =>
      have hl := laid_clause h
      rw [size_clause] at hq
      simp only at hq
      obtain ⟨hbody, hexit, hrest⟩ := hn
      simp [layOutClauses, catching_outside body hl.laid_body hbody (by omega),
        catching_outside exit hl.laid_exit hexit (by simp only; omega),
        catching_clauses_outside rest hl.laid_rest hrest (by simp only; omega)]
termination_by structural clauses

end

/-! ## Own rows -/

/-- At a position, the rows among `ds` catch what the regions inside do, and the gaps
`gs` are those of the regions `around` that have been left. -/
def Own (code : Code) (around : List Guard) (ds : List Directive) (gs : Nat → List Stretch)
    (q : Nat) (s : Site) : Prop :=
  ∃ inner k, k ≤ around.length ∧ s.around = inner ++ around.drop (around.length - k) ∧
    catching code q ds = s.extra ++ inner.flatten ∧
    ∀ r < around.length, InGaps code q (gs r) ↔ k ≤ r

namespace Own

variable {around : List Guard} {ds ds' : List Directive} {gs gs' : Nat → List Stretch} {s : Site}

/-- An instruction right inside the regions around. -/
theorem bare {i : Instruction} {extra : Guard} (hcatch : catching code q ds = extra)
    (hgaps : ∀ r, ¬ InGaps code q (gs r)) : Own code around ds gs q ⟨i, extra, around⟩ := by
  refine ⟨[], around.length, Nat.le_refl _, ?_, ?_, fun r hr => ?_⟩
  · simp
  · simpa using hcatch
  · simp only [hgaps r, false_iff]
    omega

/-- Nothing else is of any concern at the position. -/
theorem widen (h : Own code around ds gs q s) (hcatch : catching code q ds' = catching code q ds)
    (hgaps : ∀ r, InGaps code q (gs' r) ↔ InGaps code q (gs r)) :
    Own code around ds' gs' q s := by
  obtain ⟨inner, k, hk, haround, hds, hgs⟩ := h
  exact ⟨inner, k, hk, haround, hcatch.trans hds, fun r hr => (hgaps r).trans (hgs r hr)⟩

/-- The rows of the innermost region are added, which cover the position unless it is
in a gap of that region. -/
theorem close {g : Guard} (h : Own code (g :: around) ds gs q s)
    (hin : ¬ InGaps code q (gs around.length) → catching code q ds' = catching code q ds ++ g)
    (hout : InGaps code q (gs around.length) → catching code q ds' = catching code q ds)
    (hgaps : ∀ r, InGaps code q (gs' r) ↔ InGaps code q (gs r)) : Own code around ds' gs' q s := by
  obtain ⟨inner, k, hk, haround, hds, hgs⟩ := h
  rw [List.length_cons] at hk haround hgs
  have hlast := hgs around.length (by omega)
  by_cases hkl : k ≤ around.length
  · refine ⟨inner, k, hkl, ?_, (hout (hlast.mpr hkl)).trans hds, fun r hr => ?_⟩
    · rw [haround, show around.length + 1 - k = around.length - k + 1 by omega, List.drop_succ_cons]
    · exact (hgaps r).trans (hgs r (by omega))
  · obtain rfl : k = around.length + 1 := by omega
    refine ⟨inner ++ [g], around.length, Nat.le_refl _, ?_, ?_, fun r hr => ?_⟩
    · simp [haround]
    · rw [hin (mt hlast.mp hkl), hds]
      simp
    · rw [hgaps r, hgs r (by omega)]
      omega

/-- In a copy, the regions that it left have a gap. -/
theorem copy {stillOpen : Nat} (hle : stillOpen ≤ around.length)
    (h : Own code (around.drop (around.length - stillOpen)) ds gs q s)
    (hcatch : catching code q ds' = catching code q ds)
    (hleft : ∀ r, stillOpen ≤ r → InGaps code q (gs' r))
    (hopen : ∀ r, r < stillOpen → (InGaps code q (gs' r) ↔ InGaps code q (gs r))) :
    Own code around ds' gs' q s := by
  obtain ⟨inner, k, hk, haround, hds, hgs⟩ := h
  rw [List.length_drop, show around.length - (around.length - stillOpen) = stillOpen by omega] at *
  refine ⟨inner, k, by omega, ?_, hcatch.trans hds, fun r hr => ?_⟩
  · rw [haround, List.drop_drop]
    congr 2
    omega
  · by_cases hr' : stillOpen ≤ r
    · exact ⟨fun _ => by omega, fun _ => hleft r hr'⟩
    · exact (hopen r (by omega)).trans (hgs r (by omega))

end Own

/-! ## Own rows of a try -/

section Try

variable {pc catches : Nat} {t : TryFrame} {block exit : List Piece}
  {clauses : List (Clause Piece)} {rescue : Option (Rescue Piece)} {depth inner : Nat}

namespace LaidTry

theorem catching_block_outside (hl : LaidTry code pc t block exit clauses rescue catches)
    (hn : Nested depth block) (hq : pc + size (layOut block) ≤ q) :
    catching code q (layOut block) = [] ∧ catching code q (t.clauseRows block clauses) = [] ∧
      catching code q (blockRows t rescue block) = [] ∧ ∀ r, ¬ InGaps code q (gaps r block) := by
  have houtside : ¬ Inside code q t.stretch := by
    rw [hl.inside]
    omega
  exact ⟨catching_outside block hl.laid_block hn (.inr hq),
    catching_clauseRows_outside hl (.inl houtside),
    catching_blockRows_outside hl (.inl houtside), fun _ => not_inGaps_of_outside hl.laid_block (.inr hq)⟩

theorem catching_exit_outside (hl : LaidTry code pc t block exit clauses rescue catches)
    (hn : Nested depth exit) (hq : q < pc + size (layOut block) ∨
      pc + size (layOut block) + size (layOut exit) ≤ q) :
    catching code q (layOut exit) = [] ∧ ∀ r, ¬ InGaps code q (gaps r exit) :=
  ⟨catching_outside exit hl.laid_exit hn hq, fun _ => not_inGaps_of_outside hl.laid_exit hq⟩

theorem catching_clauses_outside (hl : LaidTry code pc t block exit clauses rescue catches)
    (hn : ClausesNested inner depth clauses)
    (hq : q < catches ∨ catches + size (layOutClauses t.done clauses) ≤ q) :
    catching code q (layOutClauses t.done clauses) = [] ∧
      catching code q (handlerRows t.depth rescue clauses) = [] ∧
      ∀ r, ¬ InGaps code q (clauseGaps r clauses) := by
  refine ⟨Lowering.catching_clauses_outside clauses hl.laid_clauses hn hq,
    catching_handlerRows_outside hl.laid_clauses hq, fun r hgap => ?_⟩
  have := (ordered_clauseGaps r t.done clauses hl.laid_clauses).bounds hgap
  omega

/-- Before the handler, only its rows from the block and the clauses matter. -/
theorem rescueCatching_before (hl : LaidTry code pc t block exit clauses rescue catches)
    (hn : ∀ r ∈ rescue, Nested depth r.body)
    (hq : q < catches + size (layOutClauses t.done clauses)) :
    rescueCatching code q t block clauses rescue =
        catching code q (blockRows t rescue block) ++
          catching code q (handlerRows t.depth rescue clauses) ∧
      ∀ r, ¬ InGaps code q (rescueGaps r rescue) := by
  cases rescue with
  | none => exact ⟨rfl, fun _ => inGaps_nil⟩
  | some r =>
      have hr := hl.laid_rescue r rfl
      have hself : ¬ Inside code q (r.handler, r.stored) := by
        rw [hr.inside]
        omega
      refine ⟨?_, fun _ => not_inGaps_of_outside hr.laid (.inl (by omega))⟩
      simp only [rescueCatching]
      rw [catching_outside r.body hr.laid (hn r rfl) (.inl (by omega)),
        catching_row_outside hself]
      simp

/-- In the code of the handler, there are the rows of its body and that of its store. -/
theorem catching_behind {r : Rescue Piece}
    (hl : LaidTry code pc t block exit clauses (some r) catches)
    (hn : (Piece.tryCatch t block exit clauses (some r)).Nested depth)
    (hq : catches + size (layOutClauses t.done clauses) ≤ q) :
    catching code q (Piece.tryCatch t block exit clauses (some r)).directives =
        catching code q (layOut r.body) ++
          catching code q [.handler r.handler r.stored r.handler none] ∧
      ∀ region, InGaps code q ((Piece.tryCatch t block exit clauses (some r)).gaps region) ↔
        InGaps code q (gaps region r.body) := by
  obtain ⟨-, hnblock, hnexit, hnclauses, -⟩ := nested_tryCatch.mp hn
  have hcatches := hl.catches_eq
  obtain ⟨hb, hbclauses, hbrows, hbgaps⟩ := hl.catching_block_outside (q := q) hnblock (by omega)
  obtain ⟨hx, hxgaps⟩ := hl.catching_exit_outside (q := q) hnexit (.inr (by omega))
  obtain ⟨hc, hcrows, hcgaps⟩ := hl.catching_clauses_outside hnclauses (.inr hq)
  constructor
  · rw [catching_tryCatch, hb, hx, hc, hbclauses, rescueCatching, hbrows, hcrows]
    simp
  · intro region
    simp [gaps_tryCatch, rescueGaps, hbgaps region, hxgaps region, hcgaps region]

end LaidTry

theorem sites_tryCatch (around : List Guard) :
    (Piece.tryCatch t block exit clauses rescue).sites around =
      sites (blockGuard clauses rescue :: around) block ++ sites around exit ++
        [⟨⟨.goto, some (.label t.done)⟩, [], around⟩] ++
        clauseSites (clauseGuards rescue) around t.done clauses ++
        (match rescue with
          | none => []
          | some r => [⟨⟨.store, some (.slot r.slot)⟩, [(none, r.handler)], around⟩] ++
            sites around r.body ++
            [⟨⟨.load, some (.slot r.slot)⟩, [], around⟩, ⟨⟨.throw, none⟩, [], around⟩]) := by
  cases rescue <;> rfl

theorem own_rescue {around : List Guard} {r : Rescue Piece}
    (hl : LaidTry code pc t block exit clauses (some r) catches)
    (hn : (Piece.tryCatch t block exit clauses (some r)).Nested around.length)
    (hbody : ForSites (Own code around (layOut r.body) (gaps · r.body))
      (catches + size (layOutClauses t.done clauses) + 1) (sites around r.body)) :
    ForSites (Own code around (Piece.tryCatch t block exit clauses (some r)).directives
      fun region => (Piece.tryCatch t block exit clauses (some r)).gaps region)
      (catches + size (layOutClauses t.done clauses))
      ([⟨⟨.store, some (.slot r.slot)⟩, [(none, r.handler)], around⟩] ++ sites around r.body ++
        [⟨⟨.load, some (.slot r.slot)⟩, [], around⟩, ⟨⟨.throw, none⟩, [], around⟩]) := by
  obtain ⟨-, -, -, -, hnbody⟩ := nested_tryCatch.mp hn
  have hr := hl.laid_rescue r rfl
  revert hbody
  generalize hp : catches + size (layOutClauses t.done clauses) = p at hr
  intro hbody
  -- A position in the code of the handler but outside its body.
  have hbare : ∀ q i extra, p ≤ q → (q < p + 1 ∨ p + 1 + size (layOut r.body) ≤ q) →
      catching code q [.handler r.handler r.stored r.handler none] = extra →
      Own code around (Piece.tryCatch t block exit clauses (some r)).directives
        (fun region => (Piece.tryCatch t block exit clauses (some r)).gaps region) q
        ⟨i, extra, around⟩ := by
    intro q i extra hle hq hself
    obtain ⟨hcatch, hgaps⟩ := hl.catching_behind hn (hp ▸ hle)
    refine .bare ?_ fun region => ?_
    · rw [hcatch, catching_outside r.body hr.laid (hnbody r rfl) hq, hself, List.nil_append]
    · rw [hgaps region]
      exact not_inGaps_of_outside hr.laid hq
  have hself : ∀ q, q ≠ p → catching code q [.handler r.handler r.stored r.handler none] = [] :=
    fun q hq => catching_row_outside (mt hr.inside.mp hq) []
  simp only [forSites_append, forSites_cons, List.length_append, List.length_singleton,
    length_sites, ← Nat.add_assoc]
  refine ⟨⟨⟨?_, trivial⟩, hbody.imp ?_⟩, ?_, ?_, trivial⟩
  · exact hbare p _ _ (Nat.le_refl _) (.inl (by omega)) (catching_row_inside (hr.inside.mpr rfl) [])
  · intro q s hlo _ hown
    obtain ⟨hcatch, hgaps⟩ := hl.catching_behind (q := q) hn (by omega)
    exact hown.widen (by rw [hcatch, hself q (by omega), List.append_nil]) hgaps
  · exact hbare _ _ _ (by omega) (.inr (by omega)) (hself _ (by omega))
  · exact hbare _ _ _ (by omega) (.inr (by omega)) (hself _ (by omega))

/-- The rows of a try, seen from its parts. -/
theorem own_tryCatch {around : List Guard}
    (hl : LaidTry code pc t block exit clauses rescue catches)
    (hn : (Piece.tryCatch t block exit clauses rescue).Nested around.length)
    (hblock : ForSites (Own code (blockGuard clauses rescue :: around) (layOut block)
      (gaps · block)) pc (sites (blockGuard clauses rescue :: around) block))
    (hexit : ForSites (Own code around (layOut exit) (gaps · exit)) (pc + size (layOut block))
      (sites around exit))
    (hclauses : ForSites (Own code around
      (layOutClauses t.done clauses ++ handlerRows t.depth rescue clauses) (clauseGaps · clauses))
      catches (clauseSites (clauseGuards rescue) around t.done clauses))
    (hrescue : ∀ r ∈ rescue, ForSites (Own code around (layOut r.body) (gaps · r.body))
      (catches + size (layOutClauses t.done clauses) + 1) (sites around r.body)) :
    ForSites (Own code around (Piece.tryCatch t block exit clauses rescue).directives
      fun r => (Piece.tryCatch t block exit clauses rescue).gaps r) pc
      ((Piece.tryCatch t block exit clauses rescue).sites around) := by
  obtain ⟨hdepth, hnblock, hnexit, hnclauses, hnbody⟩ := nested_tryCatch.mp hn
  have hcatches := hl.catches_eq
  rw [sites_tryCatch]
  simp only [forSites_append, List.length_append, length_sites, length_clauseSites,
    List.length_singleton, ← Nat.add_assoc, ← hcatches]
  refine ⟨⟨⟨⟨hblock.imp ?_, hexit.imp ?_⟩, ?_⟩, hclauses.imp ?_⟩, ?_⟩
  · intro q s hlo hhi hown
    rw [length_sites] at hhi
    obtain ⟨hx, hxgaps⟩ := hl.catching_exit_outside hnexit (.inl hhi)
    obtain ⟨hc, hcrows, hcgaps⟩ := hl.catching_clauses_outside (q := q) hnclauses (.inl (by omega))
    obtain ⟨hr, hrgaps⟩ := hl.rescueCatching_before hnbody (q := q) (by omega)
    have hinside : Inside code q t.stretch := hl.inside.mpr ⟨hlo, hhi⟩
    refine hown.close (fun hgap => ?_) (fun hgap => ?_) fun r => ?_
    · rw [← hdepth] at hgap
      rw [catching_tryCatch, hx, hc, catching_clauseRows_inside hl hinside hgap, hr, hcrows,
        catching_blockRows_inside hl hinside hgap]
      simp [blockGuard]
    · rw [← hdepth] at hgap
      rw [catching_tryCatch, hx, hc, catching_clauseRows_outside hl (.inr hgap), hr, hcrows,
        catching_blockRows_outside hl (.inr hgap)]
      simp
    · simp [gaps_tryCatch, hxgaps r, hcgaps r, hrgaps r]
  · intro q s hlo hhi hown
    rw [length_sites] at hhi
    obtain ⟨hb, hbclauses, hbrows, hbgaps⟩ := hl.catching_block_outside hnblock hlo
    obtain ⟨hc, hcrows, hcgaps⟩ := hl.catching_clauses_outside (q := q) hnclauses (.inl (by omega))
    obtain ⟨hr, hrgaps⟩ := hl.rescueCatching_before hnbody (q := q) (by omega)
    refine hown.widen ?_ fun r => ?_
    · rw [catching_tryCatch, hb, hc, hbclauses, hr, hbrows, hcrows]
      simp
    · simp [gaps_tryCatch, hbgaps r, hcgaps r, hrgaps r]
  · obtain ⟨hb, hbclauses, hbrows, hbgaps⟩ := hl.catching_block_outside hnblock
      (Nat.le_add_right _ (size (layOut exit)))
    obtain ⟨hx, hxgaps⟩ := hl.catching_exit_outside hnexit (.inr (Nat.le_refl _))
    obtain ⟨hc, hcrows, hcgaps⟩ := hl.catching_clauses_outside
      (q := pc + size (layOut block) + size (layOut exit)) hnclauses (.inl (by omega))
    obtain ⟨hr, hrgaps⟩ := hl.rescueCatching_before
      (q := pc + size (layOut block) + size (layOut exit)) hnbody (by omega)
    refine ⟨.bare ?_ fun r => ?_, trivial⟩
    · rw [catching_tryCatch, hb, hx, hc, hbclauses, hr, hbrows, hcrows]
      rfl
    · simp [gaps_tryCatch, hbgaps r, hxgaps r, hcgaps r, hrgaps r]
  · intro q s hlo hhi hown
    rw [length_clauseSites] at hhi
    obtain ⟨hb, hbclauses, hbrows, hbgaps⟩ := hl.catching_block_outside (q := q) hnblock (by omega)
    obtain ⟨hx, hxgaps⟩ := hl.catching_exit_outside (q := q) hnexit (.inr (by omega))
    obtain ⟨hr, hrgaps⟩ := hl.rescueCatching_before hnbody hhi
    refine hown.widen ?_ fun r => ?_
    · rw [catching_tryCatch, hb, hx, hbclauses, hr, hbrows]
      simp
    · simp [gaps_tryCatch, hbgaps r, hxgaps r, hrgaps r]
  · match rescue with
    | none => trivial
    | some r => exact own_rescue hl hn (hrescue r rfl)

/-- The rows of a clause and those that follow it, seen from its parts. -/
theorem own_clause {around : List Guard} {done : Label} {c : Clause Piece}
    {rest : List (Clause Piece)} (hl : LaidClause code pc done c rest)
    (hn : ClausesNested (around.length + (clauseGuards rescue).length) around.length (c :: rest))
    (hbody : ForSites (Own code (clauseGuards rescue ++ around) (layOut c.body) (gaps · c.body))
      (pc + 1) (sites (clauseGuards rescue ++ around) c.body))
    (hexit : ForSites (Own code around (layOut c.exit) (gaps · c.exit))
      (pc + 1 + size (layOut c.body)) (sites around c.exit))
    (hrest : ForSites (Own code around
      (layOutClauses done rest ++ handlerRows around.length rescue rest) (clauseGaps · rest))
      (pc + 1 + size (layOut c.body) + size (layOut c.exit) + 1)
      (clauseSites (clauseGuards rescue) around done rest)) :
    ForSites (Own code around
      (layOutClauses done (c :: rest) ++ handlerRows around.length rescue (c :: rest))
      (clauseGaps · (c :: rest))) pc
      (clauseSites (clauseGuards rescue) around done (c :: rest)) := by
  obtain ⟨ty, stretch, slot, body, exit⟩ := c
  obtain ⟨hnbody, hnexit, hnrest⟩ := hn
  simp only at hbody hexit hrest
  have hcatch : ∀ q, catching code q (layOutClauses done (⟨ty, stretch, slot, body, exit⟩ :: rest) ++
      handlerRows around.length rescue (⟨ty, stretch, slot, body, exit⟩ :: rest)) =
        catching code q (layOut body) ++ catching code q (layOut exit) ++
        catching code q (layOutClauses done rest) ++
        catching code q (handlerRows around.length rescue [⟨ty, stretch, slot, body, exit⟩]) ++
        catching code q (handlerRows around.length rescue rest) := by
    intro q
    rw [handlerRows_cons]
    simp [layOutClauses]
  have hgaps : ∀ r q, InGaps code q (clauseGaps r (⟨ty, stretch, slot, body, exit⟩ :: rest)) ↔
      (InGaps code q (gaps r body) ∨ InGaps code q (gaps r exit)) ∨
        InGaps code q (clauseGaps r rest) := by
    intro r q
    rw [clauseGaps, inGaps_append, inGaps_append]
  have hinside : ∀ q, Inside code q stretch ↔ pc ≤ q ∧ q < pc + 1 + size (layOut body) :=
    fun q => hl.inside
  have hbodyOut : ∀ q, q < pc + 1 ∨ pc + 1 + size (layOut body) ≤ q →
      catching code q (layOut body) = [] ∧ ∀ r, ¬ InGaps code q (gaps r body) := fun q hq =>
    ⟨catching_outside body hl.laid_body hnbody hq, fun _ => not_inGaps_of_outside hl.laid_body hq⟩
  have hexitOut : ∀ q, q < pc + 1 + size (layOut body) ∨
      pc + 1 + size (layOut body) + size (layOut exit) ≤ q →
      catching code q (layOut exit) = [] ∧ ∀ r, ¬ InGaps code q (gaps r exit) := fun q hq =>
    ⟨catching_outside exit hl.laid_exit hnexit hq, fun _ => not_inGaps_of_outside hl.laid_exit hq⟩
  have hrestOut : ∀ q, q < pc + 1 + size (layOut body) + size (layOut exit) + 1 →
      catching code q (layOutClauses done rest) = [] ∧
        catching code q (handlerRows around.length rescue rest) = [] ∧
        ∀ r, ¬ InGaps code q (clauseGaps r rest) := by
    intro q hq
    refine ⟨catching_clauses_outside rest hl.laid_rest hnrest (.inl hq),
      catching_handlerRows_outside hl.laid_rest (.inl hq), fun r hgap => ?_⟩
    have := (ordered_clauseGaps r done rest hl.laid_rest).bounds hgap
    simp only at this
    omega
  rw [clauseSites]
  simp only [forSites_append, forSites_cons, List.length_append, List.length_singleton,
    length_sites, ← Nat.add_assoc]
  refine ⟨⟨⟨⟨⟨?_, trivial⟩, hbody.imp ?_⟩, hexit.imp ?_⟩, ?_, trivial⟩, hrest.imp ?_⟩
  · obtain ⟨hb, hbgaps⟩ := hbodyOut pc (.inl (by omega))
    obtain ⟨he, hegaps⟩ := hexitOut pc (.inl (by omega))
    obtain ⟨hr, hrrows, hrgaps⟩ := hrestOut pc (by omega)
    have hin := (hinside pc).mpr ⟨Nat.le_refl _, by omega⟩
    refine .bare ?_ fun r => ?_
    · rw [hcatch, hb, he, hr, hrrows, catching_handlerRow_inside hl hin (hbgaps _)]
      simp
    · simp [hgaps, hbgaps r, hegaps r, hrgaps r]
  · intro q s hlo hhi hown
    rw [length_sites] at hhi
    obtain ⟨he, hegaps⟩ := hexitOut q (.inl hhi)
    obtain ⟨hr, hrrows, hrgaps⟩ := hrestOut q (by omega)
    have hin := (hinside q).mpr ⟨by omega, hhi⟩
    have hsame : ∀ r, InGaps code q (clauseGaps r (⟨ty, stretch, slot, body, exit⟩ :: rest)) ↔
        InGaps code q (gaps r body) := fun r => by simp [hgaps, hegaps r, hrgaps r]
    -- Without a finally body there are no rows, and no region was opened either.
    cases rescue with
    | none =>
        refine hown.widen ?_ hsame
        rw [hcatch, he, hr]
        simp [handlerRows]
    | some rescue =>
        have hown : Own code ([(none, rescue.handler)] :: around) (layOut body) (gaps · body) q s :=
          hown
        refine hown.close (fun hgap => ?_) (fun hgap => ?_) hsame
        · rw [hcatch, he, hr, hrrows, catching_handlerRow_inside hl hin hgap]
          simp [clauseGuards]
        · rw [hcatch, he, hr, hrrows, catching_handlerRow_outside hl (.inr hgap)]
          simp
  · intro q s hlo hhi hown
    rw [length_sites] at hhi
    obtain ⟨hb, hbgaps⟩ := hbodyOut q (.inr hlo)
    obtain ⟨hr, hrrows, hrgaps⟩ := hrestOut q (by omega)
    have hout : ¬ Inside code q stretch := by
      rw [hinside]
      omega
    refine hown.widen ?_ fun r => by simp [hgaps, hbgaps r, hrgaps r]
    rw [hcatch, hb, hr, hrrows, catching_handlerRow_outside hl (.inl hout)]
    simp
  · obtain ⟨hb, hbgaps⟩ := hbodyOut (pc + 1 + size (layOut body) + size (layOut exit))
      (.inr (by omega))
    obtain ⟨he, hegaps⟩ := hexitOut (pc + 1 + size (layOut body) + size (layOut exit))
      (.inr (by omega))
    obtain ⟨hr, hrrows, hrgaps⟩ := hrestOut (pc + 1 + size (layOut body) + size (layOut exit))
      (by omega)
    have hout : ¬ Inside code (pc + 1 + size (layOut body) + size (layOut exit)) stretch := by
      rw [hinside]
      omega
    refine .bare ?_ fun r => by simp [hgaps, hbgaps r, hegaps r, hrgaps r]
    rw [hcatch, hb, he, hr, hrrows, catching_handlerRow_outside hl (.inl hout)]
    rfl
  · intro q s hlo _ hown
    obtain ⟨hb, hbgaps⟩ := hbodyOut q (.inr (by omega))
    obtain ⟨he, hegaps⟩ := hexitOut q (.inr (by omega))
    have hout : ¬ Inside code q stretch := by
      rw [hinside]
      omega
    refine hown.widen ?_ fun r => by simp [hgaps, hbgaps r, hegaps r]
    rw [hcatch, hb, he, catching_handlerRow_outside hl (.inl hout)]
    simp

end Try

mutual

/-- The rows of pieces cover their own positions as they should. -/
theorem own_piece (around : List Guard) (p : Piece) {pc : Nat} (h : Laid code pc p.directives)
    (hn : p.Nested around.length) :
    ForSites (Own code around p.directives fun r => p.gaps r) pc (p.sites around) := by
  match p with
  | .give d =>
      rw [Piece.sites]
      cases d.instruction? with
      | none => trivial
      | some i => exact ⟨.bare (catching_cons_of_none hn []) fun _ => inGaps_nil, trivial⟩
  | .statement body => exact own_sites around body h hn
  | .copy stretch stillOpen body =>
      obtain ⟨hlt, hn⟩ := hn
      obtain ⟨hstart, hbody, hstop⟩ := laid_copy h
      have hlength : (around.drop (around.length - stillOpen)).length = stillOpen := by
        rw [List.length_drop]
        omega
      rw [← hlength] at hn
      rw [Piece.sites]
      refine (own_sites _ body hbody hn).imp fun q s hlo hhi hown => ?_
      rw [length_sites] at hhi
      refine hown.copy (Nat.le_of_lt hlt) (by simp [Piece.directives]) (fun r hr => ?_) fun r hr => ?_
      · rw [Piece.gaps, if_pos hr]
        refine ⟨stretch, List.mem_cons_self .., ?_⟩
        rw [Inside, Code.offset_eq hstart, Code.offset_eq hstop]
        exact ⟨hlo, hhi⟩
      · rw [Piece.gaps, if_neg (by omega)]
  | .tryCatch t block exit clauses none =>
      obtain ⟨catches, hl⟩ := laid_tryCatch h
      obtain ⟨hdepth, hnblock, hnexit, hnclauses, -⟩ := nested_tryCatch.mp hn
      refine own_tryCatch hl hn (own_sites _ block hl.laid_block hnblock)
        (own_sites around exit hl.laid_exit hnexit) ?_ nofun
      rw [hdepth]
      exact own_clauses none around clauses hl.laid_clauses hnclauses
  | .tryCatch t block exit clauses (some ⟨handler, stored, slot, body⟩) =>
      obtain ⟨catches, hl⟩ := laid_tryCatch h
      obtain ⟨hdepth, hnblock, hnexit, hnclauses, hnbody⟩ := nested_tryCatch.mp hn
      have hr := hl.laid_rescue _ rfl
      have hbody := own_sites around body hr.laid (hnbody _ rfl)
      refine own_tryCatch hl hn (own_sites _ block hl.laid_block hnblock)
        (own_sites around exit hl.laid_exit hnexit) ?_ ?_
      · rw [hdepth]
        exact own_clauses _ around clauses hl.laid_clauses hnclauses
      · rintro _ ⟨⟩
        exact hbody
termination_by structural p

theorem own_sites (around : List Guard) (ps : List Piece) {pc : Nat}
    (h : Laid code pc (layOut ps)) (hn : Nested around.length ps) :
    ForSites (Own code around (layOut ps) fun r => gaps r ps) pc (sites around ps) := by
  match ps with
  | [] => trivial
  | p :: rest =>
      obtain ⟨hp, hrest⟩ := laid_append.mp h
      have hgaps : ∀ r q, InGaps code q (gaps r (p :: rest)) ↔
          InGaps code q (p.gaps r) ∨ InGaps code q (gaps r rest) := fun r q => inGaps_append
      rw [sites, forSites_append, length_pieceSites]
      refine ⟨(own_piece around p hp hn.1).imp fun q s _ hhi hown => ?_,
        (own_sites around rest hrest hn.2).imp fun q s hlo _ hown => ?_⟩
      · rw [length_pieceSites] at hhi
        refine hown.widen ?_ fun r => ?_
        · rw [layOut, catching_append, catching_outside rest hrest hn.2 (.inl hhi), List.append_nil]
        · rw [hgaps, or_iff_left (not_inGaps_of_outside hrest (.inl hhi))]
      · refine hown.widen ?_ fun r => ?_
        · rw [layOut, catching_append, catching_piece_outside p hp hn.1 (.inr hlo),
            List.nil_append]
        · rw [hgaps, or_iff_right fun hgap => ?_]
          have := (ordered_pieceGaps r p hp).bounds hgap
          omega
termination_by structural ps

theorem own_clauses (rescue : Option (Rescue Piece)) (around : List Guard) {done : Label}
    (clauses : List (Clause Piece)) {pc : Nat} (h : Laid code pc (layOutClauses done clauses))
    (hn : ClausesNested (around.length + (clauseGuards rescue).length) around.length clauses) :
    ForSites (Own code around (layOutClauses done clauses ++
      handlerRows around.length rescue clauses) fun r => clauseGaps r clauses) pc
      (clauseSites (clauseGuards rescue) around done clauses) := by
  match clauses with
  | [] => trivial
  | ⟨ty, stretch, slot, body, exit⟩ :: rest =>
      have hl := laid_clause h
      have hbody := own_sites (clauseGuards rescue ++ around) body hl.laid_body
        (by rw [List.length_append, Nat.add_comm]; exact hn.1)
      exact own_clause hl hn hbody (own_sites around exit hl.laid_exit hn.2.1)
        (own_clauses rescue around rest hl.laid_rest hn.2.2)
termination_by structural clauses

end

/-! ## The finished table -/

/-- The rows of the finished table that cover a position are those among the
directives: the rows that are left out cover nothing. -/
theorem covering_eq {ds : List Directive} (h : Assembled ds code) (q : Nat) :
    ((code.handlers.filter (·.covers q)).map fun row => (row.catchType, some row.handler)) =
      (catching code q ds).map fun g => (g.1, code.position g.2) := by
  have hempty : ∀ row : Handler, row.covers q → row.start < row.stop := by
    intro row hrow
    simp only [Handler.covers, Bool.and_eq_true, decide_eq_true_eq] at hrow
    omega
  have hrows : code.handlers.filter (·.covers q) =
      ((pendingRows ds).filter fun p => (code.resolved p).covers q).map code.resolved := by
    rw [h.handlers, List.filter_filter, List.filter_map]
    congr 1
    refine List.filter_congr fun p _ => ?_
    have hlt := hempty (code.resolved p)
    cases hcovers : (code.resolved p).covers q <;> simp_all
  rw [hrows, catching, List.map_map, List.map_map]
  refine List.map_congr_left fun p hp => ?_
  obtain ⟨pc, hpc⟩ := (h.rows p (List.mem_filter.mp hp).1).2.2
  simp [Code.resolved, hpc, Code.offset_eq hpc]

/-- The rows that cover an instruction, in table order, are those of the regions that
were open around it when it was generated, innermost first: for the block of a try one
row for each clause and then the one of the finally body, for the body of a clause only
the latter. Only the store of a caught object and that of an object in flight are
covered by one more row, which comes first. An instruction of a copy on the way out stands
in the regions outside the one that was left, and no row that covers it leads to a handler
of the try that was left or of one inside it. -/
theorem handlers_covering {maxLabels : Nat} {p : Annotated.Program}
    (h : generate maxLabels p = .ok code) :
    ∃ emission ss, program p 0 = .ok emission ∧ Emits [] [] emission.pieces ss ∧
      ss.map (·.instruction) = code.instructions.toList ∧
      ∀ pc site, ss[pc]? = some site →
        ((code.handlers.filter (·.covers pc)).map fun row => (row.catchType, some row.handler)) =
            site.guards.map (fun g => (g.1, code.position g.2)) ∧
          ∀ r ∈ site.left, ∀ g ∈ r.catches, ∀ row ∈ code.handlers, row.covers pc →
            code.position g.2 ≠ some row.handler := by
  obtain ⟨ds, hds, hcode, -⟩ := generate_ok h
  obtain ⟨ps, n', hps, rfl⟩ := directives_eq_ok_iff.mp hds
  obtain ⟨ss, hss⟩ := emitted_program hps
  have hsites : ss.map (·.site) = sites [] ps := map_site ps hss
  have hown := own_sites [] ps hcode.laid (nested_program hps)
  refine ⟨_, ss, hps, hss, ?_, fun pc site hsite => ?_⟩
  · rw [hcode.instructions, ← instructionsOf, ← map_instruction_sites [] ps, ← hsites,
      List.map_map]
    rfl
  · have hcovering : ((code.handlers.filter (·.covers pc)).map fun row =>
        (row.catchType, some row.handler)) = site.guards.map fun g => (g.1, code.position g.2) := by
      have hget : (sites [] ps)[pc]? = some site.site := by
        rw [← hsites, List.getElem?_map, hsite]
        rfl
      obtain ⟨inner, k, -, haround, hcatch, -⟩ := hown.get hget
      rw [covering_eq hcode, ← Nat.zero_add pc, hcatch, ← OpenSite.site_guards, Site.guards, haround]
      simp
    refine ⟨hcovering, fun r hr g hg row hrow hcovers hpos => ?_⟩
    -- A row that covers the position is one of those that the regions around it have.
    have hmem : (row.catchType, some row.handler) ∈ ((code.handlers.filter (·.covers pc)).map
        fun row => (row.catchType, some row.handler)) :=
      List.mem_map_of_mem (List.mem_filter.mpr ⟨hrow, hcovers⟩)
    rw [hcovering] at hmem
    obtain ⟨g', hg', heq⟩ := List.mem_map.mp hmem
    have hclear : Clear code 0 (0 + size (layOut ps)) [] [] := by constructor <;> simp
    refine apart_pieces ps hcode.laid hss hclear site (List.mem_of_getElem? hsite) r hr g hg g' hg' ?_
    rw [hpos, (Prod.mk.inj heq).2]

/-- A loop that is left through a try with a finally body, which calls `f`. -/
def breakThroughFinally : Annotated.Program :=
  ⟨[.whileLoop ⟨0, true, false⟩ (.bool .boolean true)
    (.tryCatch [.breakJump 0] [] (some ⟨0, [.expression (.call .void "f" []) false]⟩))], 1⟩

/-- The copy of the finally body comes first. It splits the rows of the block, and no row
covers it. -/
theorem handlers_covering_breakThroughFinally :
    ∃ code, generate 16 breakThroughFinally = .ok code ∧
      code.instructions[0]? = some ⟨.invoke, some (.call "f" 0 false)⟩ ∧
      code.handlers = [⟨1, 2, 4, none⟩, ⟨4, 5, 4, none⟩] ∧
      code.handlers.filter (·.covers 0) = [] ∧
      ∃ emission ss, program breakThroughFinally 0 = .ok emission ∧
        Emits [] [] emission.pieces ss ∧ ss.map (·.instruction) = code.instructions.toList ∧
        ∀ pc site, ss[pc]? = some site →
          ((code.handlers.filter (·.covers pc)).map fun row => (row.catchType, some row.handler)) =
              site.guards.map (fun g => (g.1, code.position g.2)) ∧
            ∀ r ∈ site.left, ∀ g ∈ r.catches, ∀ row ∈ code.handlers, row.covers pc →
              code.position g.2 ≠ some row.handler := by
  have hcode : (generate 16 breakThroughFinally).toOption.map
      (fun code => (code.instructions[0]?, code.handlers)) =
        some (some ⟨.invoke, some (.call "f" 0 false)⟩, [⟨1, 2, 4, none⟩, ⟨4, 5, 4, none⟩]) := by
    decide +kernel
  cases h : generate 16 breakThroughFinally with
  | error e => simp [h, Except.toOption] at hcode
  | ok code =>
      rw [h] at hcode
      obtain ⟨hfirst, hhandlers⟩ := Prod.mk.inj (Option.some.inj hcode)
      refine ⟨code, rfl, hfirst, hhandlers, ?_, handlers_covering h⟩
      rw [hhandlers]
      rfl

end MethodCompiler.Lowering
