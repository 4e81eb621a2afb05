import MethodCompiler.Proofs.Building
import MethodCompiler.Proofs.Checking
import MethodCompiler.Proofs.Heights
import MethodCompiler.Proofs.Sites
import MethodCompiler.Proofs.StatementLabels

/-!
# The stack discipline of compiled code

Code for a statement starts and ends at height zero. Inside it, only the code of
expressions and the first instruction of a handler find anything on the stack. The
labels of statements all stand at height zero, except those where handlers start.

From this a run has the height that was given to each instruction it comes to, because
each step leaves the height its instruction says and what is thrown comes to a handler
alone. So no run ends for want of values on the stack.
-/

namespace MethodCompiler

namespace Lowering

open Annotated (Expr Stmt Catch)
open Gen

variable {code : Code} {want : Label → Nat → Prop}

/-! ## Statements -/

/-- Some labels more, at height zero. -/
abbrev AlsoZero (want : Label → Nat → Prop) (ls : List Nat) : Label → Nat → Prop :=
  fun l x => want l x ∨ (l ∈ ls ∧ x = 0)

/-- What fits at height zero with some labels more. -/
theorem Fits.alsoZero {T : Targets} {R : List Region} {inner : Option Frame} {lo hi : Nat}
    {ls : List Nat} (h : Fits T (Also (want · 0) ls) R inner lo hi) :
    Fits T (AlsoZero want ls · 0) R inner lo hi :=
  h.mono fun _ hl => hl.imp_right fun hmem => ⟨hmem, rfl⟩

theorem Stacks.places {h : Nat} (ls : List Nat) :
    Stacks code (ls.map (·, h)) want h (placed ls) h := by
  induction ls with
  | nil => exact .nil
  | cons l ls ih => exact (Stacks.place l).append ih

theorem groupLabels_eq (d : Dispatch) (default : Nat) (cases : List CaseTarget) (group : Nat) :
    groupLabels d default cases group = placed (labelsOfGroup d default cases group) := by
  rw [groupLabels, labelsOfGroup, placed, placed, List.map_append]
  by_cases hd : d.defaultGroup = some group <;> simp [hd, Gen.placedIf]

/-- A switch takes its key off the stack and jumps. -/
theorem Stacks.dispatch {d : Dispatch} {default : Nat} {cases : List CaseTarget}
    (hdefault : want default 0) (hcases : ∀ l ∈ cases.map (·.label), want l 0) (h' : Nat) :
    Stacks code [] want 1 [.give (dispatchDirective d default cases)] h' := by
  have hrefs : ∀ l ∈ (dispatchDirective d default cases).refs, want l 0 := by
    intro l hl
    obtain rfl | hl := refs_dispatchDirective hl
    · exact hdefault
    · exact hcases l hl
  rw [dispatchDirective] at hrefs ⊢
  split at hrefs
  · refine .instruction rfl rfl (Nat.le_refl _) ?_
      (fun l hl => hrefs l (Directive.mem_refs_of_instruction rfl hl)) ?_ <;> rintro ⟨⟩
  · refine .instruction rfl rfl (Nat.le_refl _) ?_
      (fun l hl => hrefs l (Directive.mem_refs_of_instruction rfl hl)) ?_ <;> rintro ⟨⟩

section Forms

variable {n k m : Nat} {j : Annotated.Jumps} {test body other first last key : List Piece}

theorem stacks_ifThen (htest : Stacks code [] (AlsoZero want [n]) 0 test 0)
    (hbody : Stacks code [] (AlsoZero want [n]) 0 body 0) :
    Stacks code [] want 0 [.statement
      ([Piece.give (.create n)] ++ test ++ body ++ [Piece.give (.place n)])] 0 := by
  refine Stacks.statement (((((Stacks.create n).append htest).append hbody).append
    (Stacks.place n)).close ?_)
  rintro l x (hw | ⟨hl, rfl⟩)
  · exact .inl hw
  · exact .inr (by simpa using hl)

theorem stacks_ifElse (htest : Stacks code [] (AlsoZero want [n, m]) 0 test 0)
    (hbody : Stacks code [] (AlsoZero want [n, m]) 0 body 0)
    (hother : Stacks code [] (AlsoZero want [n, m]) 0 other 0) :
    Stacks code [] want 0 (ifElsePieces n m test body other) 0 := by
  have hdone : AlsoZero want [n, m] m 0 := .inr ⟨by simp, rfl⟩
  refine Stacks.statement ((((((Stacks.create n).append htest).append hbody).append
    ((Stacks.create m).append ((Stacks.goto hdone 0).append (Stacks.place n)))).append
    hother).append (Stacks.place m) |>.close ?_)
  rintro l x (hw | ⟨hl, rfl⟩)
  · exact .inl hw
  · exact .inr (by simpa using hl)

/-- The labels of a loop are placed where the stack is empty. -/
theorem stacks_forLoop (hfirst : Stacks code [] want 0 first 0)
    (htest : Stacks code [] (AlsoZero want (loopLabels j k (k + 2) (k + 3) [k + 1])) 0 test 0)
    (hbody : Stacks code [] (AlsoZero want (loopLabels j k (k + 2) (k + 3) [k + 1])) 0 body 0)
    (hlast : Stacks code [] (AlsoZero want (loopLabels j k (k + 2) (k + 3) [k + 1])) 0 last 0) :
    Stacks code [] want 0 (forPieces j k first test body last) 0 := by
  have hloop : Stacks code [] want 0 (created k 4 ++ _) 0 := ((Stacks.creates k 4).append
    (((((((Stacks.place k).append (htest.append hbody)).append Stacks.placeIf).append
      hlast).append (Stacks.goto (.inr ⟨start_mem_loopLabels .., rfl⟩) 0)).append
      Stacks.placeIf).append (Stacks.place (k + 1)))).close (by
    rintro l x (hw | ⟨hl, rfl⟩)
    · exact .inl hw
    · refine .inr ?_
      have := mem_loopLabels.mp hl
      simpa [List.mem_ite_nil_right] using this)
  refine Stacks.statement ?_
  simpa using hfirst.append hloop

theorem stacks_doLoop
    (hbody : Stacks code [] (AlsoZero want (loopLabels j n (n + 1) (n + 2) [])) 0 body 0)
    (htest : Stacks code [] (AlsoZero want (loopLabels j n (n + 1) (n + 2) [])) 0 test 0) :
    Stacks code [] want 0 (doPieces j n body test) 0 := by
  refine Stacks.statement (((((((Stacks.creates n 3).append (Stacks.place n)).append hbody).append
    Stacks.placeIf).append htest).append Stacks.placeIf).close ?_)
  rintro l x (hw | ⟨hl, rfl⟩)
  · exact .inl hw
  · refine .inr ?_
    have := mem_loopLabels.mp hl
    simpa [List.mem_ite_nil_right] using this

theorem stacks_switch {d : Dispatch} {groups : Nat} {hasBreak : Bool} (hd : d.Sound groups)
    (hkey : Stacks code [] want 0 key 1)
    (hbody : Stacks code (((List.range' 0 groups).flatMap
      (labelsOfGroup d (k + 1) (numbered (k + 2) d.cases))).map (·, 0))
      (AlsoZero want (switchLabels d k groups hasBreak)) 0 body 0) :
    Stacks code [] want 0 (switchPieces d hasBreak k key body) 0 := by
  have hown : ∀ l : Nat, k + 1 ≤ l → l < k + (2 + d.cases.length) →
      AlsoZero want (switchLabels d k groups hasBreak) l 0 :=
    fun l h₁ h₂ => .inr ⟨(mem_switchLabels hd).mpr (.inl ⟨h₁, h₂⟩), rfl⟩
  have hpick : Stacks code [] (AlsoZero want (switchLabels d k groups hasBreak)) 1
      [Piece.give (dispatchDirective d (k + 1) (numbered (k + 2) d.cases))] 0 := by
    refine .dispatch (hown (k + 1) (by omega) (by omega)) (fun l hl => ?_) 0
    rw [map_label_numbered, List.mem_range'_1] at hl
    exact hown l (by omega) (by omega)
  refine Stacks.statement ((((((((hkey.mono fun _ _ => .inl).append (Stacks.creates k 2)).append
    (Stacks.creates (k + 2) _)).append hpick).append hbody).append Stacks.placeIf).append
    Stacks.placeIf).close ?_)
  rintro l x (hw | ⟨hl, rfl⟩)
  · exact .inl hw
  · refine .inr ?_
    rw [switchLabels] at hl
    simpa [List.mem_ite_nil_right] using hl

theorem stacks_copy (stillOpen : Nat) (hbody : Stacks code [] want 0 body 0) :
    Stacks code [] want 0 [.copy (n, n + 1) stillOpen body] 0 := by
  have hall := ((((Stacks.create n).append (Stacks.create (n + 1))).append (Stacks.place n)).append
    hbody).append (Stacks.place (n + 1))
  refine (hall.close fun l x => .inl).of_eq ?_ fun pc => ?_
  · simp [layOut_append, layOut, Piece.directives]
  · simp [starts_append, starts, Piece.starts, Piece.directives]

end Forms

/-! ## Tries

A try is a sequence of pieces like any other, as far as heights are concerned. -/

/-- The pieces of a catch clause, after which the code goes on at `done`. -/
def clausePieces (done : Label) (c : Clause Piece) : List Piece :=
  [.give (.place c.stretch.1), .give (.emit ⟨.store, some (.slot c.slot)⟩)] ++ c.body ++
    [.give (.place c.stretch.2)] ++ c.exit ++ [.give (.emit ⟨.goto, some (.label done)⟩)]

/-- The pieces of the handler that runs a finally body. -/
def rescuePieces (t : TryFrame) (block : List Piece) (clauses : List (Clause Piece)) :
    Option (Rescue Piece) → List Piece
  | none => []
  | some r =>
    [.give (.create r.handler), .give (.create r.stored), .give (.place r.handler),
      .give (.emit ⟨.store, some (.slot r.slot)⟩), .give (.place r.stored)] ++ r.body ++
      [.give (.emit ⟨.load, some (.slot r.slot)⟩), .give (.emit ⟨.throw, none⟩)] ++
      (t.rescueRows r.handler r.stored block clauses).map .give

/-- The pieces of a try. -/
def tryPieces (t : TryFrame) (block exit : List Piece) (clauses : List (Clause Piece))
    (rescue : Option (Rescue Piece)) : List Piece :=
  (t.creates clauses).map .give ++ [.give (.place t.stretch.1)] ++ block ++
    [.give (.place t.stretch.2)] ++ exit ++ [.give (.emit ⟨.goto, some (.label t.done)⟩)] ++
    clauses.flatMap (clausePieces t.done) ++ (t.clauseRows block clauses).map .give ++
    rescuePieces t block clauses rescue ++ [.give (.place t.done)]

theorem layOut_give (ds : List Directive) : layOut (ds.map .give) = ds := by
  induction ds with
  | nil => rfl
  | cons d ds ih =>
      rw [List.map_cons, layOut, ih]
      rfl

theorem starts_give (pc : Nat) (ds : List Directive) : starts pc (ds.map .give) = [] := by
  induction ds generalizing pc with
  | nil => rfl
  | cons d ds ih =>
      rw [List.map_cons, starts, ih]
      rfl

theorem layOut_clausePieces (done : Label) (clauses : List (Clause Piece)) :
    layOut (clauses.flatMap (clausePieces done)) = layOutClauses done clauses := by
  induction clauses with
  | nil => rfl
  | cons c rest ih =>
      rw [List.flatMap_cons, layOut_append, ih, layOutClauses]
      simp [clausePieces, layOut_append, layOut, Piece.directives]

theorem starts_clausePieces (done : Label) (clauses : List (Clause Piece)) (pc : Nat) :
    starts pc (clauses.flatMap (clausePieces done)) = clauseStarts pc clauses := by
  induction clauses generalizing pc with
  | nil => rfl
  | cons c rest ih =>
      rw [List.flatMap_cons, starts_append, ih, clauseStarts]
      simp [clausePieces, starts_append, layOut_append, size_append, starts, Piece.starts, layOut,
        Piece.directives, Nat.add_assoc]

theorem layOut_tryPieces (t : TryFrame) (block exit : List Piece) (clauses : List (Clause Piece))
    (rescue : Option (Rescue Piece)) : layOut (tryPieces t block exit clauses rescue) =
      layOut [.tryCatch t block exit clauses rescue] := by
  cases rescue <;>
    simp [tryPieces, rescuePieces, layOut_append, layOut_give, layOut_clausePieces, layOut,
      Piece.directives]

theorem starts_tryPieces (t : TryFrame) (block exit : List Piece) (clauses : List (Clause Piece))
    (rescue : Option (Rescue Piece)) (pc : Nat) :
    starts pc (tryPieces t block exit clauses rescue) =
      starts pc [.tryCatch t block exit clauses rescue] := by
  cases rescue <;>
    simp [tryPieces, rescuePieces, starts_append, starts_give, starts_clausePieces, layOut_give,
      layOut_clausePieces, starts, Piece.starts, Piece.directives, Nat.add_assoc]

/-- The labels that catch clauses place, with their heights. -/
def clauseHeights (clauses : List (Clause Piece)) : List (Nat × Nat) :=
  clauses.flatMap fun c => [(c.stretch.1, 1), (c.stretch.2, 0)]

/-- The labels of a try that its parts may refer to, besides those around it. -/
def InTry (want : Label → Nat → Prop) (t : TryFrame) (clauses : List (Clause Piece))
    (rescue : Option (Rescue Piece)) (l x : Nat) : Prop :=
  want l x ∨ (l = t.done ∧ x = 0) ∨ (∃ c ∈ clauses, l = c.stretch.1 ∧ x = 1) ∨
    ∃ r ∈ rescue, l = r.handler ∧ x = 1

theorem mem_rows {handler start stop : Label} {catchType : Option String} {gs : List Stretch}
    {d : Directive} (hd : d ∈ rows handler catchType start stop gs) :
    ∃ start stop, d = .handler start stop handler catchType := by
  induction gs generalizing start with
  | nil => exact ⟨_, _, List.mem_singleton.mp hd⟩
  | cons g gs ih =>
      rw [rows, List.mem_cons] at hd
      obtain rfl | hd := hd
      · exact ⟨_, _, rfl⟩
      · exact ih hd

theorem Stacks.rows {h : Nat} {ds : List Directive}
    (hds : ∀ d ∈ ds, ∃ start stop handler catchType,
      d = .handler start stop handler catchType ∧ want handler 1) :
    Stacks code [] want h (ds.map .give) h := by
  refine .stills fun d hd => ?_
  obtain ⟨start, stop, handler, catchType, rfl, hw⟩ := hds d hd
  refine ⟨rfl, fun row hrow => ?_⟩
  obtain rfl := Option.some.inj hrow
  exact hw

section Try

variable {t : TryFrame} {block exit : List Piece} {clauses : List (Clause Piece)} {h h' : Nat}

/-- A clause starts with the caught object alone and ends with a jump. -/
theorem stacks_clause {done : Label} {c : Clause Piece} (hbody : Stacks code [] want 0 c.body 0)
    (hexit : Stacks code [] want 0 c.exit 0) (hdone : want done 0) (h' : Nat) :
    Stacks code [(c.stretch.1, 1), (c.stretch.2, 0)] want 1 (clausePieces done c) h' := by
  have hstore : Stacks code [] want 1 [.give (.emit ⟨.store, some (.slot c.slot)⟩)] 0 :=
    .emit rfl rfl 0
  exact (((((Stacks.place c.stretch.1).append hstore).append hbody).append
    (Stacks.place c.stretch.2)).append hexit).append (Stacks.goto hdone h')

/-- The part of a try up to the rows of its clauses. -/
theorem stacks_tryFront (hblock : Stacks code [] want 0 block 0)
    (hexit : Stacks code [] want 0 exit 0) (hdone : want t.done 0)
    (hentries : ∀ c ∈ clauses, want c.stretch.1 1)
    (hclauses : Stacks code (clauseHeights clauses) want h
      (clauses.flatMap (clausePieces t.done)) h') :
    Stacks code ([(t.stretch.1, 0), (t.stretch.2, 0)] ++ clauseHeights clauses) want 0
      ((t.creates clauses).map .give ++ [Piece.give (.place t.stretch.1)] ++ block ++
        [Piece.give (.place t.stretch.2)] ++ exit ++
        [Piece.give (.emit ⟨.goto, some (.label t.done)⟩)] ++
        clauses.flatMap (clausePieces t.done) ++ (t.clauseRows block clauses).map .give) h' := by
  have hcreates : Stacks code [] want 0 ((t.creates clauses).map .give) 0 := by
    refine .stills fun d hd => ?_
    have : ∃ l, d = .create l := by
      simp only [TryFrame.creates, List.mem_append, List.mem_cons, List.not_mem_nil, or_false,
        List.mem_flatMap] at hd
      obtain (rfl | rfl | rfl) | ⟨c, -, rfl | rfl⟩ := hd <;> exact ⟨_, rfl⟩
    obtain ⟨l, rfl⟩ := this
    exact ⟨rfl, by rintro _ ⟨⟩⟩
  have hrows : Stacks code [] want h' ((t.clauseRows block clauses).map .give) h' := by
    refine .rows fun d hd => ?_
    obtain ⟨c, hc, hd⟩ := List.mem_flatMap.mp hd
    obtain ⟨start, stop, rfl⟩ := mem_rows hd
    exact ⟨_, _, _, _, rfl, hentries c hc⟩
  have hfront := (((((hcreates.append (Stacks.place t.stretch.1)).append hblock).append
    (Stacks.place t.stretch.2)).append hexit).append (Stacks.goto hdone h)).append hclauses
  simpa using hfront.append hrows

/-- The handler of a finally body starts with the object in flight alone. -/
theorem stacks_rescue (t : TryFrame) (block : List Piece) (clauses : List (Clause Piece))
    {r : Rescue Piece} (hbody : Stacks code [] want 0 r.body 0) (hentry : want r.handler 1)
    (h' : Nat) :
    Stacks code [(r.handler, 1), (r.stored, 0)] want 1
      (rescuePieces t block clauses (some r)) h' := by
  have hstore : Stacks code [] want 1 [.give (.emit ⟨.store, some (.slot r.slot)⟩)] 0 :=
    .emit rfl rfl 0
  have hload : Stacks code [] want 0 [.give (.emit ⟨.load, some (.slot r.slot)⟩)] 1 :=
    .emit rfl rfl 0
  have hrows : Stacks code [] want h'
      ((t.rescueRows r.handler r.stored block clauses).map .give) h' := by
    refine .rows fun d hd => ?_
    have : ∃ start stop, d = .handler start stop r.handler none := by
      simp only [TryFrame.rescueRows, List.mem_append, List.mem_flatMap, List.mem_singleton] at hd
      obtain (hd | ⟨c, -, hd⟩) | rfl := hd
      · exact mem_rows hd
      · exact mem_rows hd
      · exact ⟨_, _, rfl⟩
    obtain ⟨start, stop, rfl⟩ := this
    exact ⟨_, _, _, _, rfl, hentry⟩
  exact (((((Stacks.create r.handler).append ((Stacks.create r.stored).append
    ((Stacks.place r.handler).append (hstore.append (Stacks.place r.stored))))).append hbody).append
    (hload.append (Stacks.throw h'))).append hrows)

theorem stacks_try {rescue : Option (Rescue Piece)} {own : List (Nat × Nat)}
    (hblock : Stacks code [] (InTry want t clauses rescue) 0 block 0)
    (hexit : Stacks code [] (InTry want t clauses rescue) 0 exit 0)
    (hclauses : ∃ h, Stacks code (clauseHeights clauses) (InTry want t clauses rescue) h
      (clauses.flatMap (clausePieces t.done)) h')
    (hrescue : Stacks code own (InTry want t clauses rescue) h'
      (rescuePieces t block clauses rescue) 0) (hown : ∀ r ∈ rescue, (r.handler, 1) ∈ own) :
    Stacks code [] want 0 [.tryCatch t block exit clauses rescue] 0 := by
  obtain ⟨h, hclauses⟩ := hclauses
  have hfront := stacks_tryFront hblock hexit (.inr (.inl ⟨rfl, rfl⟩))
    (fun c hc => .inr (.inr (.inl ⟨c, hc, rfl, rfl⟩))) hclauses
  have hall : Stacks code _ (InTry want t clauses rescue) 0
      (tryPieces t block exit clauses rescue) 0 :=
    (hfront.append hrescue).append (Stacks.place t.done)
  refine (hall.close ?_).of_eq (layOut_tryPieces ..) (starts_tryPieces _ _ _ _ _)
  rintro l x (hw | ⟨rfl, rfl⟩ | ⟨c, hc, rfl, rfl⟩ | ⟨r, hr, rfl, rfl⟩)
  · exact .inl hw
  · exact .inr (by simp)
  · refine .inr ?_
    have : (c.stretch.1, 1) ∈ clauseHeights clauses := List.mem_flatMap.mpr ⟨c, hc, by simp⟩
    simp [this]
  · exact .inr (by simp [hown r hr])

end Try

/-! ## All statements -/

theorem lifts_branch {e : Expr} (hs : e.Sound true) (ht : e.Types (· ≠ .void)) {target : Label}
    (onTrue : Bool) (hw : want target 0) : (branch e target onTrue).Lifts code want 0 0 :=
  (lifts_exprCode e hs ht).branch want 0 target onTrue hw

theorem lifts_branchUnless {c : Option Expr} (hs : ∀ e ∈ c, e.Sound true)
    (ht : ∀ e ∈ c, e.Types (· ≠ .void)) {target : Label} (hw : want target 0) :
    (branchUnless c target).Lifts code want 0 0 := by
  cases c with
  | none => exact lifts_pure
  | some e => exact lifts_branch (hs e rfl) (ht e rfl) false hw

theorem lifts_finallyCopy {T : Targets} {R : List Region} {region : Region}
    (h : ∀ body ∈ region, (stmts T R body).Lifts code want 0 0) :
    (finallyCopy T R region).Lifts code want 0 0 := by
  cases region with
  | none =>
      rw [finallyCopy]
      exact lifts_pure
  | some body =>
      rw [finallyCopy]
      exact h body rfl

/-- The finally bodies of open regions have no void parts either. -/
def RegionTypes (R : List Region) : Prop :=
  ∀ body, some body ∈ R → Stmt.AllTypes (· ≠ .void) body

theorem RegionTypes.cons {R : List Region} (hR : RegionTypes R) {region : Region}
    (hbody : ∀ body ∈ region, Stmt.AllTypes (· ≠ .void) body) : RegionTypes (region :: R) := by
  intro body hmem
  obtain rfl | hmem := List.mem_cons.mp hmem
  · exact hbody body rfl
  · exact hR body hmem

mutual

/-- Code for a statement takes the stack from empty to empty. -/
theorem lifts_stmt {want : Label → Nat → Prop} {T : Targets} {R : List Region}
    {inner : Option Frame} {lo hi : Nat} (s : Stmt) (hs : s.Sound inner lo hi)
    (ht : s.Types (· ≠ .void)) (hR : RegionTypes R) (hfits : Fits T (want · 0) R inner lo hi) :
    (stmt T R s).Lifts code want 0 0 := by
  intro n n' u ps h
  match s with
  | .block body =>
      obtain ⟨body', hbody, rfl⟩ := yields_block h
      exact .statement (lifts_stmts body hs ht hR hfits hbody)
  | .localInit slot e =>
      obtain ⟨first, hfirst, rfl⟩ := yields_localInit h
      exact .statement (((lifts_exprCode e hs.1 ht).value want 0 hfirst).append (.emit rfl rfl 0))
  | .expression e discard =>
      obtain ⟨hs, rfl, -⟩ := hs
      obtain ⟨first, hfirst, rfl⟩ := yields_expression h
      have hvalue : Stacks code [] want 0 first _ := lifts_unused hs ht hfirst
      refine .statement (hvalue.append ?_)
      cases Typing.leavesValue e
      · exact .nil
      · exact .emit rfl rfl 0
  | .ifElse c s none =>
      obtain ⟨hc, hs⟩ := hs
      obtain ⟨htc, hts⟩ := ht
      obtain ⟨test, m, body, htest, hbody, rfl⟩ := yields_ifThen h
      exact stacks_ifThen (lifts_branch hc htc false (.inr ⟨by simp, rfl⟩) htest)
        (lifts_stmt s hs hts hR (hfits.also [n]).alsoZero hbody)
  | .ifElse c s (some t) =>
      obtain ⟨hc, k, hs, ht'⟩ := hs
      obtain ⟨htc, hts, htt⟩ := ht
      obtain ⟨test, m, body, m', other, htest, hbody, hother, rfl⟩ := yields_ifElse h
      have hin := (hfits.also [n, m']).alsoZero
      exact stacks_ifElse (lifts_branch hc htc false (.inr ⟨by simp, rfl⟩) htest)
        (lifts_stmt s hs hts hR (hin.part (Nat.le_refl _) ht'.le) hbody)
        (lifts_stmt t ht' htt hR (hin.part hs.le (Nat.le_refl _)) hother)
  | .whileLoop j c body =>
      obtain ⟨hc, rfl, hbody⟩ := hs
      obtain ⟨htc, htb⟩ := ht
      obtain ⟨-, test, m, code', htest, hcode, rfl⟩ := yields_whileLoop h
      exact stacks_forLoop .nil
        (lifts_branch hc htc false (.inr ⟨done_mem_loopLabels .., rfl⟩) htest)
        (lifts_stmt body hbody htb hR
          (hfits.enterLoop .whileLoop (Nat.le_refl _) hbody.le ..).alsoZero hcode) .nil
  | .doLoop j body c =>
      obtain ⟨hc, rfl, hbody⟩ := hs
      obtain ⟨htc, htb⟩ := ht
      obtain ⟨-, code', m, test, hcode, htest, rfl⟩ := yields_doLoop h
      exact stacks_doLoop
        (lifts_stmt body hbody htb hR
          (hfits.enterLoop .doLoop (Nat.le_refl _) hbody.le ..).alsoZero hcode)
        (lifts_branch hc htc true (.inr ⟨start_mem_loopLabels .., rfl⟩) htest)
  | .forLoop j init c update body =>
      obtain ⟨hc, m, hinit, hupdate, hbody⟩ := hs
      obtain ⟨htc, hti, htu, htb⟩ := ht
      obtain ⟨-, first, k, test, m₁, code', m₂, last, hfirst, htest, hcode, hlast, rfl⟩ :=
        yields_forLoop h
      have hm := hinit.le
      have hid := hupdate.le
      have hlt := hbody.le
      have hrest := hfits.part hm (Nat.le_refl _)
      exact stacks_forLoop
        (lifts_stmts init hinit hti hR (hfits.part (Nat.le_refl _) (by omega)) hfirst)
        (lifts_branchUnless hc htc (.inr ⟨done_mem_loopLabels .., rfl⟩) htest)
        (lifts_stmt body hbody htb hR (hrest.enterLoop .forLoop hid hlt ..).alsoZero hcode)
        (lifts_stmts update hupdate htu hR ((hrest.also _).alsoZero.beside hid hlt) hlast)
  | .switch id hasBreak e bodies d =>
      obtain ⟨he, hd, rfl, hbodies⟩ := hs
      obtain ⟨hte, htb⟩ := ht
      obtain ⟨-, -, key, k, code', hkey, hcode, rfl⟩ := yields_switch h
      have hin := (hfits.also (switchLabels d k bodies.length hasBreak)).enter
        (f := .switch ⟨id, hasBreak⟩) (t := ⟨k, none, R.length⟩) rfl (Nat.le_refl _) hbodies.le rfl
        (fun hb => .inr ((mem_switchLabels hd).mpr (.inr ⟨hb, rfl⟩))) nofun
      exact stacks_switch hd ((lifts_exprCode e he hte).value want 0 hkey)
        (stacks_groups bodies hbodies htb hR hin.alsoZero hcode)
  | .tryCatch guarded clauses none =>
      obtain ⟨m, hguarded, hclauses⟩ := hs
      obtain ⟨htg, htc⟩ := ht
      obtain ⟨block, k, codes, hblock, hcodes, rfl⟩ := yields_tryCatch h
      have := sizeOf_clauses_pos clauses
      have hin : Fits T (InTry want ⟨R.length, (n, n + 1), n + 2⟩ codes none · 0) R inner lo hi :=
        hfits.mono fun _ => .inl
      exact .statement (stacks_try
        (lifts_stmts guarded hguarded htg (hR.cons (by simp))
          (hin.part (Nat.le_refl _) hclauses.le).inTry hblock) .nil
        (stacks_catches none clauses _ hclauses htc hR (hin.part hguarded.le (Nat.le_refl _))
          (lifts_finallyCopy (by simp)) (.inr (.inl ⟨rfl, rfl⟩)) hcodes 0) .nil (by simp))
  | .tryCatch guarded clauses (some ⟨slot, body⟩) =>
      obtain ⟨m, m', hguarded, hclauses, hbody⟩ := hs
      obtain ⟨htg, htc, htb⟩ := ht
      obtain ⟨block, k, exit, k', codes, e, rescue, hblock, hexit, hcodes, hrescue, rfl⟩ :=
        yields_tryFinally h
      have := sizeOf_clauses_pos clauses
      have hm := hguarded.le
      have hm' := hclauses.le
      have hout : Fits T (InTry want ⟨R.length, (n, n + 1), n + 2⟩ codes
          (some ⟨e, e + 1, slot, rescue⟩) · 0) R inner lo hi := hfits.mono fun _ => .inl
      have hin := hout.inTryFinally (by omega) hbody
      have hregion : RegionTypes (some body :: R) := hR.cons (by simpa using htb)
      have hcopy : (stmts T R body).Lifts code (InTry want ⟨R.length, (n, n + 1), n + 2⟩ codes
          (some ⟨e, e + 1, slot, rescue⟩)) 0 0 :=
        lifts_stmts body hbody htb hR (hout.part (by omega) (Nat.le_refl _))
      exact .statement (stacks_try
        (lifts_stmts guarded hguarded htg hregion (hin.part (Nat.le_refl _) hm') hblock)
        (hcopy hexit)
        (stacks_catches (some body) clauses _ hclauses htc hregion (hin.part hm (Nat.le_refl _))
          (lifts_finallyCopy (by simpa using hcopy)) (.inr (.inl ⟨rfl, rfl⟩)) hcodes 1)
        (stacks_rescue _ _ _ (hcopy hrescue) (.inr (.inr (.inr ⟨_, rfl, rfl, rfl⟩))) 0) (by simp))
  | .breakJump id =>
      obtain ⟨⟨f, hf, rfl, hb⟩, -⟩ := hs
      obtain ⟨t, code', ht, hcode, rfl⟩ := yields_breakJump h
      obtain ⟨t', ht', -, hwant, -⟩ := hfits.serves f hf
      obtain rfl := Option.some.inj (ht.symm.trans ht')
      exact .statement ((lifts_crossed R t.depth hR hfits.opens hcode).append (.goto (hwant hb) 0))
  | .continueJump id =>
      obtain ⟨⟨f, hf, rfl, hc⟩, -⟩ := hs
      obtain ⟨t, l, code', ht, hl, hcode, rfl⟩ := yields_continueJump h
      obtain ⟨t', ht', -, -, hwant⟩ := hfits.serves f hf
      obtain rfl := Option.some.inj (ht.symm.trans ht')
      obtain ⟨l', hl', hw⟩ := hwant hc
      obtain rfl := Option.some.inj (hl.symm.trans hl')
      exact .statement ((lifts_crossed R t.depth hR hfits.opens hcode).append (.goto hw 0))
  | .throw e =>
      obtain ⟨first, hfirst, rfl⟩ := yields_throw h
      exact .statement (((lifts_exprCode e hs.1 ht).value want 0 hfirst).append (.throw 0))
  | .empty =>
      obtain ⟨rfl, rfl⟩ := yields_empty h
      exact .statement .nil
termination_by sizeOf s + sizeOf R

theorem lifts_stmts {want : Label → Nat → Prop} {T : Targets} {R : List Region}
    {inner : Option Frame} {lo hi : Nat} (body : List Stmt) (hs : Stmt.AllSound inner lo body hi)
    (ht : Stmt.AllTypes (· ≠ .void) body) (hR : RegionTypes R)
    (hfits : Fits T (want · 0) R inner lo hi) : (stmts T R body).Lifts code want 0 0 := by
  intro n n' u ps h
  match body with
  | [] =>
      obtain ⟨rfl, rfl⟩ := yields_nil h
      exact .nil
  | s :: rest =>
      obtain ⟨m, hs, hrest⟩ := hs
      obtain ⟨first, k, others, hfirst, hothers, rfl⟩ := yields_cons h
      exact (lifts_stmt s hs ht.1 hR (hfits.part (Nat.le_refl _) hrest.le) hfirst).append
        (lifts_stmts rest hrest ht.2 hR (hfits.part hs.le (Nat.le_refl _)) hothers)
termination_by sizeOf body + sizeOf R

theorem stacks_groups {want : Label → Nat → Prop} {T : Targets} {R : List Region}
    {inner : Option Frame} {lo hi : Nat} {d : Dispatch} {default : Nat} {cases : List CaseTarget}
    {index n n' : Nat} {u : Unit} {ps : List Piece} (bodies : List (List Stmt))
    (hs : Stmt.GroupsSound inner lo bodies hi) (ht : Stmt.GroupsTypes (· ≠ .void) bodies)
    (hR : RegionTypes R) (hfits : Fits T (want · 0) R inner lo hi)
    (h : (groups T R (placeGroup d default cases) index bodies).Yields n u ps n') :
    Stacks code (((List.range' index bodies.length).flatMap
      (labelsOfGroup d default cases)).map (·, 0)) want 0 ps 0 := by
  match bodies with
  | [] =>
      obtain ⟨rfl, rfl⟩ := yields_groups_nil h
      exact .nil
  | body :: rest =>
      obtain ⟨m, hbody, hrest⟩ := hs
      obtain ⟨first, k, others, hfirst, hothers, rfl⟩ := yields_groups_cons h
      rw [List.length_cons, List.range'_succ, List.flatMap_cons, List.map_append, groupLabels_eq]
      have hfirst' := lifts_stmts body hbody ht.1 hR (hfits.part (Nat.le_refl _) hrest.le) hfirst
      exact ((Stacks.places _).append_own hfirst').append
        (stacks_groups rest hrest ht.2 hR (hfits.part hbody.le (Nat.le_refl _)) hothers)
termination_by sizeOf bodies + sizeOf R

/-- The last clause leaves whatever height what follows starts from. -/
theorem stacks_catches {want : Label → Nat → Prop} {T : Targets} {R : List Region}
    {inner : Option Frame} {lo hi n n' : Nat} {done : Nat} {ps : List Piece}
    {codes : List (Clause Piece)} (region : Region) (clauses : List (Catch Stmt))
    (stretches : List Stretch) (hs : Stmt.ClausesSound inner lo clauses hi)
    (ht : Stmt.ClausesTypes (· ≠ .void) clauses) (hR : RegionTypes (clauseRegions R region))
    (hfits : Fits T (want · 0) (clauseRegions R region) inner lo hi)
    (hcopy : (finallyCopy T R region).Lifts code want 0 0) (hdone : want done 0)
    (h : (catches T R region clauses stretches).Yields n codes ps n') (h' : Nat) :
    ∃ h, Stacks code (clauseHeights codes) want h (codes.flatMap (clausePieces done)) h' := by
  match clauses, stretches with
  | [], _ =>
      obtain ⟨rfl, -, -⟩ := yields_catches_nil h
      exact ⟨h', .nil⟩
  | _ :: _, [] =>
      rw [catches] at h
      · obtain ⟨rfl, -⟩ := Gen.yields_pure.mp h
        exact ⟨h', .nil⟩
      · simp
  | ⟨_, slot, body⟩ :: rest, stretch :: stretches =>
      obtain ⟨m, hbody, hrest⟩ := hs
      obtain ⟨first, k, exit, m', others, hfirst, hexit, hothers, rfl⟩ := yields_catches_cons h
      have := sizeOf_clauseRegions_le R region
      have hfirst' := lifts_stmts body hbody ht.1 hR (hfits.part (Nat.le_refl _) hrest.le) hfirst
      obtain ⟨k', hrest'⟩ := stacks_catches region rest stretches hrest ht.2 hR
        (hfits.part hbody.le (Nat.le_refl _)) hcopy hdone hothers h'
      refine ⟨1, ?_⟩
      rw [clauseHeights, List.flatMap_cons, List.flatMap_cons]
      exact (stacks_clause hfirst' (hcopy hexit) hdone k').append hrest'
termination_by sizeOf clauses + sizeOf region + sizeOf R

theorem lifts_crossed {want : Label → Nat → Prop} {T : Targets} {hi : Nat} (R : List Region)
    (depth : Nat) (hR : RegionTypes R) (hopens : Opens T (want · 0) hi R) :
    (crossed T depth R).Lifts code want 0 0 := by
  intro n n' u ps h
  match R with
  | [] =>
      obtain ⟨rfl, rfl⟩ := yields_crossed_nil h
      exact .nil
  | none :: R =>
      have hR : RegionTypes R := fun body hmem => hR body (List.mem_cons_of_mem _ hmem)
      obtain ⟨hi', hout⟩ := hopens.outside
      by_cases hd : depth ≤ R.length
      · exact lifts_crossed R depth hR hout (yields_crossed_none hd h)
      · obtain ⟨rfl, rfl⟩ := yields_crossed_inside (by rw [List.length_cons]; omega) h
        exact .nil
  | some body :: R =>
      have htb := hR body (List.mem_cons_self ..)
      have hR : RegionTypes R := fun body hmem => hR body (List.mem_cons_of_mem _ hmem)
      by_cases hd : depth ≤ R.length
      · obtain ⟨hi', hout⟩ := hopens.outside
        obtain ⟨inner, lo, hi', hbody, hfits⟩ := hopens.fits
        obtain ⟨copy, m, rest, hcopy, hrest, rfl⟩ := yields_crossed_some hd h
        exact (stacks_copy R.length (lifts_stmts body hbody htb hR hfits hcopy)).append
          (lifts_crossed R depth hR hout hrest)
      · obtain ⟨rfl, rfl⟩ := yields_crossed_inside (by rw [List.length_cons]; omega) h
        exact .nil
termination_by sizeOf R

end

/-! ## Runs -/

/-- The code of a method body has heights. -/
theorem heights_of_yields {p : Annotated.Program} {hi n' : Nat} {ps : List Piece}
    (hs : Stmt.AllSound none 0 p.body hi) (ht : Stmt.AllTypes (· ≠ .void) p.body)
    (h : (program p).Yields 0 () ps n') (hlaid : Laid code 0 (layOut ps)) :
    ∃ H, H 0 = 0 ∧ Heights code H 0 ps := by
  obtain ⟨body, hbody, rfl⟩ := yields_program.mp h
  have hstmts : Stacks code [] (fun _ _ => False) 0 body 0 :=
    lifts_stmts p.body hs ht (by simp [RegionTypes]) Fits.initially hbody
  have hhalt : Stacks code [] (fun _ _ => False) 0 [.give (.emit ⟨.halt, none⟩)] 0 :=
    .instruction rfl rfl (Nat.le_refl _) nofun (by simp [Instruction.targets]) fun _ => rfl
  obtain ⟨hs, hfit⟩ := hstmts.append hhalt 0 hlaid
  generalize size (layOut (body ++ [.give (.emit ⟨.halt, none⟩)])) = k at hfit
  obtain ⟨hstart, -, hheights⟩ := hfit (fun q => if q < k then hs q else 0)
    (fun q _ hq => if_pos (by omega)) (if_neg (by omega))
  exact ⟨fun q => if q < k then hs q else 0, hstart, hheights nofun⟩

/-- Handlers start at height one. -/
theorem Heights.handler {H : Nat → Nat} {ps : List Piece} (hH : Heights code H 0 ps)
    (hcode : Assembled (layOut ps) code) {row : Handler} (hrow : row ∈ code.handlers) :
    H row.handler = 1 := by
  rw [hcode.handlers, List.mem_filter, List.mem_map] at hrow
  obtain ⟨⟨pending, hpending, rfl⟩, -⟩ := hrow
  obtain ⟨pc, hpc⟩ := (hcode.rows pending hpending).2.2
  have hone := hH.entries pending hpending pc hpc
  rwa [Code.resolved, Code.offset_eq hpc]

theorem Heights.at {H : Nat → Nat} {ps : List Piece} (hH : Heights code H 0 ps)
    (hcode : Assembled (layOut ps) code) {pc : Nat} {i : Instruction}
    (hi : code.instructions[pc]? = some i) : Consistent code H pc i := by
  refine hH.consistent pc i (Nat.zero_le _) ?_ hi
  obtain ⟨hlt, -⟩ := Array.getElem?_eq_some_iff.mp hi
  rwa [Nat.zero_add, size_eq_length, ← hcode.instructions, Array.length_toList]

end Lowering

open Lowering

variable {σ : Type} {code : Code} {H : Nat → Nat} {ps : List Piece}

/-- A machine at an instruction has as many values on the stack as its height says, and
so it has at the next one. -/
theorem Machine.Onward.height (hH : Heights code H 0 ps) (hcode : Assembled (layOut ps) code)
    {host : Host σ} {a b : Nat × Machine σ} (h : Machine.Onward host code a b)
    (ha : a.2.stack.length = H a.1) : b.2.stack.length = H b.1 := by
  obtain ⟨pc, m⟩ := a
  obtain ⟨pc', m'⟩ := b
  simp only at ha
  obtain ⟨i, hi, ⟨rfl, hstep⟩ | hstep | ⟨v, m₁, hstep, hunwind⟩⟩ := h.cases
  · have hfit := hH.at hcode hi
    have heffect := hstep ▸ Machine.effect_step m host code i
    have henough := hfit.enough
    have hheight := heffect.2.2
    rw [hfit.next heffect.1]
    simp only
    omega
  · have heffect := hstep ▸ Machine.effect_step m host code i
    have hfit := hH.at hcode hi
    obtain ⟨⟨l, hl, hpos⟩, htook⟩ := heffect
    have hheight := htook.height
    rw [hfit.targets l hl _ hpos]
    simp only
    omega
  · -- What is thrown is the only value on the stack of the handler.
    obtain ⟨⟨row, hrow, -, rfl⟩, -, hstack⟩ := Machine.unwind_ok hunwind
    rw [hH.handler hcode hrow, hstack]
    rfl

theorem Machine.Reaches.height (hH : Heights code H 0 ps) (hcode : Assembled (layOut ps) code)
    {host : Host σ} {a b : Nat × Machine σ} (h : Machine.Reaches host code a b)
    (ha : a.2.stack.length = H a.1) : b.2.stack.length = H b.1 := by
  induction h with
  | refl => exact ha
  | tail _ hlast ih => exact hlast.height hH hcode ih

/-- An instruction that has its height does not end a run for want of values. -/
theorem Machine.advance_ne_underflow (hH : Heights code H 0 ps)
    (hcode : Assembled (layOut ps) code) {host : Host σ} {pc : Nat} {m m' : Machine σ}
    {outcome : Outcome} (hm : m.stack.length = H pc)
    (h : m.advance host code pc = .ended outcome m') : outcome ≠ .stopped .stackUnderflow := by
  rw [Machine.advance] at h
  split at h
  · obtain ⟨rfl, -⟩ : _ = outcome ∧ _ := by simpa using h
    simp
  · next i hi =>
      have hfit := hH.at hcode hi
      have heffect := Machine.effect_step m host code i
      split at h
      · simp at h
      · simp at h
      · obtain ⟨rfl, -⟩ : _ = outcome ∧ _ := by simpa using h
        simp
      · next why m₁ hstep =>
          rw [hstep] at heffect
          have henough := hfit.enough
          obtain ⟨rfl, -⟩ : _ = outcome ∧ _ := by simpa using h
          rintro ⟨⟩
          have := heffect rfl
          omega
      · split at h
        · simp at h
        · next why hunwind =>
            obtain ⟨rfl, -⟩ : _ = outcome ∧ _ := by simpa using h
            rw [Machine.unwind] at hunwind
            split at hunwind
            · obtain rfl := Except.error.inj hunwind
              simp
            · split at hunwind
              · simp at hunwind
              · obtain rfl := Except.error.inj hunwind
                simp

/-- Runs find the stack as high as is said, and none ends for want of values. -/
theorem Machine.runs_at_heights (hH : Heights code H 0 ps) (hcode : Assembled (layOut ps) code)
    (hzero : H 0 = 0) (host : Host σ) (m : Machine σ) :
    (∀ pc m', Machine.Reaches host code (0, m.ready code) (pc, m') → m'.stack.length = H pc) ∧
      ∀ limit, (m.execute host limit code).1 ≠ .stopped .stackUnderflow := by
  have hreach : ∀ pc m', Machine.Reaches host code (0, m.ready code) (pc, m') →
      m'.stack.length = H pc := fun pc m' hr => hr.height hH hcode hzero.symm
  refine ⟨hreach, fun limit => ?_⟩
  obtain ⟨pc, m', hr, hrun | ⟨outcome, m'', hadvance, hrun⟩⟩ :=
    Machine.runFrom_cases host code limit limit 0 (m.ready code)
  · rw [Machine.execute, hrun]
    simp
  · rw [Machine.execute, hrun]
    exact Machine.advance_ne_underflow hH hcode (hreach pc m' hr) hadvance

/-- The code of a method body whose void calls are all statements of their own has a height
at each instruction. Every run finds the stack that high, so none ends for want of values.
It is empty where a statement starts and at the halt, and handlers find one object. -/
theorem stack_heights {settings : Settings} {p : Source.Program} {h : Annotated.Program}
    {code : Code} (hcheck : check settings p = .ok h)
    (htypes : Annotated.Stmt.AllTypes (· ≠ .void) h.body)
    (hcode : generate settings.maxLabels h = .ok code) :
    ∃ emission, program h 0 = .ok emission ∧ ∃ H : Nat → Nat,
      (∀ pc ∈ starts 0 emission.pieces, H pc = 0) ∧
      (∀ row ∈ code.handlers, H row.handler = 1) ∧
      (∀ pc i, code.instructions[pc]? = some i → i.opcode = .halt → H pc = 0) ∧
      ∀ (σ : Type) (host : Host σ) (m : Machine σ),
        (∀ pc m', Machine.Reaches host code (0, m.ready code) (pc, m') →
          m'.stack.length = H pc) ∧
        ∀ limit, (m.execute host limit code).1 ≠ .stopped .stackUnderflow := by
  obtain ⟨hi, hsound⟩ := check_sound hcheck
  obtain ⟨ds, hds, hassembled, -⟩ := generate_ok hcode
  obtain ⟨ps, n', hyields, rfl⟩ := directives_eq_ok_iff.mp hds
  obtain ⟨H, hzero, hH⟩ := heights_of_yields hsound htypes hyields hassembled.laid
  refine ⟨⟨(), ps, n'⟩, hyields, H, hH.starts, fun row hrow => hH.handler hassembled hrow,
    fun pc i hpc => (hH.at hassembled hpc).halt, fun σ host m => ?_⟩
  exact m.runs_at_heights hH hassembled hzero host

/-- A loop that counts a local down and is left through a try with a finally body. -/
def countdown : Source.Program :=
  ⟨[.localDecl 1 "i" .int (some (.literal 1 (.int 3))),
    .whileLoop 2 (.binary 2 .greaterThan (.var 2 "i") (.literal 2 (.int 0)))
      (.tryCatch 3 ⟨3, [.ifElse 4 (.call 4 "found" [.var 4 "i"] .boolean) (.breakJump 4) none,
          .expression 5 (.update 5 .postDecrement (.var 5 "i"))]⟩ []
        (some ⟨6, [.expression 6 (.call 6 "log" [] .void)]⟩))]⟩

/-- The tree of the loop. -/
def countdownTree : Annotated.Program :=
  ⟨[.localInit 0 (.int .int 3),
    .whileLoop ⟨0, true, false⟩ (.binary .boolean .greaterThan (.slot .int 0) (.int .int 0))
      (.tryCatch [.ifElse (.call .boolean "found" [.slot .int 0]) (.breakJump 0) none,
          .expression (.increment .int .postDecrement (.slot 0) false) false] []
        (some ⟨1, [.expression (.call .void "log" []) false]⟩))], 2⟩

theorem stack_heights_countdown :
    check {} countdown = .ok countdownTree ∧
      Annotated.Stmt.AllTypes (· ≠ .void) countdownTree.body ∧
      ∃ code, generate 4294967295 countdownTree = .ok code ∧ 0 < code.handlers.length ∧
        ∃ emission, program countdownTree 0 = .ok emission ∧ ∃ H : Nat → Nat,
          (∀ pc ∈ starts 0 emission.pieces, H pc = 0) ∧
          (∀ row ∈ code.handlers, H row.handler = 1) ∧
          (∀ pc i, code.instructions[pc]? = some i → i.opcode = .halt → H pc = 0) ∧
          ∀ (σ : Type) (host : Host σ) (m : Machine σ),
            (∀ pc m', Machine.Reaches host code (0, m.ready code) (pc, m') →
              m'.stack.length = H pc) ∧
            ∀ limit, (m.execute host limit code).1 ≠ .stopped .stackUnderflow := by
  have hcheck : check {} countdown = .ok countdownTree := by cbv
  have htypes : Annotated.Stmt.AllTypes (· ≠ .void) countdownTree.body := by
    simp [countdownTree, Annotated.Stmt.AllTypes, Annotated.Stmt.Types, Annotated.Stmt.ClausesTypes,
      Annotated.Expr.Types, Annotated.Expr.AllTypes]
  have hrows : (generate 4294967295 countdownTree).toOption.map
      (fun code => decide (0 < code.handlers.length)) = some true := by
    decide +kernel
  refine ⟨hcheck, htypes, ?_⟩
  cases h : generate 4294967295 countdownTree with
  | error e => simp [h, Except.toOption] at hrows
  | ok code =>
      rw [h] at hrows
      exact ⟨code, rfl, of_decide_eq_true (Option.some.inj hrows), stack_heights hcheck htypes h⟩

end MethodCompiler
