import MethodCompiler.Proofs.Labels
import MethodCompiler.Proofs.Switches
import Mathlib.Data.List.Count

/-!
# Labels of statements

Code for a sound statement is tidy: it creates, places and refers to its own labels
as it should, and refers to labels from before only as targets of its jumps. The
induction goes the way generation goes. It is not on the tree alone, because the
finally bodies of the open regions are generated wherever a jump leaves them.
-/

namespace MethodCompiler.Lowering

open Annotated (Expr Stmt Catch)
open Gen

variable {want : Label → Prop}

/-! ## Switches -/

/-- A switch refers to its default label and to the labels of its cases. -/
theorem refs_dispatchDirective {d : Dispatch} {default : Label} {cases : List CaseTarget}
    {l : Label} (hl : l ∈ (dispatchDirective d default cases).refs) :
    l = default ∨ l ∈ cases.map (·.label) := by
  have hsorted : ∀ p ∈ sortedTargets cases, p.2 ∈ cases.map (·.label) := by
    intro p hp
    obtain ⟨c, hc, rfl⟩ := mem_sortedTargets hp
    exact List.mem_map_of_mem hc
  rw [dispatchDirective] at hl
  split at hl
  · simp only [Directive.refs, tableTargets, List.mem_cons, List.mem_map] at hl
    obtain rfl | ⟨i, -, rfl⟩ := hl
    · exact .inl rfl
    · generalize Int32.ofInt (d.lo.toInt + i) = v
      cases hv : (sortedTargets cases).lookup v with
      | none => exact .inl rfl
      | some l => exact .inr (hsorted _ (Assoc.mem_of_lookup hv))
  · simp only [Directive.refs, List.mem_cons, List.mem_map] at hl
    obtain rfl | ⟨p, hp, rfl⟩ := hl
    · exact .inl rfl
    · exact .inr (hsorted p hp)

theorem sized_dispatchDirective {d : Dispatch} {groups : Nat} (hd : d.Sound groups)
    {default n : Nat} : (dispatchDirective d default (numbered n d.cases)).Sized := by
  rw [dispatchDirective]
  split
  · have hle := Int32.le_iff_toInt_le.mp hd.lo_le_hi
    simp only [Directive.Sized, tableTargets, List.length_map, List.length_range]
    omega
  · have hnodup : ((numbered n d.cases).map (·.value)).Nodup := by
      rw [map_value_numbered]
      exact hd.nodup
    rw [Directive.Sized, length_sortedTargets hnodup, length_numbered, hd.count_eq]

theorem tidy_dispatchDirective {d : Dispatch} {groups : Nat} (hd : d.Sound groups)
    {default n m : Nat} (hdefault : want default)
    (hcases : ∀ l : Nat, n ≤ l → l < n + d.cases.length → want l) :
    Tidy [] want m [dispatchDirective d default (numbered n d.cases)] m := by
  refine .single ?_ ?_ ?_ (sized_dispatchDirective hd)
  · intro m'
    rw [dispatchDirective]
    split <;> exact Iff.rfl
  · intro l
    rw [dispatchDirective]
    split <;> simp
  · intro l hl
    obtain rfl | hl := refs_dispatchDirective hl
    · exact hdefault
    · rw [map_label_numbered, List.mem_range'_1] at hl
      exact hcases l hl.1 hl.2

theorem Tidy.places {ls : List Nat} {n : Nat} (h : ∀ l ∈ ls, l < n) :
    Tidy ls want n (ls.map .place) n := by
  have hcount : ∀ l : Nat, (ls.map Directive.place).count (.place l) = ls.count l := fun l =>
    List.count_map_of_injective ls _ (fun _ _ => Directive.place.inj) l
  refine ⟨?_, fun l _ => hcount l, ?_, ?_, ?_⟩
  · induction ls with
    | nil => rfl
    | cons l ls ih =>
        exact ⟨n, ⟨h l (List.mem_cons_self ..), rfl⟩,
          ih (fun l hl => h l (List.mem_cons_of_mem _ hl)) fun l =>
            List.count_map_of_injective ls _ (fun _ _ => Directive.place.inj) l⟩
  · intro l hl
    rw [hcount, List.count_eq_zero.mpr fun hmem => Nat.not_le.mpr (h l hmem) hl]
    exact Nat.zero_le _
  · simp [Directive.refs]
  · simp [Directive.Sized]

/-! ## Rows -/

/-- Referring to a label that is placed in the same code is always fine. -/
theorem Tidy.weaken {mine : List Nat} {want' : Label → Prop} {n n' : Nat} {ds : List Directive}
    (h : Tidy mine want' n ds n') (hwant : ∀ l, want' l → want l ∨ .place l ∈ ds) :
    Tidy mine want n ds n' := by
  refine ⟨h.numbered, h.before, h.after, fun d hd l hl => ?_, h.sized⟩
  obtain hp | hw := h.refs d hd l hl
  · exact .inl hp
  · exact (hwant l hw).symm

theorem tidy_rows {n handler start stop : Nat} {catchType : Option String}
    (hhandler : want handler) (hstart : want start) (hstop : want stop) {gs : List Stretch}
    (hgs : ∀ g ∈ gs, want g.1 ∧ want g.2) :
    Tidy [] want n (rows handler catchType start stop gs) n := by
  induction gs generalizing start with
  | nil => exact .row hstart hstop hhandler
  | cons g gs ih =>
      obtain ⟨hg₁, hg₂⟩ := hgs g (List.mem_cons_self ..)
      have hrest := ih hg₂ fun g hg => hgs g (List.mem_cons_of_mem _ hg)
      exact (Tidy.row hstart hg₁ hhandler).append_own hrest

mutual

/-- The labels around a gap are placed where the gap is. -/
theorem Piece.gaps_placed (region : Nat) (p : Piece) :
    ∀ g ∈ p.gaps region, .place g.1 ∈ p.directives ∧ .place g.2 ∈ p.directives := by
  match p with
  | .give _ => simp [Piece.gaps]
  | .statement body => exact gaps_placed region body
  | .copy stretch stillOpen body =>
      intro g hg
      rw [Piece.gaps] at hg
      split at hg
      · obtain rfl := List.mem_singleton.mp hg
        simp [Piece.directives]
      · have := gaps_placed region body g hg
        simp [Piece.directives, this]
  | .tryCatch frame block exit clauses none =>
      intro g hg
      simp only [Piece.gaps, List.append_nil, List.mem_append] at hg
      obtain (hg | hg) | hg := hg
      · have := gaps_placed region block g hg
        simp [Piece.directives, this]
      · have := gaps_placed region exit g hg
        simp [Piece.directives, this]
      · have := clauseGaps_placed region frame.done clauses g hg
        simp [Piece.directives, this]
  | .tryCatch frame block exit clauses (some ⟨handler, stored, slot, body⟩) =>
      intro g hg
      simp only [Piece.gaps, List.mem_append] at hg
      obtain ((hg | hg) | hg) | hg := hg
      · have := gaps_placed region block g hg
        simp [Piece.directives, this]
      · have := gaps_placed region exit g hg
        simp [Piece.directives, this]
      · have := clauseGaps_placed region frame.done clauses g hg
        simp [Piece.directives, this]
      · have := gaps_placed region body g hg
        simp [Piece.directives, this]
termination_by structural p

theorem gaps_placed (region : Nat) (ps : List Piece) :
    ∀ g ∈ gaps region ps, .place g.1 ∈ layOut ps ∧ .place g.2 ∈ layOut ps := by
  match ps with
  | [] => simp [gaps]
  | p :: rest =>
      intro g hg
      rw [gaps, List.mem_append] at hg
      obtain hg | hg := hg
      · have := p.gaps_placed region g hg
        simp [layOut, this]
      · have := gaps_placed region rest g hg
        simp [layOut, this]
termination_by structural ps

theorem clauseGaps_placed (region : Nat) (done : Label) (clauses : List (Clause Piece)) :
    ∀ g ∈ clauseGaps region clauses,
      .place g.1 ∈ layOutClauses done clauses ∧ .place g.2 ∈ layOutClauses done clauses := by
  match clauses with
  | [] => simp [clauseGaps]
  | ⟨_, stretch, slot, body, exit⟩ :: rest =>
      intro g hg
      simp only [clauseGaps, List.mem_append] at hg
      obtain (hg | hg) | hg := hg
      · have := gaps_placed region body g hg
        simp [layOutClauses, this]
      · have := gaps_placed region exit g hg
        simp [layOutClauses, this]
      · have := clauseGaps_placed region done rest g hg
        simp [layOutClauses, this]
termination_by structural clauses

end

/-! ## Tries -/

theorem flatMap_stretchesFrom {n k : Nat} :
    (stretchesFrom n k).flatMap (fun s => [s.1, s.2]) = List.range' n (2 * k) := by
  induction k generalizing n with
  | zero => rfl
  | succ k ih =>
      rw [stretchesFrom, List.flatMap_cons, ih, show 2 * (k + 1) = 2 * k + 1 + 1 by omega,
        List.range'_succ, List.range'_succ]
      rfl

theorem creates_eq (depth : Nat) {n : Nat} {codes : List (Clause Piece)}
    (h : codes.map (·.stretch) = stretchesFrom (n + 3) codes.length) :
    TryFrame.creates ⟨depth, (n, n + 1), n + 2⟩ codes =
      creations n (3 + 2 * codes.length) := by
  have hmap : (codes.flatMap fun c => [Directive.create c.stretch.1, .create c.stretch.2]) =
      ((codes.map (·.stretch)).flatMap fun s => [s.1, s.2]).map .create := by
    rw [List.map_flatMap, List.flatMap_map]
    rfl
  rw [TryFrame.creates, hmap, h, flatMap_stretchesFrom, creations,
    show 3 + 2 * codes.length = 2 * codes.length + 1 + 1 + 1 by omega, List.range'_succ,
    List.range'_succ, List.range'_succ]
  rfl

/-- The labels of a try, as its block, its clauses and its rows may refer to them. -/
def ofTry (want : Label → Prop) (n : Nat) (block : List Piece) (codes : List (Clause Piece)) :
    Label → Prop :=
  fun l => want l ∨ (n ≤ l ∧ l < n + (3 + 2 * codes.length)) ∨ .place l ∈ layOut block ∨
    .place l ∈ layOutClauses (n + 2) codes

theorem mem_layOutClauses {done : Label} {codes : List (Clause Piece)} {c : Clause Piece}
    (hc : c ∈ codes) {d : Directive} (hd : d ∈ layOut c.body) : d ∈ layOutClauses done codes := by
  induction codes with
  | nil => simp at hc
  | cons c' rest ih =>
      obtain ⟨_, stretch, slot, body, exit⟩ := c'
      obtain rfl | hc := List.mem_cons.mp hc
      · simp [layOutClauses, hd]
      · simp [layOutClauses, ih hc]

theorem tidy_flatMap {n : Nat} {codes : List (Clause Piece)} {f : Clause Piece → List Directive}
    (h : ∀ c ∈ codes, Tidy [] want n (f c) n) : Tidy [] want n (codes.flatMap f) n := by
  induction codes with
  | nil => exact .nil
  | cons c rest ih =>
      rw [List.flatMap_cons]
      exact (h c (List.mem_cons_self ..)).append_own
        (ih fun c hc => h c (List.mem_cons_of_mem _ hc))

/-- Some labels more than are wanted anyway. -/
abbrev Also (want : Label → Prop) (ls : List Nat) : Label → Prop :=
  fun l => want l ∨ l ∈ ls

theorem Tidy.closeAlso {mine : List Nat} {n k n' : Nat} {ds : List Directive}
    (h : Tidy mine (Also want mine) (n + k) ds n') (hnodup : mine.Nodup)
    (hmine : ∀ l ∈ mine, n ≤ l ∧ l < n + k) : Tidy [] want n (creations n k ++ ds) n' :=
  h.close hnodup hmine fun _ => id

section Try

variable {n b e m n' : Nat} {block exit : List Piece} {codes : List (Clause Piece)}

theorem ofTry_own {l : Nat} (h₁ : n ≤ l) (h₂ : l < n + (3 + 2 * codes.length)) :
    ofTry want n block codes l :=
  .inr (.inl ⟨h₁, h₂⟩)

theorem ofTry_done : ofTry want n block codes (n + 2) :=
  ofTry_own (by omega) (by omega)

/-- The stretches of clauses are labels of the try. -/
theorem stretch_mem (h : codes.map (·.stretch) = stretchesFrom (n + 3) codes.length)
    {c : Clause Piece} (hc : c ∈ codes) :
    ofTry want n block codes c.stretch.1 ∧ ofTry want n block codes c.stretch.2 := by
  have hmem : ∀ l ∈ [c.stretch.1, c.stretch.2],
      l ∈ (codes.map (·.stretch)).flatMap fun s => [s.1, s.2] := by
    intro l hl
    rw [List.flatMap_map]
    exact List.mem_flatMap.mpr ⟨c, hc, hl⟩
  rw [h, flatMap_stretchesFrom] at hmem
  have hrange : ∀ l : Nat, l ∈ [c.stretch.1, c.stretch.2] →
      n ≤ l ∧ l < n + (3 + 2 * codes.length) := by
    intro l hl
    have := List.mem_range'_1.mp (hmem l hl)
    omega
  exact ⟨.inr (.inl (hrange _ (by simp))), .inr (.inl (hrange _ (by simp)))⟩

theorem mem_tryLabels {count l : Nat} :
    l ∈ [n, n + 1] ++ List.range' (n + 3) (2 * count) ++ [n + 2] ↔
      n ≤ l ∧ l < n + (3 + 2 * count) := by
  simp only [List.mem_append, List.mem_cons, List.not_mem_nil, or_false, List.mem_range'_1]
  omega

theorem nodup_tryLabels {count : Nat} :
    ([n, n + 1] ++ List.range' (n + 3) (2 * count) ++ [n + 2]).Nodup := by
  rw [List.nodup_append, List.nodup_append]
  refine ⟨⟨by simp, List.nodup_range', fun l hl l' hl' => ?_⟩, by simp, fun l hl l' hl' => ?_⟩
  · have := List.mem_range'_1.mp hl'
    simp only [List.mem_cons, List.not_mem_nil, or_false] at hl
    omega
  · simp only [List.mem_append, List.mem_cons, List.not_mem_nil, or_false, List.mem_range'_1] at hl hl'
    omega

/-- The labels of a try are created before it and placed in it. -/
theorem tidy_closeTry {ds : List Directive}
    (h : Tidy ([n, n + 1] ++ List.range' (n + 3) (2 * codes.length))
      (ofTry want n block codes) (n + (3 + 2 * codes.length)) ds n')
    (hblock : ∀ d ∈ layOut block, d ∈ ds) (hclauses : ∀ d ∈ layOutClauses (n + 2) codes, d ∈ ds) :
    Tidy [] want n (creations n (3 + 2 * codes.length) ++ (ds ++ [.place (n + 2)])) n' := by
  have hall := h.thenPlace (n + 2) (by omega)
  have hweak : Tidy _ (fun l => want l ∨ (n ≤ l ∧ l < n + (3 + 2 * codes.length)))
      (n + (3 + 2 * codes.length)) _ n' := hall.weaken (by
    rintro l (hw | hw | hw | hw)
    · exact .inl (.inl hw)
    · exact .inl (.inr hw)
    · exact .inr (List.mem_append_left _ (hblock _ hw))
    · exact .inr (List.mem_append_left _ (hclauses _ hw)))
  refine hweak.close nodup_tryLabels (fun l hl => mem_tryLabels.mp hl) ?_
  rintro l (hw | hl)
  · exact .inl hw
  · exact .inr (mem_tryLabels.mpr hl)

/-- The handler of a finally body has two labels of its own. -/
theorem tidy_rescue (depth slot : Nat)
    (hstretch : codes.map (·.stretch) = stretchesFrom (n + 3) codes.length) {body : List Piece}
    (hbody : Tidy [] (Also (ofTry want n block codes) [m, m + 1]) (m + 2) (layOut body) n') :
    Tidy [] (ofTry want n block codes) m
      ([.create m, .create (m + 1), .place m, .emit ⟨.store, some (.slot slot)⟩,
        .place (m + 1)] ++ layOut body ++
        [.emit ⟨.load, some (.slot slot)⟩, .emit ⟨.throw, none⟩] ++
        TryFrame.rescueRows ⟨depth, (n, n + 1), n + 2⟩ m (m + 1) block codes) n' := by
  have hstore : Tidy [m] (Also (ofTry want n block codes) [m, m + 1]) (m + 2) [.place m] (m + 2) :=
    .place (by omega)
  have hcode := (((((hstore.thenEmit ⟨.store, some (.slot slot)⟩ rfl).thenPlace (m + 1)
    (by omega)).append_own hbody).thenEmit ⟨.load, some (.slot slot)⟩ rfl).thenEmit
    ⟨.throw, none⟩ rfl)
  have hblockRows : Tidy [] (Also (ofTry want n block codes) [m, m + 1]) n'
      (rows m none n (n + 1) (gaps depth block)) n' := by
    refine tidy_rows (.inr (by simp)) (.inl (ofTry_own (by omega) (by omega)))
      (.inl (ofTry_own (by omega) (by omega))) fun g hg => ?_
    obtain ⟨h₁, h₂⟩ := gaps_placed depth block g hg
    exact ⟨.inl (.inr (.inr (.inl h₁))), .inl (.inr (.inr (.inl h₂)))⟩
  have hclauseRows : Tidy [] (Also (ofTry want n block codes) [m, m + 1]) n'
      (codes.flatMap fun c => rows m none c.stretch.1 c.stretch.2 (gaps depth c.body)) n' := by
    refine tidy_flatMap fun c hc => tidy_rows (.inr (by simp)) (.inl (stretch_mem hstretch hc).1)
      (.inl (stretch_mem hstretch hc).2) fun g hg => ?_
    obtain ⟨h₁, h₂⟩ := gaps_placed depth c.body g hg
    exact ⟨.inl (.inr (.inr (.inr (mem_layOutClauses hc h₁)))),
      .inl (.inr (.inr (.inr (mem_layOutClauses hc h₂))))⟩
  have hself : Tidy [] (Also (ofTry want n block codes) [m, m + 1]) n'
      [.handler m (m + 1) m none] n' := .row (.inr (by simp)) (.inr (by simp)) (.inr (by simp))
  have hrows := (hblockRows.append_own hclauseRows).append_own hself
  have hclosed : Tidy [] (ofTry want n block codes) m _ n' :=
    (hcode.append_own hrows).closeAlso (by simp) (by simp)
  simpa [creations, List.range'_succ, TryFrame.rescueRows] using hclosed

variable (depth : Nat) (hstretch : codes.map (·.stretch) = stretchesFrom (n + 3) codes.length)
  (hblock : Tidy [] (ofTry want n block codes) (n + 3 + 2 * codes.length) (layOut block) b)
  (hexit : Tidy [] (ofTry want n block codes) b (layOut exit) e)
  (hclauses : Tidy (List.range' (n + 3) (2 * codes.length)) (ofTry want n block codes) e
    (layOutClauses (n + 2) codes) m)

include hstretch hblock hexit hclauses

/-- The part of a try up to the rows of its clauses. -/
theorem tidy_front :
    Tidy ([n, n + 1] ++ List.range' (n + 3) (2 * codes.length))
      (ofTry want n block codes) (n + (3 + 2 * codes.length))
      ([.place n] ++ layOut block ++ [.place (n + 1)] ++ layOut exit ++
        [.emit ⟨.goto, some (.label (n + 2))⟩] ++ layOutClauses (n + 2) codes ++
        TryFrame.clauseRows ⟨depth, (n, n + 1), n + 2⟩ block codes) m := by
  rw [Nat.add_assoc] at hblock
  have hstart : Tidy [n] (ofTry want n block codes)
      (n + (3 + 2 * codes.length)) [.place n] (n + (3 + 2 * codes.length)) := .place (by omega)
  have hbody := (((hstart.append_own hblock).thenPlace (n + 1) (by omega)).append_own hexit).thenJump
    .goto (n + 2) (ofTry_own (by omega) (by omega))
  have hcatch := hbody.append hclauses (by
    intro l hl
    have := List.mem_range'_1.mp hl
    omega)
  refine hcatch.append_own (tidy_flatMap fun c hc => ?_)
  refine tidy_rows (stretch_mem hstretch hc).1 (ofTry_own (l := n) (by omega) (by omega))
    (ofTry_own (l := n + 1) (by omega) (by omega)) fun g hg => ?_
  obtain ⟨h₁, h₂⟩ := gaps_placed depth block g hg
  exact ⟨.inr (.inr (.inl h₁)), .inr (.inr (.inl h₂))⟩

theorem tidy_tryCatch : Tidy [] want n
    (Piece.tryCatch ⟨depth, (n, n + 1), n + 2⟩ block exit codes none).directives m := by
  have hfront := tidy_front depth hstretch hblock hexit hclauses
  have hclosed : Tidy [] want n _ m := tidy_closeTry hfront (by simp +contextual)
    (by simp +contextual)
  rw [← creates_eq depth hstretch] at hclosed
  simpa [Piece.directives] using hclosed

theorem tidy_tryFinally (slot : Nat) {body : List Piece}
    (hbody : Tidy [] (Also (ofTry want n block codes) [m, m + 1]) (m + 2) (layOut body) n') :
    Tidy [] want n (Piece.tryCatch ⟨depth, (n, n + 1), n + 2⟩ block exit codes
      (some ⟨m, m + 1, slot, body⟩)).directives n' := by
  have hfront := (tidy_front depth hstretch hblock hexit hclauses).append_own
    (tidy_rescue depth slot hstretch hbody)
  have hclosed : Tidy [] want n _ n' := tidy_closeTry hfront (by simp +contextual)
    (by simp +contextual)
  rw [← creates_eq depth hstretch] at hclosed
  simpa [Piece.directives] using hclosed

end Try

/-! ## Statements -/

/-- The code of a statement is that of its body. -/
theorem tidy_statement {mine : List Nat} {n n' : Nat} {ps : List Piece}
    (h : Tidy mine want n (layOut ps) n') : Tidy mine want n (layOut [.statement ps]) n' := by
  simpa [layOut, Piece.directives] using h

theorem keeps_value (e : Expr) : (value e).Keeps want :=
  (keeps_exprCode e want).1

theorem keeps_branch (e : Expr) {target : Label} (onTrue : Bool) (h : want target) :
    (branch e target onTrue).Keeps want :=
  (keeps_exprCode e want).2 target onTrue h

theorem keeps_branchUnless (c : Option Expr) {target : Label} (h : want target) :
    (branchUnless c target).Keeps want := by
  cases c with
  | none => exact keeps_pure
  | some e => exact keeps_branch e false h

theorem Fits.also {T : Targets} {R : List Region} {inner : Option Frame} {lo hi : Nat}
    (h : Fits T want R inner lo hi) (ls : List Nat) : Fits T (Also want ls) R inner lo hi :=
  h.mono fun _ => .inl

/-- The labels of a loop, in the order in which they are placed. -/
def loopLabels (j : Annotated.Jumps) (start breakLabel continueLabel : Nat) (rest : List Nat) :
    List Nat :=
  [start] ++ (if j.hasContinue then [continueLabel] else []) ++
    (if j.hasBreak then [breakLabel] else []) ++ rest

theorem mem_loopLabels {j : Annotated.Jumps} {start breakLabel continueLabel l : Nat}
    {rest : List Nat} : l ∈ loopLabels j start breakLabel continueLabel rest ↔
      l = start ∨ (j.hasContinue ∧ l = continueLabel) ∨ (j.hasBreak ∧ l = breakLabel) ∨
        l ∈ rest := by
  obtain ⟨_, hasBreak, hasContinue⟩ := j
  cases hasBreak <;> cases hasContinue <;> simp [loopLabels]

theorem nodup_loopLabels {j : Annotated.Jumps} {start breakLabel continueLabel : Nat}
    {rest : List Nat} (h : (start :: continueLabel :: breakLabel :: rest).Nodup) :
    (loopLabels j start breakLabel continueLabel rest).Nodup := by
  obtain ⟨_, hasBreak, hasContinue⟩ := j
  cases hasBreak <;> cases hasContinue <;> simp_all [loopLabels]

theorem start_mem_loopLabels (j : Annotated.Jumps) (start breakLabel continueLabel : Nat)
    (rest : List Nat) : start ∈ loopLabels j start breakLabel continueLabel rest :=
  mem_loopLabels.mpr (.inl rfl)

theorem done_mem_loopLabels (j : Annotated.Jumps) (start breakLabel continueLabel done : Nat) :
    done ∈ loopLabels j start breakLabel continueLabel [done] :=
  mem_loopLabels.mpr (.inr (.inr (.inr (by simp))))

/-- The body of a loop may jump to the labels of the loop that are placed. -/
theorem Fits.enterLoop {T : Targets} {R : List Region} {inner : Option Frame} {lo hi : Nat}
    (h : Fits T want R inner lo hi) {j : Annotated.Jumps} (kind : ConstructKind) (hlo : lo ≤ j.id)
    (hhi : j.id < hi) (start breakLabel continueLabel : Nat) (rest : List Nat) :
    Fits ((j.id, ⟨breakLabel, some continueLabel, R.length⟩) :: T)
      (Also want (loopLabels j start breakLabel continueLabel rest)) R (some (j.frame kind))
      (j.id + 1) hi := by
  refine (h.also _).enter rfl hlo hhi rfl (fun hb => .inr ?_) fun hc => ⟨_, rfl, .inr ?_⟩
  · exact mem_loopLabels.mpr (.inr (.inr (.inl ⟨hb, rfl⟩)))
  · exact mem_loopLabels.mpr (.inr (.inl ⟨hc, rfl⟩))

section Forms

variable {n m m' n' k : Nat} {j : Annotated.Jumps} {test code other first last key : List Piece}

theorem tidy_ifThen (htest : Tidy [] (Also want [n]) (n + 1) (layOut test) m)
    (hcode : Tidy [] (Also want [n]) m (layOut code) n') :
    Tidy [] want n (layOut [.statement
      ([.give (.create n)] ++ test ++ code ++ [.give (.place n)])]) n' := by
  have hclosed := ((htest.append_own hcode).thenPlace n (by omega)).closeAlso (by simp) (by simp)
  refine tidy_statement ?_
  simpa [layOut_append, creations, layOut, Piece.directives] using hclosed

theorem tidy_ifElse (htest : Tidy [] (Also want [n]) (n + 1) (layOut test) m)
    (hcode : Tidy [] (Also want [n]) m (layOut code) m')
    (hother : Tidy [] (Also want [n, m']) (m' + 1) (layOut other) n') :
    Tidy [] want n (layOut (ifElsePieces n m' test code other)) n' := by
  have hlt : n < m' := (htest.append_own hcode).numbered.le
  -- The second label is created while the first is still to be placed.
  have hjump : Tidy [] (Also want [n, m']) (m' + 1) _ _ := .jump .goto m' (.inr (by simp))
  have hsecond : Tidy [n] (Also want [n]) m' _ n' :=
    (((hjump.thenPlace n (by omega)).append_own hother).thenPlace m' (by omega)).closeWithin
      (by simp; omega) (by simp; omega)
      (fun l hl => by simp [List.count_cons]; omega) fun l hl => hl.imp .inl id
  have hclosed := ((htest.append_own hcode).append hsecond (by simp)).closeAlso (by simp) (by simp)
  refine tidy_statement ?_
  simpa [layOut_append, creations, layOut, Piece.directives] using hclosed

/-- The labels of a loop are placed in order. -/
theorem tidy_forLoop (hfirst : Tidy [] want n (layOut first) k)
    (htest : Tidy [] (Also want (loopLabels j k (k + 2) (k + 3) [k + 1])) (k + 4) (layOut test) m)
    (hcode : Tidy [] (Also want (loopLabels j k (k + 2) (k + 3) [k + 1])) m (layOut code) m')
    (hlast : Tidy [] (Also want (loopLabels j k (k + 2) (k + 3) [k + 1])) m' (layOut last) n') :
    Tidy [] want n (layOut (forPieces j k first test code last)) n' := by
  have hstart : Tidy [k] (Also want (loopLabels j k (k + 2) (k + 3) [k + 1])) (k + 4) _ _ :=
    .place (by omega)
  have hloop : Tidy [] want k (creations k 4 ++ _) n' := ((((((hstart.append_own
    (htest.append_own hcode)).thenPlaceIf j.hasContinue (k + 3) (by omega)).append_own
    hlast).thenJump .goto k (.inr (start_mem_loopLabels ..))).thenPlaceIf j.hasBreak (k + 2)
    (by omega)).thenPlace (k + 1) (by omega)).closeAlso (nodup_loopLabels (by simp)) fun l hl => by
      have := mem_loopLabels.mp hl
      simp only [List.mem_singleton] at this
      omega
  refine tidy_statement ?_
  simpa [layOut_append, layOut_created, layOut, Piece.directives] using hfirst.append_own hloop

theorem loopLabels_nil {j : Annotated.Jumps} {start breakLabel continueLabel : Nat} :
    loopLabels j start breakLabel continueLabel [] =
      [start] ++ (if j.hasContinue then [continueLabel] else []) ++
        (if j.hasBreak then [breakLabel] else []) :=
  List.append_nil _

theorem tidy_doLoop
    (hcode : Tidy [] (Also want (loopLabels j n (n + 1) (n + 2) [])) (n + 3) (layOut code) m)
    (htest : Tidy [] (Also want (loopLabels j n (n + 1) (n + 2) [])) m (layOut test) n') :
    Tidy [] want n (layOut (doPieces j n code test)) n' := by
  have hstart : Tidy [n] (Also want (loopLabels j n (n + 1) (n + 2) [])) (n + 3) _ _ :=
    .place (by omega)
  have hall := (((hstart.append_own hcode).thenPlaceIf j.hasContinue (n + 2)
    (by omega)).append_own htest).thenPlaceIf j.hasBreak (n + 1) (by omega)
  rw [← loopLabels_nil] at hall
  have hclosed : Tidy [] want n (creations n 3 ++ _) n' :=
    hall.closeAlso (nodup_loopLabels (by simp)) fun l hl => by
      have := mem_loopLabels.mp hl
      simp only [List.not_mem_nil, or_false] at this
      omega
  refine tidy_statement ?_
  simpa [layOut_append, layOut_created, layOut, Piece.directives] using hclosed

/-- The labels of a switch with `groups` groups, in the order in which they are placed:
those of the groups, then the default label if no group has placed it, then that of its
end. -/
def switchLabels (d : Dispatch) (n groups : Nat) (hasBreak : Bool) : List Nat :=
  (List.range' 0 groups).flatMap (labelsOfGroup d (n + 1) (numbered (n + 2) d.cases)) ++
    (if d.defaultGroup.isNone then [n + 1] else []) ++ (if hasBreak then [n] else [])

theorem mem_labelsOfGroups {d : Dispatch} {n groups l : Nat} (hd : d.Sound groups) :
    l ∈ (List.range' 0 groups).flatMap (labelsOfGroup d (n + 1) (numbered (n + 2) d.cases)) ↔
      (d.defaultGroup.isSome ∧ l = n + 1) ∨ (n + 2 ≤ l ∧ l < n + 2 + d.cases.length) := by
  have hlabel : ∀ l : Nat, l ∈ (numbered (n + 2) d.cases).map (·.label) ↔
      n + 2 ≤ l ∧ l < n + 2 + d.cases.length := by
    intro l
    rw [map_label_numbered, List.mem_range'_1]
  simp only [List.mem_flatMap, List.mem_range'_1, mem_labelsOfGroup, ← hlabel, List.mem_map]
  constructor
  · rintro ⟨g, -, ⟨hg, rfl⟩ | ⟨c, hc, -, rfl⟩⟩
    · exact .inl ⟨by simp [hg], rfl⟩
    · exact .inr ⟨c, hc, rfl⟩
  · rintro (⟨hsome, rfl⟩ | ⟨c, hc, rfl⟩)
    · obtain ⟨g, hg⟩ := Option.isSome_iff_exists.mp hsome
      have := hd.default_lt g hg
      exact ⟨g, by omega, .inl ⟨hg, rfl⟩⟩
    · have hgroup : c.group ∈ (numbered (n + 2) d.cases).map (·.group) := List.mem_map_of_mem hc
      rw [map_group_numbered] at hgroup
      obtain ⟨c', hc', heq⟩ := List.mem_map.mp hgroup
      have := hd.group_lt c' hc'
      exact ⟨c.group, by omega, .inr ⟨c, hc, rfl, rfl⟩⟩

theorem mem_switchLabels {d : Dispatch} {n groups l : Nat} {hasBreak : Bool}
    (hd : d.Sound groups) : l ∈ switchLabels d n groups hasBreak ↔
      (n + 1 ≤ l ∧ l < n + (2 + d.cases.length)) ∨ (hasBreak ∧ l = n) := by
  rw [switchLabels, List.mem_append, List.mem_append, mem_labelsOfGroups hd]
  cases d.defaultGroup <;> cases hasBreak <;> simp <;> omega

theorem nodup_switchLabels {d : Dispatch} {n groups : Nat} {hasBreak : Bool}
    (hd : d.Sound groups) : (switchLabels d n groups hasBreak).Nodup := by
  have hgroups : ((List.range' 0 groups).flatMap
      (labelsOfGroup d (n + 1) (numbered (n + 2) d.cases))).Nodup := by
    refine nodup_labelsOfGroups ?_ ?_ List.nodup_range'
    · rw [map_label_numbered]
      exact List.nodup_range'
    · simp [map_label_numbered]
  have hmem := fun l => mem_labelsOfGroups (n := n) (l := l) hd
  rw [switchLabels, List.nodup_append, List.nodup_append]
  refine ⟨⟨hgroups, by split <;> simp, fun l hl l' hl' => ?_⟩, by split <;> simp,
    fun l hl l' hl' => ?_⟩
  · have := (hmem l).mp hl
    cases hdefault : d.defaultGroup <;> simp [hdefault] at hl' this
    omega
  · have hl : (n + 1 ≤ l ∧ l < n + (2 + d.cases.length)) ∨ (false ∧ l = n) :=
      (mem_switchLabels hd).mp (by simpa [switchLabels] using hl)
    cases hasBreak <;> simp at hl hl'
    omega

theorem lt_of_mem_labelsOfGroups {d : Dispatch} {n groups l : Nat} (hd : d.Sound groups)
    (hl : l ∈ (List.range' 0 groups).flatMap
      (labelsOfGroup d (n + 1) (numbered (n + 2) d.cases))) : l < n + 2 + d.cases.length := by
  have := (mem_labelsOfGroups hd).mp hl
  omega

theorem tidy_switch {d : Dispatch} {groups : Nat} {hasBreak : Bool} (hd : d.Sound groups)
    (hkey : Tidy [] want n (layOut key) k)
    (hcode : Tidy ((List.range' 0 groups).flatMap
      (labelsOfGroup d (k + 1) (numbered (k + 2) d.cases)))
      (Also want (switchLabels d k groups hasBreak)) (k + 2 + d.cases.length) (layOut code) n') :
    Tidy [] want n (layOut (switchPieces d hasBreak k key code)) n' := by
  have hown : ∀ l : Nat, k + 1 ≤ l → l < k + (2 + d.cases.length) →
      Also want (switchLabels d k groups hasBreak) l :=
    fun l h₁ h₂ => .inr ((mem_switchLabels hd).mpr (.inl ⟨h₁, h₂⟩))
  have hpick : Tidy [] _ (k + 2 + d.cases.length) _ _ := tidy_dispatchDirective (n := k + 2) hd
    (hown (k + 1) (by omega) (by omega)) fun l h₁ h₂ => hown l (by omega) (by omega)
  have hall := ((hpick.append hcode fun l hl => lt_of_mem_labelsOfGroups hd hl).thenPlaceIf
    d.defaultGroup.isNone (k + 1) (by omega)).thenPlaceIf hasBreak k (by omega)
  rw [Nat.add_assoc] at hall
  have hclosed := hall.closeAlso (nodup_switchLabels hd) fun l hl => by
    have := (mem_switchLabels hd).mp hl
    omega
  refine tidy_statement ?_
  simpa [layOut_append, layOut_created, creations_add, layOut, Piece.directives] using
    hkey.append_own hclosed

theorem tidy_copy (stillOpen : Nat)
    (hcode : Tidy [] (Also want [n, n + 1]) (n + 2) (layOut code) n') :
    Tidy [] want n (Piece.copy (n, n + 1) stillOpen code).directives n' := by
  have hstart : Tidy [n] (Also want [n, n + 1]) (n + 2) _ _ := .place (by omega)
  have hclosed := ((hstart.append_own hcode).thenPlace (n + 1) (by omega)).closeAlso
    (by simp) (by simp)
  simpa [creations, List.range'_succ, Piece.directives] using hclosed

end Forms

/-- The labels of clauses are their stretches. -/
theorem yields_catches_stretches {T : Targets} {R : List Region} {region : Region}
    {clauses : List (Catch Stmt)} {stretches : List Stretch} {codes : List (Clause Piece)}
    {n n' : Nat} {ps : List Piece}
    (h : (catches T R region clauses stretches).Yields n codes ps n')
    (hlength : stretches.length = clauses.length) : codes.map (·.stretch) = stretches := by
  induction clauses generalizing n stretches codes with
  | nil =>
      obtain ⟨rfl, -⟩ := yields_catches_nil h
      rw [List.length_eq_zero_iff.mp hlength]
      rfl
  | cons clause rest ih =>
      match stretches with
      | stretch :: stretches =>
          obtain ⟨code, k, exit, m, others, -, -, hothers, rfl⟩ := yields_catches_cons h
          rw [List.map_cons, ih hothers (by simpa using hlength)]

theorem length_stretchesFrom {n k : Nat} : (stretchesFrom n k).length = k := by
  induction k generalizing n with
  | zero => rfl
  | succ k ih => rw [stretchesFrom, List.length_cons, ih]

theorem lt_of_mem_stretches {n k m : Nat} (h : n + 3 + 2 * k ≤ m) :
    ∀ l ∈ (stretchesFrom (n + 3) k).flatMap fun s => [s.1, s.2], l < m := by
  intro l hl
  rw [flatMap_stretchesFrom, List.mem_range'_1] at hl
  omega

mutual

/-- Code for a sound statement is tidy. -/
theorem keeps_stmt {want : Label → Prop} {T : Targets} {R : List Region} {inner : Option Frame}
    {lo hi : Nat} (s : Stmt) (hs : s.Sound inner lo hi) (hfits : Fits T want R inner lo hi) :
    (stmt T R s).Keeps want := by
  intro n n' u ps h
  match s with
  | .block body =>
      obtain ⟨code, hcode, rfl⟩ := yields_block h
      exact tidy_statement (keeps_stmts body hs hfits hcode)
  | .localInit slot e =>
      obtain ⟨code, hcode, rfl⟩ := yields_localInit h
      refine tidy_statement ?_
      rw [layOut_append]
      exact (keeps_value e hcode).thenEmit _ rfl
  | .expression e discard =>
      obtain ⟨code, hcode, rfl⟩ := yields_expression h
      refine tidy_statement ?_
      rw [layOut_append]
      exact (keeps_value e hcode).append_own (.emitIf (by simp [Instruction.targets]))
  | .ifElse c s none =>
      obtain ⟨test, m, code, htest, hcode, rfl⟩ := yields_ifThen h
      exact tidy_ifThen (keeps_branch c false (.inr (by simp)) htest)
        (keeps_stmt s hs.2 (hfits.also [n]) hcode)
  | .ifElse c s (some t) =>
      obtain ⟨hc, k, hs, ht⟩ := hs
      obtain ⟨test, m, code, m', other, htest, hcode, hother, rfl⟩ := yields_ifElse h
      exact tidy_ifElse (keeps_branch c false (.inr (by simp)) htest)
        (keeps_stmt s hs ((hfits.part (Nat.le_refl _) ht.le).also [n]) hcode)
        (keeps_stmt t ht ((hfits.part hs.le (Nat.le_refl _)).also [n, m']) hother)
  | .whileLoop j c body =>
      obtain ⟨hc, rfl, hbody⟩ := hs
      obtain ⟨-, test, m, code, htest, hcode, rfl⟩ := yields_whileLoop h
      exact tidy_forLoop .nil (keeps_branch c false (.inr (done_mem_loopLabels ..)) htest)
        (keeps_stmt body hbody (hfits.enterLoop .whileLoop (Nat.le_refl _) hbody.le ..) hcode) .nil
  | .doLoop j body c =>
      obtain ⟨hc, rfl, hbody⟩ := hs
      obtain ⟨-, code, m, test, hcode, htest, rfl⟩ := yields_doLoop h
      exact tidy_doLoop
        (keeps_stmt body hbody (hfits.enterLoop .doLoop (Nat.le_refl _) hbody.le ..) hcode)
        (keeps_branch c true (.inr (start_mem_loopLabels ..)) htest)
  | .forLoop j init c update body =>
      obtain ⟨hc, m, hinit, hupdate, hbody⟩ := hs
      obtain ⟨-, first, k, test, m₁, code, m₂, last, hfirst, htest, hcode, hlast, rfl⟩ :=
        yields_forLoop h
      have hm := hinit.le
      have hid := hupdate.le
      have hlt := hbody.le
      have hrest := hfits.part hm (Nat.le_refl _)
      exact tidy_forLoop (keeps_stmts init hinit (hfits.part (Nat.le_refl _) (by omega)) hfirst)
        (keeps_branchUnless c (.inr (done_mem_loopLabels ..)) htest)
        (keeps_stmt body hbody (hrest.enterLoop .forLoop hid hlt ..) hcode)
        (keeps_stmts update hupdate ((hrest.also _).beside hid hlt) hlast)
  | .switch id hasBreak e bodies d =>
      obtain ⟨he, hd, rfl, hbodies⟩ := hs
      obtain ⟨-, -, key, k, code, hkey, hcode, rfl⟩ := yields_switch h
      have hin := (hfits.also (switchLabels d k bodies.length hasBreak)).enter
        (f := .switch ⟨id, hasBreak⟩) (t := ⟨k, none, R.length⟩) rfl (Nat.le_refl _) hbodies.le rfl
        (fun hb => .inr ((mem_switchLabels hd).mpr (.inr ⟨hb, rfl⟩))) nofun
      exact tidy_switch hd (keeps_value e hkey) (tidy_groups bodies hbodies hin hcode
        fun l hl => lt_of_mem_labelsOfGroups hd hl)
  | .tryCatch guarded clauses none =>
      obtain ⟨m, hguarded, hclauses⟩ := hs
      obtain ⟨block, k, codes, hblock, hcodes, rfl⟩ := yields_tryCatch h
      have := sizeOf_clauses_pos clauses
      have hstretch := yields_catches_stretches hcodes length_stretchesFrom
      have hlength : codes.length = clauses.length := by
        rw [← List.length_map, hstretch, length_stretchesFrom]
      rw [← hlength] at hblock hstretch hcodes
      have hin : Fits T (ofTry want n block codes) R inner lo hi :=
        hfits.mono fun _ => .inl
      have hblock' := keeps_stmts guarded hguarded (hin.part (Nat.le_refl _) hclauses.le).inTry hblock
      have hclauses' := tidy_catches none clauses _ hclauses
        (hin.part hguarded.le (Nat.le_refl _)) (by rw [finallyCopy]; exact keeps_pure) ofTry_done
        hcodes (length_stretchesFrom.trans hlength) (lt_of_mem_stretches hblock'.numbered.le)
      rw [flatMap_stretchesFrom] at hclauses'
      refine tidy_statement ?_
      simpa [layOut] using tidy_tryCatch R.length hstretch hblock' .nil hclauses'
  | .tryCatch guarded clauses (some ⟨slot, body⟩) =>
      obtain ⟨m, m', hguarded, hclauses, hbody⟩ := hs
      obtain ⟨block, k, exit, k', codes, e, rescue, hblock, hexit, hcodes, hrescue, rfl⟩ :=
        yields_tryFinally h
      have := sizeOf_clauses_pos clauses
      have hm := hguarded.le
      have hm' := hclauses.le
      have hstretch := yields_catches_stretches hcodes length_stretchesFrom
      have hlength : codes.length = clauses.length := by
        rw [← List.length_map, hstretch, length_stretchesFrom]
      rw [← hlength] at hblock hstretch hcodes
      have hout : Fits T (ofTry want n block codes) R inner lo hi :=
        hfits.mono fun _ => .inl
      have hin := hout.inTryFinally (by omega) hbody
      have hcopy : (stmts T R body).Keeps (ofTry want n block codes) :=
        keeps_stmts body hbody (hout.part (by omega) (Nat.le_refl _))
      have hblock' := keeps_stmts guarded hguarded (hin.part (Nat.le_refl _) hm') hblock
      have hclauses' := tidy_catches (some body) clauses _ hclauses
        (hin.part hm (Nat.le_refl _)) (by rw [finallyCopy]; exact hcopy) ofTry_done hcodes
        (length_stretchesFrom.trans hlength)
        (lt_of_mem_stretches (Nat.le_trans hblock'.numbered.le (hcopy hexit).numbered.le))
      have hrescue' : Tidy [] (Also (ofTry want n block codes) [e, e + 1]) (e + 2)
          (layOut rescue) n' :=
        keeps_stmts body hbody ((hout.mono fun _ => .inl).part (by omega) (Nat.le_refl _)) hrescue
      rw [flatMap_stretchesFrom] at hclauses'
      refine tidy_statement ?_
      simpa [layOut] using
        tidy_tryFinally R.length hstretch hblock' (hcopy hexit) hclauses' slot hrescue'
  | .breakJump id =>
      obtain ⟨⟨f, hf, rfl, hb⟩, -⟩ := hs
      obtain ⟨t, code, ht, hcode, rfl⟩ := yields_breakJump h
      obtain ⟨t', ht', -, hwant, -⟩ := hfits.serves f hf
      obtain rfl := Option.some.inj (ht.symm.trans ht')
      refine tidy_statement ?_
      rw [layOut_append]
      exact (keeps_crossed R t.depth hfits.opens hcode).thenJump .goto _ (hwant hb)
  | .continueJump id =>
      obtain ⟨⟨f, hf, rfl, hc⟩, -⟩ := hs
      obtain ⟨t, l, code, ht, hl, hcode, rfl⟩ := yields_continueJump h
      obtain ⟨t', ht', -, -, hwant⟩ := hfits.serves f hf
      obtain rfl := Option.some.inj (ht.symm.trans ht')
      obtain ⟨l', hl', hw⟩ := hwant hc
      obtain rfl := Option.some.inj (hl.symm.trans hl')
      refine tidy_statement ?_
      rw [layOut_append]
      exact (keeps_crossed R t.depth hfits.opens hcode).thenJump .goto _ hw
  | .throw e =>
      obtain ⟨code, hcode, rfl⟩ := yields_throw h
      refine tidy_statement ?_
      rw [layOut_append]
      exact (keeps_value e hcode).thenEmit _ rfl
  | .empty =>
      obtain ⟨rfl, rfl⟩ := yields_empty h
      exact tidy_statement .nil
termination_by sizeOf s + sizeOf R

theorem keeps_stmts {want : Label → Prop} {T : Targets} {R : List Region} {inner : Option Frame}
    {lo hi : Nat} (body : List Stmt) (hs : Stmt.AllSound inner lo body hi)
    (hfits : Fits T want R inner lo hi) : (stmts T R body).Keeps want := by
  intro n n' u ps h
  match body with
  | [] =>
      obtain ⟨rfl, rfl⟩ := yields_nil h
      exact .nil
  | s :: rest =>
      obtain ⟨m, hs, hrest⟩ := hs
      obtain ⟨code, k, codes, hcode, hcodes, rfl⟩ := yields_cons h
      rw [layOut_append]
      exact (keeps_stmt s hs (hfits.part (Nat.le_refl _) hrest.le) hcode).append_own
        (keeps_stmts rest hrest (hfits.part hs.le (Nat.le_refl _)) hcodes)
termination_by sizeOf body + sizeOf R

/-- Groups place their labels besides what their bodies do. -/
theorem tidy_groups {want : Label → Prop} {T : Targets} {R : List Region} {inner : Option Frame}
    {lo hi : Nat} {d : Dispatch} {default : Nat} {cases : List CaseTarget} {index n n' : Nat}
    {u : Unit} {ps : List Piece} (bodies : List (List Stmt))
    (hs : Stmt.GroupsSound inner lo bodies hi) (hfits : Fits T want R inner lo hi)
    (h : (groups T R (placeGroup d default cases) index bodies).Yields n u ps n')
    (hlt : ∀ l ∈ (List.range' index bodies.length).flatMap (labelsOfGroup d default cases),
      l < n) :
    Tidy ((List.range' index bodies.length).flatMap (labelsOfGroup d default cases)) want n
      (layOut ps) n' := by
  match bodies with
  | [] =>
      obtain ⟨rfl, rfl⟩ := yields_groups_nil h
      exact .nil
  | body :: rest =>
      obtain ⟨m, hbody, hrest⟩ := hs
      obtain ⟨code, k, codes, hcode, hcodes, rfl⟩ := yields_groups_cons h
      rw [List.length_cons, List.range'_succ, List.flatMap_cons] at hlt ⊢
      rw [layOut_append, layOut_append, layOut_groupLabels]
      have hcode' := keeps_stmts body hbody (hfits.part (Nat.le_refl _) hrest.le) hcode
      have hfirst := (Tidy.places fun l hl => hlt l (List.mem_append_left _ hl)).append_own hcode'
      have hle := hcode'.numbered.le
      have hrest' := tidy_groups rest hrest (hfits.part hbody.le (Nat.le_refl _)) hcodes
        fun l hl => Nat.lt_of_lt_of_le (hlt l (List.mem_append_right _ hl)) hle
      exact hfirst.append hrest' fun l hl => hlt l (List.mem_append_right _ hl)
termination_by sizeOf bodies + sizeOf R

/-- Clauses place the labels of their stretches. -/
theorem tidy_catches {want : Label → Prop} {T : Targets} {R : List Region} {inner : Option Frame}
    {lo hi n n' : Nat} {done : Nat} {ps : List Piece} {codes : List (Clause Piece)}
    (region : Region) (clauses : List (Catch Stmt)) (stretches : List Stretch)
    (hs : Stmt.ClausesSound inner lo clauses hi)
    (hfits : Fits T want (clauseRegions R region) inner lo hi)
    (hcopy : (finallyCopy T R region).Keeps want) (hdone : want done)
    (h : (catches T R region clauses stretches).Yields n codes ps n')
    (hlength : stretches.length = clauses.length)
    (hlt : ∀ l ∈ stretches.flatMap fun s => [s.1, s.2], l < n) :
    Tidy (stretches.flatMap fun s => [s.1, s.2]) want n (layOutClauses done codes) n' := by
  match clauses, stretches with
  | [], [] =>
      obtain ⟨rfl, -, rfl⟩ := yields_catches_nil h
      exact .nil
  | ⟨_, slot, body⟩ :: rest, ⟨start, stop⟩ :: stretches =>
      obtain ⟨m, hbody, hrest⟩ := hs
      obtain ⟨code, k, exit, m', others, hcode, hexit, hothers, rfl⟩ := yields_catches_cons h
      have := sizeOf_clauseRegions_le R region
      rw [List.flatMap_cons] at hlt ⊢
      have hstart : Tidy [start] want n _ _ := .place (hlt start (by simp))
      have hcode' := keeps_stmts body hbody (hfits.part (Nat.le_refl _) hrest.le) hcode
      have hfirst := ((((hstart.thenEmit ⟨.store, some (.slot slot)⟩ rfl).append_own
        hcode').thenPlace stop (hlt stop (by simp))).append_own (hcopy hexit)).thenJump .goto done
        hdone
      have hle := hfirst.numbered.le
      have hrest' := tidy_catches region rest stretches hrest
        (hfits.part hbody.le (Nat.le_refl _)) hcopy hdone hothers (by simpa using hlength)
        fun l hl => Nat.lt_of_lt_of_le (hlt l (List.mem_append_right _ hl)) hle
      have hall := hfirst.append hrest' fun l hl => hlt l (List.mem_append_right _ hl)
      simpa [layOutClauses] using hall
termination_by sizeOf clauses + sizeOf region + sizeOf R

theorem keeps_crossed {want : Label → Prop} {T : Targets} {hi : Nat} (R : List Region)
    (depth : Nat) (hopens : Opens T want hi R) : (crossed T depth R).Keeps want := by
  intro n n' u ps h
  match R with
  | [] =>
      obtain ⟨rfl, rfl⟩ := yields_crossed_nil h
      exact .nil
  | none :: R =>
      obtain ⟨hi', hout⟩ := hopens.outside
      by_cases hd : depth ≤ R.length
      · exact keeps_crossed R depth hout (yields_crossed_none hd h)
      · obtain ⟨rfl, rfl⟩ := yields_crossed_inside (by rw [List.length_cons]; omega) h
        exact .nil
  | some body :: R =>
      by_cases hd : depth ≤ R.length
      · obtain ⟨hi', hout⟩ := hopens.outside
        obtain ⟨inner, lo, hi', hbody, hfits⟩ := hopens.fits
        obtain ⟨copy, m, code, hcopy, hcode, rfl⟩ := yields_crossed_some hd h
        exact (tidy_copy R.length (keeps_stmts body hbody (hfits.also [n, n + 1]) hcopy)).append_own
          (keeps_crossed R depth hout hcode)
      · obtain ⟨rfl, rfl⟩ := yields_crossed_inside (by rw [List.length_cons]; omega) h
        exact .nil
termination_by sizeOf R

end

end MethodCompiler.Lowering
