import Mathlib.Data.List.Forall2
import MethodCompiler.Proofs.Checking
import MethodCompiler.Proofs.Subtrees
import MethodCompiler.Proofs.TryRuns

/-!
# The statements of a body

A body and its tree have the same statements in the same order: checking turns each
statement into one of the tree and never drops, repeats or moves any. So the statement at
a place of the list `allParts` of a body becomes the one at the same place of its tree.

Code has more: a finally body is there many times. But every statement of the tree is there
at least once, inside the code of whatever it stands in.
-/

namespace MethodCompiler

/-! ## Lists of statements -/

namespace Source

mutual

/-- A statement and all statements inside it, in the order in which they are checked. -/
def Stmt.parts (s : Stmt) : List Stmt :=
  s :: match s with
  | .block ⟨_, body⟩ => Stmt.allParts body
  | .ifElse _ _ s none => s.parts
  | .ifElse _ _ s (some t) => s.parts ++ t.parts
  | .whileLoop _ _ body | .doLoop _ body _ => body.parts
  | .forLoop _ init _ update body => Stmt.allParts init ++ Stmt.allParts update ++ body.parts
  | .switch _ _ groups => Stmt.groupParts groups
  | .tryCatch _ ⟨_, body⟩ catches none => Stmt.allParts body ++ Stmt.clauseParts catches
  | .tryCatch _ ⟨_, body⟩ catches (some ⟨_, last⟩) =>
    Stmt.allParts body ++ Stmt.clauseParts catches ++ Stmt.allParts last
  | .localDecl .. | .expression .. | .breakJump _ | .continueJump _ | .throw .. | .empty => []
termination_by structural s

def Stmt.allParts (body : List Stmt) : List Stmt :=
  match body with
  | [] => []
  | s :: rest => s.parts ++ Stmt.allParts rest
termination_by structural body

def Stmt.groupParts (groups : List (Group Stmt)) : List Stmt :=
  match groups with
  | [] => []
  | ⟨_, body⟩ :: rest => Stmt.allParts body ++ Stmt.groupParts rest
termination_by structural groups

def Stmt.clauseParts (clauses : List (CatchClause Stmt)) : List Stmt :=
  match clauses with
  | [] => []
  | ⟨_, _, _, ⟨_, body⟩⟩ :: rest => Stmt.allParts body ++ Stmt.clauseParts rest
termination_by structural clauses

end

end Source

/-! ## A body and its tree -/

namespace Analysis

open Annotated (Stmt Catch)

/-- A statement becomes another somewhere in a body. -/
def BecomesSomewhere (s : Source.Stmt) (t : Stmt) : Prop :=
  ∃ policy st st', Becomes policy s st t st'

variable {policy : ContinuePolicy}

mutual

theorem Becomes.parts (s : Source.Stmt) {st st' : Progress} {t : Stmt} (h : Becomes policy s st t st') :
    List.Forall₂ BecomesSomewhere s.parts t.parts := by
  have hself : BecomesSomewhere s t := ⟨policy, st, st', h⟩
  match s with
  | .block ⟨_, body⟩ =>
      obtain ⟨ts, st₁, hts, rfl, rfl⟩ := h
      exact .cons hself (AllBecome.parts body hts)
  | .localDecl _ _ _ none =>
      obtain ⟨-, rfl, -⟩ := h
      exact .cons hself .nil
  | .localDecl _ _ _ (some _) =>
      obtain ⟨-, v, slot, sc, -, -, -, rfl, rfl⟩ := h
      exact .cons hself .nil
  | .expression _ _ =>
      obtain ⟨v, -, rfl, rfl⟩ := h
      exact .cons hself .nil
  | .ifElse _ _ s none =>
      obtain ⟨v, t₁, -, ht₁, rfl⟩ := h
      exact .cons hself (Becomes.parts s ht₁)
  | .ifElse _ _ s (some s') =>
      obtain ⟨v, t₁, st₁, t₂, -, ht₁, ht₂, rfl⟩ := h
      exact .cons hself (List.rel_append (Becomes.parts s ht₁) (Becomes.parts s' ht₂))
  | .whileLoop _ _ body =>
      obtain ⟨j, v, t₁, -, -, ht₁, rfl⟩ := h
      exact .cons hself (Becomes.parts body ht₁)
  | .doLoop _ body _ =>
      obtain ⟨j, v, t₁, -, ht₁, -, rfl⟩ := h
      exact .cons hself (Becomes.parts body ht₁)
  | .forLoop _ init _ update body =>
      obtain ⟨j, v, ts₁, st₁, ts₂, st₂, t₁, st₃, hts₁, -, hts₂, -, ht₁, rfl, rfl⟩ := h
      have hlists := List.rel_append (AllBecome.parts init hts₁) (AllBecome.parts update hts₂)
      exact .cons hself (List.rel_append hlists (Becomes.parts body ht₁))
  | .switch _ _ groups =>
      obtain ⟨id, hasBreak, v, labels, bodies, d, -, -, -, -, hbodies, -, rfl⟩ := h
      exact .cons hself (GroupsBecome.parts groups hbodies)
  | .breakJump _ =>
      obtain ⟨id, enclosing, -, rfl, rfl⟩ := h
      exact .cons hself .nil
  | .continueJump _ =>
      obtain ⟨⟨id, rfl⟩ | rfl, enclosing, rfl⟩ := h.continueJump <;> exact .cons hself .nil
  | .tryCatch _ ⟨_, body⟩ catches none =>
      obtain ⟨ts, st₁, cs, hts, hcs, rfl⟩ := h
      exact .cons hself
        (List.rel_append (AllBecome.parts body hts) (ClausesBecome.parts catches hcs))
  | .tryCatch _ ⟨_, body⟩ catches (some ⟨_, last⟩) =>
      obtain ⟨ts, st₁, cs, st₂, slot, sc, ts', st₃, hts, hcs, -, hts', rfl, rfl⟩ := h
      have hlists := List.rel_append (AllBecome.parts body hts) (ClausesBecome.parts catches hcs)
      exact .cons hself (List.rel_append hlists (AllBecome.parts last hts'))
  | .throw _ _ =>
      obtain ⟨v, -, -, rfl, rfl⟩ := h
      exact .cons hself .nil
  | .empty =>
      obtain ⟨rfl, rfl⟩ := h
      exact .cons hself .nil
termination_by structural s

theorem AllBecome.parts (body : List Source.Stmt) {st st' : Progress} {ts : List Stmt}
    (h : AllBecome policy body st ts st') :
    List.Forall₂ BecomesSomewhere (Source.Stmt.allParts body) (Stmt.allParts ts) := by
  match body with
  | [] =>
      obtain ⟨rfl, rfl⟩ := h
      exact .nil
  | s :: rest =>
      obtain ⟨t, st₁, ts', ht, hts', rfl⟩ := h
      exact List.rel_append (Becomes.parts s ht) (AllBecome.parts rest hts')
termination_by structural body

theorem GroupsBecome.parts (groups : List (Source.Group Source.Stmt)) {st st' : Progress}
    {bodies : List (List Stmt)} (h : GroupsBecome policy groups st bodies st') :
    List.Forall₂ BecomesSomewhere (Source.Stmt.groupParts groups) (Stmt.groupParts bodies) := by
  match groups with
  | [] =>
      obtain ⟨rfl, rfl⟩ := h
      exact .nil
  | ⟨_, body⟩ :: rest =>
      obtain ⟨ts, st₁, bodies', hts, hbodies', rfl⟩ := h
      exact List.rel_append (AllBecome.parts body hts) (GroupsBecome.parts rest hbodies')
termination_by structural groups

theorem ClausesBecome.parts (clauses : List (Source.CatchClause Source.Stmt)) {st st' : Progress}
    {cs : List (Catch Stmt)} (h : ClausesBecome policy clauses st cs st') :
    List.Forall₂ BecomesSomewhere (Source.Stmt.clauseParts clauses) (Stmt.clauseParts cs) := by
  match clauses with
  | [] =>
      obtain ⟨rfl, rfl⟩ := h
      exact .nil
  | ⟨_, _, _, ⟨_, body⟩⟩ :: rest =>
      obtain ⟨slot, sc, ts, st₁, cs', -, hts, hcs', rfl⟩ := h
      exact List.rel_append (AllBecome.parts body hts) (ClausesBecome.parts rest hcs')
termination_by structural clauses

end

end Analysis

/-- The statement at a place of an accepted body becomes the one at the same place of its
tree. -/
theorem check_parts {settings : Settings} {p : Source.Program} {h : Annotated.Program}
    (hcheck : check settings p = .ok h) {i : Nat} {s : Source.Stmt}
    (hs : (Source.Stmt.allParts p.body)[i]? = some s) :
    ∃ t, (Annotated.Stmt.allParts h.body)[i]? = some t ∧ Analysis.BecomesSomewhere s t := by
  obtain ⟨st, hbody, -⟩ := check_becomes hcheck
  obtain ⟨hlength, hget⟩ := List.forall₂_iff_get.mp (Analysis.AllBecome.parts p.body hbody)
  obtain ⟨hlt, rfl⟩ := List.getElem?_eq_some_iff.mp hs
  exact ⟨_, List.getElem?_eq_getElem (hlength ▸ hlt), hget i hlt (hlength ▸ hlt)⟩

/-! ## A tree and its code -/

namespace Simulation

open Annotated (Stmt Catch)
open Lowering hiding stmt stmts groups catches catching

variable {code : Code}

/-- The code of a statement is somewhere in the code. -/
def StandsSomewhere (code : Code) (t : Stmt) : Prop :=
  ∃ (T : Targets) (R : List Region) (n n' : Nat) (ps : List Piece) (around : List Guard) (pc : Nat),
    (Lowering.stmt T R t).Yields n () ps n' ∧ Standing code around pc ps

mutual

theorem stands_parts (s : Stmt) {T : Targets} {R : List Region} {n n' : Nat} {ps : List Piece}
    {around : List Guard} {pc : Nat} (hy : (Lowering.stmt T R s).Yields n () ps n')
    (hps : Standing code around pc ps) : ∀ t ∈ s.parts, StandsSomewhere code t := by
  have hself : StandsSomewhere code s := ⟨T, R, n, n', ps, around, pc, hy, hps⟩
  match s with
  | .localInit .. | .expression .. | .breakJump _ | .continueJump _ | .throw _ | .empty =>
      exact List.forall_mem_singleton.mpr hself
  | .block body =>
      obtain ⟨codes, hcodes, rfl⟩ := yields_block hy
      exact List.forall_mem_cons.mpr
        ⟨hself, stands_allParts body hcodes (standing_statement.mp hps)⟩
  | .ifElse _ s none =>
      obtain ⟨test, m, first, -, hfirst, rfl⟩ := yields_ifThen hy
      rw [standing_statement] at hps
      simp only [standing_append] at hps
      exact List.forall_mem_cons.mpr ⟨hself, stands_parts s hfirst hps.1.2⟩
  | .ifElse _ s (some t) =>
      obtain ⟨test, m, first, m', other, -, hfirst, hother, rfl⟩ := yields_ifElse hy
      rw [ifElsePieces, standing_statement] at hps
      simp only [standing_append] at hps
      obtain ⟨⟨⟨⟨-, hsf⟩, -⟩, hso⟩, -⟩ := hps
      exact List.forall_mem_cons.mpr ⟨hself, List.forall_mem_append.mpr
        ⟨stands_parts s hfirst hsf, stands_parts t hother hso⟩⟩
  | .whileLoop _ _ body =>
      obtain ⟨-, test, m, first, -, hfirst, rfl⟩ := yields_whileLoop hy
      rw [forPieces, standing_statement] at hps
      simp only [standing_append] at hps
      obtain ⟨⟨⟨⟨⟨⟨-, hsf⟩, -⟩, -⟩, -⟩, -⟩, -⟩ := hps
      exact List.forall_mem_cons.mpr ⟨hself, stands_parts body hfirst hsf⟩
  | .doLoop _ body _ =>
      obtain ⟨-, first, m, test, hfirst, -, rfl⟩ := yields_doLoop hy
      rw [doPieces, standing_statement] at hps
      simp only [standing_append] at hps
      obtain ⟨⟨⟨⟨-, hsf⟩, -⟩, -⟩, -⟩ := hps
      exact List.forall_mem_cons.mpr ⟨hself, stands_parts body hfirst hsf⟩
  | .forLoop _ init _ update body =>
      obtain ⟨-, first, k, test, m, round, m', last, hfirst, -, hround, hlast, rfl⟩ :=
        yields_forLoop hy
      rw [forPieces, standing_statement] at hps
      simp only [standing_append] at hps
      obtain ⟨⟨⟨⟨⟨⟨⟨⟨⟨hsf, -⟩, -⟩, -⟩, hsr⟩, -⟩, hsl⟩, -⟩, -⟩, -⟩ := hps
      have hlists := List.forall_mem_append.mpr
        ⟨stands_allParts init hfirst hsf, stands_allParts update hlast hsl⟩
      exact List.forall_mem_cons.mpr ⟨hself, List.forall_mem_append.mpr
        ⟨hlists, stands_parts body hround hsr⟩⟩
  | .switch _ _ _ bodies _ =>
      obtain ⟨-, -, key, k, codes, -, hcodes, rfl⟩ := yields_switch hy
      rw [switchPieces, standing_statement] at hps
      simp only [standing_append] at hps
      obtain ⟨⟨⟨-, hsc⟩, -⟩, -⟩ := hps
      exact List.forall_mem_cons.mpr ⟨hself, stands_groupParts bodies hcodes hsc⟩
  | .tryCatch guarded clauses none =>
      obtain ⟨block, k, codes, hblock, hcodes, rfl⟩ := yields_tryCatch hy
      have hst := standing_tryCatch (standing_statement.mp hps)
      exact List.forall_mem_cons.mpr ⟨hself, List.forall_mem_append.mpr
        ⟨stands_allParts guarded hblock hst.standing_block,
          stands_clauseParts clauses hcodes hst.standing_clauses⟩⟩
  | .tryCatch guarded clauses (some ⟨_, body⟩) =>
      obtain ⟨block, k, exit, k', codes, m, rescue, hblock, hexit, hcodes, -, rfl⟩ :=
        yields_tryFinally hy
      have hst := standing_tryCatch (standing_statement.mp hps)
      have hse := (standing_append.mp hst.standing_exit).1
      have hlists := List.forall_mem_append.mpr
        ⟨stands_allParts guarded hblock hst.standing_block,
          stands_clauseParts clauses hcodes hst.standing_clauses⟩
      exact List.forall_mem_cons.mpr ⟨hself, List.forall_mem_append.mpr
        ⟨hlists, stands_allParts body hexit hse⟩⟩
termination_by structural s

theorem stands_allParts (body : List Stmt) {T : Targets} {R : List Region} {n n' : Nat}
    {ps : List Piece} {around : List Guard} {pc : Nat}
    (hy : (Lowering.stmts T R body).Yields n () ps n') (hps : Standing code around pc ps) :
    ∀ t ∈ Stmt.allParts body, StandsSomewhere code t := by
  match body with
  | [] =>
      intro t ht
      cases ht
  | s :: rest =>
      obtain ⟨first, m, others, hfirst, hothers, rfl⟩ := yields_cons hy
      obtain ⟨hsf, hso⟩ := standing_append.mp hps
      exact List.forall_mem_append.mpr
        ⟨stands_parts s hfirst hsf, stands_allParts rest hothers hso⟩
termination_by structural body

theorem stands_groupParts (bodies : List (List Stmt)) {T : Targets} {R : List Region}
    {d : Dispatch} {default : Label} {cases : List CaseTarget} {index n n' : Nat} {ps : List Piece}
    {around : List Guard} {pc : Nat}
    (hy : (Lowering.groups T R (placeGroup d default cases) index bodies).Yields n () ps n')
    (hps : Standing code around pc ps) : ∀ t ∈ Stmt.groupParts bodies, StandsSomewhere code t := by
  match bodies with
  | [] =>
      intro t ht
      cases ht
  | body :: rest =>
      obtain ⟨first, m, others, hfirst, hothers, rfl⟩ := yields_groups_cons hy
      simp only [standing_append] at hps
      obtain ⟨⟨-, hsf⟩, hso⟩ := hps
      exact List.forall_mem_append.mpr
        ⟨stands_allParts body hfirst hsf, stands_groupParts rest hothers hso⟩
termination_by structural bodies

theorem stands_clauseParts (clauses : List (Catch Stmt)) {T : Targets} {R : List Region}
    {region : Region} {k n n' : Nat} {ps : List Piece} {codes : List (Clause Piece)}
    {own around : List Guard} {done : Label} {pc : Nat}
    (hy : (Lowering.catches T R region clauses (stretchesFrom k clauses.length)).Yields
      n codes ps n')
    (hst : StandingClauses code own around done pc codes) :
    ∀ t ∈ Stmt.clauseParts clauses, StandsSomewhere code t := by
  match clauses with
  | [] =>
      intro t ht
      cases ht
  | ⟨_, _, body⟩ :: rest =>
      obtain ⟨first, _, copy, _, others, hfirst, -, hothers, rfl⟩ := yields_catches_cons hy
      obtain ⟨hclause, hrest⟩ := standing_clauses_cons hst
      exact List.forall_mem_append.mpr
        ⟨stands_allParts body hfirst hclause.body, stands_clauseParts rest hothers hrest⟩
termination_by structural clauses

end

end Simulation

end MethodCompiler
