import MethodCompiler.Proofs.ExpressionRuns
import MethodCompiler.Proofs.SoundTree

/-!
# Runs of the code of statements

Between statements the stack is empty. A statement that runs to its end brings the run to
the end of its code, and `Goes` says so. A jump is a longer story. In the tree it is over
at once, and the finally bodies that it passes run one after another as the tries around
it are left. In the code all of them are copied to the place of the jump. So what there is
to say about a jump from inside some regions is where the run stands then: at the copies
of the finally bodies of all these regions, innermost first, which end with the jump. That
is `Leaving`. Leaving a try takes the first copy away.

A jump names the construct right around it, so the regions it leaves are those between the
jump and this construct.
-/

namespace MethodCompiler.Simulation

open Annotated (Expr Stmt)
open Lowering hiding stmt stmts groups catches catching
open Interpretation Machine

variable {σ : Type} {host : Host σ} {code : Code} {rounds : Nat}

/-! ## Jumps out of regions -/

/-- At `q` the code leaves regions and jumps to `l`: copies of their finally bodies, the
innermost first, up to the regions around the construct that is left, and the jump. -/
def Leaving (code : Code) (T : Targets) (l : Label) (depth : Nat) :
    List Region → List Guard → Nat → Prop
  | [], _, q => code.instructions[q]? = some ⟨.goto, some (.label l)⟩
  | none :: R, guards, q =>
    if R.length < depth then code.instructions[q]? = some ⟨.goto, some (.label l)⟩
    else Leaving code T l depth R guards.tail q
  | some body :: R, guards, q =>
    if R.length < depth then code.instructions[q]? = some ⟨.goto, some (.label l)⟩
    else ∃ n ps n', (Lowering.stmts T R body).Yields n () ps n' ∧
      Standing code guards.tail q ps ∧
      Leaving code T l depth R guards.tail (q + size (layOut ps))

section Leaving

variable {T : Targets} {l : Label} {depth : Nat} {R : List Region} {guards : List Guard} {q : Nat}

/-- Where no region is left there is only the jump. -/
theorem Leaving.here (h : Leaving code T l depth R guards q) (hd : R.length ≤ depth) :
    code.instructions[q]? = some ⟨.goto, some (.label l)⟩ := by
  match R with
  | [] => exact h
  | none :: R | some _ :: R =>
      rw [List.length_cons] at hd
      rw [Leaving, if_pos (by omega)] at h
      exact h

theorem Leaving.outside {g : Guard} (h : Leaving code T l depth (none :: R) (g :: guards) q)
    (hd : depth ≤ R.length) : Leaving code T l depth R guards q := by
  rw [Leaving, if_neg (by omega)] at h
  exact h

theorem Leaving.copy {body : List Stmt} {g : Guard}
    (h : Leaving code T l depth (some body :: R) (g :: guards) q) (hd : depth ≤ R.length) :
    ∃ n ps n', (Lowering.stmts T R body).Yields n () ps n' ∧ Standing code guards q ps ∧
      Leaving code T l depth R guards (q + size (layOut ps)) := by
  rw [Leaving, if_neg (by omega)] at h
  exact h

/-- What guards the innermost region does not matter to a jump that leaves it. -/
theorem Leaving.guarded {region : Region} {g g' : Guard}
    (h : Leaving code T l depth (region :: R) (g :: guards) q) :
    Leaving code T l depth (region :: R) (g' :: guards) q := by
  cases region with
  | none | some _ =>
      rw [Leaving] at h ⊢
      exact h

theorem standing_copy {around : List Guard} {pc : Nat} {stretch : Stretch} {stillOpen : Nat}
    {body rest : List Piece} (h : Standing code around pc (.copy stretch stillOpen body :: rest)) :
    Standing code (around.drop (around.length - stillOpen)) pc body ∧
      Standing code around (pc + size (layOut body)) rest := by
  rw [← List.singleton_append, standing_append] at h
  obtain ⟨⟨hlaid, hcov⟩, hrest⟩ := h
  have hds : layOut [.copy stretch stillOpen body] =
      (Piece.copy stretch stillOpen body).directives := by simp [layOut]
  rw [hds] at hlaid hrest
  rw [size_copy] at hrest
  have hsites : sites around [.copy stretch stillOpen body] =
      sites (around.drop (around.length - stillOpen)) body := by simp [sites, Piece.sites]
  rw [hsites] at hcov
  exact ⟨⟨(laid_copy hlaid).2.1, hcov⟩, hrest⟩

/-- The code that a jump comes with leaves the regions around it. The copies stand in the
regions outside their own, wherever the jump itself stands. -/
theorem leaving_of_crossed (inner : List Guard) {n n' : Nat} {u : Unit} {ps : List Piece}
    (hy : (crossed T depth R).Yields n u ps n') (hlength : guards.length = R.length)
    (hps : Standing code (inner ++ guards) q ps)
    (hjump : code.instructions[q + size (layOut ps)]? = some ⟨.goto, some (.label l)⟩) :
    Leaving code T l depth R guards q := by
  induction R generalizing inner guards n ps q with
  | nil =>
      obtain ⟨rfl, -⟩ := yields_crossed_nil hy
      exact hjump
  | cons region R ih =>
      obtain ⟨g, guards, rfl⟩ := List.exists_cons_of_length_eq_add_one hlength
      have hrest : guards.length = R.length := by simpa using hlength
      have hsplit : inner ++ g :: guards = (inner ++ [g]) ++ guards := by simp
      by_cases hd : R.length < depth
      · obtain ⟨rfl, -⟩ := yields_crossed_inside (by rw [List.length_cons]; omega) hy
        cases region with
        | none | some _ =>
            rw [Leaving, if_pos hd]
            exact hjump
      · cases region with
        | none =>
            rw [Leaving, if_neg hd]
            exact ih (inner ++ [g]) (yields_crossed_none (by omega) hy) hrest (hsplit ▸ hps) hjump
        | some body =>
            obtain ⟨copy, k, rest, hcopy, hcode, rfl⟩ := yields_crossed_some (by omega) hy
            obtain ⟨hsc, hsr⟩ := standing_copy hps
            have hdrop : (inner ++ g :: guards).drop ((inner ++ g :: guards).length - R.length) =
                guards := by
              rw [hsplit, ← hrest, List.length_append, Nat.add_sub_cancel, List.drop_left]
            rw [hdrop] at hsc
            have hds : layOut (Piece.copy (n, n + 1) R.length copy :: rest) =
                (Piece.copy (n, n + 1) R.length copy).directives ++ layOut rest := rfl
            rw [hds, size_append, size_copy, ← Nat.add_assoc] at hjump
            rw [Leaving, if_neg hd]
            exact ⟨_, copy, _, hcopy, hsc, ih (inner ++ [g]) hcode hrest (hsplit ▸ hsr) hjump⟩

end Leaving

/-! ## Statements in their surroundings -/

/-- What is around a statement: the construct right around it, where jumps out of that
lead, and the open regions with what guards them. -/
structure Context where
  inner : Option Frame
  dest : Target
  regions : List Region
  guards : List Guard
  length_guards : guards.length = regions.length
  depth_le : dest.depth ≤ regions.length

namespace Context

/-- Inside one more region. -/
def inside (C : Context) (region : Region) (g : Guard) : Context where
  inner := C.inner
  dest := C.dest
  regions := region :: C.regions
  guards := g :: C.guards
  length_guards := congrArg (· + 1) C.length_guards
  depth_le := Nat.le_succ_of_le C.depth_le

/-- Right inside another construct. -/
def enter (C : Context) (f : Frame) (breakLabel : Label) (continueLabel : Option Label) :
    Context where
  inner := some f
  dest := ⟨breakLabel, continueLabel, C.regions.length⟩
  regions := C.regions
  guards := C.guards
  length_guards := C.length_guards
  depth_le := Nat.le_refl _

/-- The jumps of a statement lead where they should. -/
def Names (C : Context) (T : Targets) : Prop :=
  ∀ f ∈ C.inner, T.lookup f.id = some C.dest

theorem names_enter (C : Context) (T : Targets) (f : Frame) (b : Label) (c : Option Label) :
    (C.enter f b c).Names ((f.id, ⟨b, c, C.regions.length⟩) :: T) := by
  intro f' hf'
  obtain rfl := Option.some.inj hf'
  simp [enter]

/-- A construct that is entered has another number than the one right around it. -/
theorem Names.cons {C : Context} {T : Targets} (h : C.Names T) {id : Nat} (hid : T.lookup id = none)
    (t : Target) : C.Names ((id, t) :: T) := by
  intro f hf
  have hlookup := h f hf
  have hne : f.id ≠ id := by
    rintro rfl
    rw [hid] at hlookup
    cases hlookup
  rw [List.lookup_cons, beq_false_of_ne hne]
  exact hlookup

end Context

/-- Whether a jump names a construct that knows of it. -/
def Allows (f : Frame) : Flow → Prop
  | .normal => False
  | .brk id => f.id = id ∧ f.hasBreak
  | .cont id => f.id = id ∧ f.hasContinue

/-- The label that a jump leads to. -/
def exitLabel (t : Target) : Flow → Option Label
  | .normal => none
  | .brk _ => some t.breakLabel
  | .cont _ => t.continueLabel

/-- A run from `c` comes to the code of a jump out of the construct right around. -/
structure Jumps (host : Host σ) (code : Code) (C : Context) (c : Nat × Machine σ) (flow : Flow)
    (m : Machine σ) : Prop where
  allowed : ∃ f ∈ C.inner, Allows f flow
  leaves : ∃ l, exitLabel C.dest flow = some l ∧ ∃ T q, C.Names T ∧
    Leaving code T l C.dest.depth C.regions C.guards q ∧ Reaches host code c (q, m.on [])

/-- A run from `c` comes to the end of a statement, or to the code of a jump. -/
def Goes (host : Host σ) (code : Code) (C : Context) (next : Nat) (c : Nat × Machine σ) :
    Flow → Machine σ → Prop
  | .normal, m => Reaches host code c (next, m.on [])
  | flow, m => Jumps host code C c flow m

section Goes

variable {C : Context} {c c' : Nat × Machine σ} {next : Nat} {flow : Flow} {m : Machine σ}

theorem Jumps.after (hr : Reaches host code c c') (h : Jumps host code C c' flow m) :
    Jumps host code C c flow m := by
  obtain ⟨hf, l, hl, T, q, hT, hq, hreach⟩ := h
  exact ⟨hf, l, hl, T, q, hT, hq, hr.trans hreach⟩

theorem Jumps.goes (h : Jumps host code C c flow m) (next : Nat) :
    Goes host code C next c flow m := by
  cases flow with
  | normal =>
      obtain ⟨⟨f, -, hf⟩, -⟩ := h
      exact hf.elim
  | brk id | cont id => exact h

theorem Goes.after (hr : Reaches host code c c') (h : Goes host code C next c' flow m) :
    Goes host code C next c flow m := by
  cases flow with
  | normal => exact hr.trans h
  | brk id | cont id => exact Jumps.after hr h

/-- A statement that runs into a jump ends where the jump leads. -/
theorem Goes.goto {mid : Nat} {l : Label} (h : Goes host code C mid c flow m)
    (hat : code.instructions[mid]? = some ⟨.goto, some (.label l)⟩)
    (hl : code.position l = some next) : Goes host code C next c flow m := by
  cases flow with
  | normal => exact Relation.ReflTransGen.tail h (onward_goto host (m.on []) hat hl)
  | brk id | cont id => exact h

/-- A jump out of the construct that is entered comes to its label. -/
theorem Jumps.arrives {f : Frame} {b : Label} {k : Option Label} {l : Label} {dest : Nat}
    (h : Jumps host code (C.enter f b k) c flow m) (hl : exitLabel ⟨b, k, 0⟩ flow = some l)
    (hdest : code.position l = some dest) : Reaches host code c (dest, m.on []) := by
  obtain ⟨-, l', hl', T, q, -, hq, hreach⟩ := h
  have heq : l' = l := by
    cases flow with
    | normal => cases hl
    | brk _ | cont _ => exact Option.some.inj (hl'.symm.trans hl)
  subst heq
  have hgoto := hq.here (Nat.le_refl _)
  exact hreach.tail (onward_goto host (m.on []) hgoto hdest)

end Goes

section Follows

variable (host : Host σ) (code : Code) (rounds : Nat)

/-- What a step of generation gives runs as a part of the tree does. -/
def Follows (C : Context) (x : Gen Unit) (e : Eval σ Flow) : Prop :=
  ∀ ⦃n n' : Nat⦄ ⦃u : Unit⦄ ⦃ps : List Piece⦄, x.Yields n u ps n' →
    ∀ ⦃pc : Nat⦄, Standing code C.guards pc ps → ∀ m : Machine σ,
      Ends host code rounds C.guards.flatten (pc, m.on []) (e m)
        (Goes host code C (pc + size (layOut ps)) (pc, m.on []))

end Follows

variable {C : Context}

theorem follows_statement {x : Gen Unit} {e : Eval σ Flow} (h : Follows host code rounds C x e) :
    Follows host code rounds C (Gen.statement x) e := by
  intro n n' u ps hy pc hps m
  obtain ⟨body, rfl, hbody⟩ := Gen.yields_statement.mp hy
  have hsize : layOut [.statement body] = layOut body := by simp
  rw [hsize]
  exact h hbody (standing_statement.mp hps) m

/-- Code that leaves the stack as it was is that of a statement that runs to its end. -/
theorem follows_of_runs {α : Type} {x : Gen Unit} {e : Eval σ α}
    (h : Runs host code rounds x [] e fun _ => []) :
    Follows host code rounds C x (e >>= fun _ => pure .normal) := by
  intro n n' u ps hy pc hps m
  exact (h hy hps m []).bind fun _ _ hr => hr

theorem follows_pure : Follows host code rounds C (pure ()) (pure .normal : Eval σ Flow) := by
  intro n n' u ps hy pc _ m
  obtain ⟨-, rfl, -⟩ := Gen.yields_pure.mp hy
  exact Relation.ReflTransGen.refl

theorem ends_andThen {first second : Eval σ Flow} {gs : Guard} {c : Nat × Machine σ}
    {m : Machine σ} {mid next : Nat}
    (h₁ : Ends host code rounds gs c (first m) (Goes host code C mid c))
    (h₂ : ∀ m', Ends host code rounds gs (mid, m'.on []) (second m')
      (Goes host code C next (mid, m'.on []))) :
    Ends host code rounds gs c (Eval.andThen first second m) (Goes host code C next c) := by
  refine h₁.bind fun flow m' h => ?_
  cases flow with
  | normal => exact (h₂ m').after h fun _ _ h' => h'.after h
  | brk id | cont id => exact h

theorem follows_seq {x : Gen Unit} {f : Unit → Gen Unit} {first second : Eval σ Flow}
    (h₁ : Follows host code rounds C x first) (h₂ : Follows host code rounds C (f ()) second) :
    Follows host code rounds C (x >>= f) (Eval.andThen first second) := by
  intro n n' u ps hy pc hps m
  obtain ⟨p, k, q, hp, rfl, hq⟩ := Gen.yields_unit_bind.mp hy
  obtain ⟨hsp, hsq⟩ := standing_append.mp hps
  rw [layOut_append, size_append, ← Nat.add_assoc]
  exact ends_andThen (h₁ hp hsp m) fun m' => h₂ hq hsq m'

/-! ## Loops -/

/-- A run from `c`, where a loop starts, leaves the loop or comes back, but not at once. -/
def Round (host : Host σ) (code : Code) (C : Context) (next : Nat) (c : Nat × Machine σ) :
    Option Flow → Machine σ → Prop
  | some flow, m => Goes host code C next c flow m
  | none, m => Proceeds host code c (c.1, m.on [])

/-- Rounds of a loop, as many as are left. If they do not suffice, as many instructions
have been gone through. -/
theorem ends_loop {round : Eval σ (Option Flow)} {gs : Guard} {start next : Nat}
    (hround : ∀ m, Ends host code rounds gs (start, m.on []) (round m)
      (Round host code C next (start, m.on []))) {k : Nat} (hk : k ≤ rounds) (m : Machine σ) :
    Ends host code k gs (start, m.on []) (Eval.loop round k m)
      (Goes host code C next (start, m.on [])) := by
  induction k generalizing m with
  | zero => trivial
  | succ k ih =>
      rw [Eval.loop]
      refine ((hround m).mono hk).bind fun result m' h => ?_
      cases result with
      | some flow => exact h
      | none =>
          have hback : Proceeds host code (start, m.on []) (start, m'.on []) := h
          exact (ih (by omega) m').afterRound hback fun _ _ h' => h'.after hback.to_reflTransGen

/-- How the body of a loop ends decides whether the loop is left or goes on. -/
theorem Goes.leaves {j : Annotated.Jumps} {kind : ConstructKind} {b l : Label} {mid next : Nat}
    {c : Nat × Machine σ} {flow : Flow} {m : Machine σ}
    (h : Goes host code (C.enter (j.frame kind) b (some l)) mid c flow m)
    (hbreak : j.hasBreak → code.position b = some next)
    (hcontinue : j.hasContinue → code.position l = some mid) :
    (leaves j.id flow = none ∧ Reaches host code c (mid, m.on [])) ∨
      (leaves j.id flow = some .normal ∧ Reaches host code c (next, m.on [])) := by
  cases flow with
  | normal => exact .inl ⟨rfl, h⟩
  | brk id =>
      obtain ⟨_, hf, rfl, hb⟩ := h.allowed
      obtain rfl := Option.some.inj hf
      exact .inr ⟨by simp [Interpretation.leaves, Annotated.Jumps.frame, Frame.id],
        Jumps.arrives h rfl (hbreak hb)⟩
  | cont id =>
      obtain ⟨_, hf, rfl, hc⟩ := h.allowed
      obtain rfl := Option.some.inj hf
      exact .inl ⟨by simp [Interpretation.leaves, Annotated.Jumps.frame, Frame.id],
        Jumps.arrives h rfl (hcontinue hc)⟩

end MethodCompiler.Simulation
