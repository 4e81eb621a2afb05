import MethodCompiler.Proofs.ExpressionCode
import MethodCompiler.Proofs.Labels

/-!
# What the code of statements is made of

Labels are numbered upwards, whatever code is generated.

The code of a flat statement is directives of its own and the code of the statements right
inside it, which is one piece each. Its own directives are those of its expressions, jumps,
labels, and the instruction of a switch. So whatever is said of pieces one by one has to be
looked at in three places only: where a statement has directives of its own, where it is a
jump, and where it is a try.
-/

namespace MethodCompiler.Lowering

open Annotated (Expr Stmt Catch)

/-! ## Labels are numbered upwards -/

section Numbers

variable {n n' : Nat} {u : Unit} {ps : List Piece}

theorem le_value {e : Expr} (h : (value e).Yields n u ps n') : n ≤ n' := by
  have htidy : Tidy [] (fun _ => True) n (layOut ps) n' := (keeps_exprCode e _).1 h
  exact htidy.numbered.le

theorem le_branch {e : Expr} {target : Label} {onTrue : Bool}
    (h : (branch e target onTrue).Yields n u ps n') : n ≤ n' := by
  have htidy : Tidy [] (fun _ => True) n (layOut ps) n' :=
    (keeps_exprCode e _).2 target onTrue trivial h
  exact htidy.numbered.le

theorem le_branchUnless {c : Option Expr} {target : Label}
    (h : (branchUnless c target).Yields n u ps n') : n ≤ n' := by
  cases c with
  | none => exact Nat.le_of_eq (Gen.yields_pure.mp h).2.2.symm
  | some e => exact le_branch h

mutual

theorem le_stmt {T : Targets} {R : List Region} (s : Stmt) {n n' : Nat} {u : Unit}
    {ps : List Piece} (h : (stmt T R s).Yields n u ps n') : n ≤ n' := by
  match s with
  | .block body =>
      obtain ⟨_, h, -⟩ := yields_block h
      exact le_stmts body h
  | .localInit .. =>
      obtain ⟨_, h, -⟩ := yields_localInit h
      exact le_value h
  | .expression .. =>
      obtain ⟨_, h, -⟩ := yields_expression h
      exact le_value h
  | .throw _ =>
      obtain ⟨_, h, -⟩ := yields_throw h
      exact le_value h
  | .empty => exact Nat.le_of_eq (yields_empty h).2.symm
  | .ifElse _ s none =>
      obtain ⟨_, _, _, htest, hcode, -⟩ := yields_ifThen h
      have := le_branch htest
      have := le_stmt s hcode
      omega
  | .ifElse _ s (some t) =>
      obtain ⟨_, _, _, _, _, htest, hcode, hother, -⟩ := yields_ifElse h
      have := le_branch htest
      have := le_stmt s hcode
      have := le_stmt t hother
      omega
  | .whileLoop _ _ body =>
      obtain ⟨-, _, _, _, htest, hcode, -⟩ := yields_whileLoop h
      have := le_branch htest
      have := le_stmt body hcode
      omega
  | .doLoop _ body _ =>
      obtain ⟨-, _, _, _, hcode, htest, -⟩ := yields_doLoop h
      have := le_stmt body hcode
      have := le_branch htest
      omega
  | .forLoop _ init _ update body =>
      obtain ⟨-, _, _, _, _, _, _, _, hfirst, htest, hcode, hlast, -⟩ := yields_forLoop h
      have := le_stmts init hfirst
      have := le_branchUnless htest
      have := le_stmt body hcode
      have := le_stmts update hlast
      omega
  | .switch _ _ _ bodies _ =>
      obtain ⟨-, -, _, _, _, hkey, hcodes, -⟩ := yields_switch h
      have := le_value hkey
      have := le_groups bodies hcodes
      omega
  | .tryCatch guarded clauses none =>
      obtain ⟨_, _, _, hblock, hcodes, -⟩ := yields_tryCatch h
      have := sizeOf_clauses_pos clauses
      have := le_stmts guarded hblock
      have := le_catches none clauses _ hcodes
      omega
  | .tryCatch guarded clauses (some ⟨_, body⟩) =>
      obtain ⟨_, _, _, _, _, _, _, hblock, hexit, hcodes, hrescue, -⟩ := yields_tryFinally h
      have := sizeOf_clauses_pos clauses
      have := le_stmts guarded hblock
      have := le_stmts body hexit
      have := le_catches (some body) clauses _ hcodes
      have := le_stmts body hrescue
      omega
  | .breakJump _ =>
      obtain ⟨_, _, -, h, -⟩ := yields_breakJump h
      exact le_crossed R h
  | .continueJump _ =>
      obtain ⟨_, _, _, -, -, h, -⟩ := yields_continueJump h
      exact le_crossed R h
termination_by sizeOf s + sizeOf R

theorem le_stmts {T : Targets} {R : List Region} (body : List Stmt) {n n' : Nat} {u : Unit}
    {ps : List Piece} (h : (stmts T R body).Yields n u ps n') : n ≤ n' := by
  match body with
  | [] => exact Nat.le_of_eq (yields_nil h).2.symm
  | s :: rest =>
      obtain ⟨_, _, _, hcode, hcodes, -⟩ := yields_cons h
      exact Nat.le_trans (le_stmt s hcode) (le_stmts rest hcodes)
termination_by sizeOf body + sizeOf R

theorem le_groups {T : Targets} {R : List Region} {d : Dispatch} {default : Label}
    {cases : List CaseTarget} {index : Nat} (bodies : List (List Stmt)) {n n' : Nat} {u : Unit}
    {ps : List Piece}
    (h : (groups T R (placeGroup d default cases) index bodies).Yields n u ps n') : n ≤ n' := by
  match bodies with
  | [] => exact Nat.le_of_eq (yields_groups_nil h).2.symm
  | body :: rest =>
      obtain ⟨_, _, _, hcode, hcodes, -⟩ := yields_groups_cons h
      exact Nat.le_trans (le_stmts body hcode) (le_groups rest hcodes)
termination_by sizeOf bodies + sizeOf R

theorem le_catches {T : Targets} {R : List Region} (region : Region) (clauses : List (Catch Stmt))
    (stretches : List Stretch) {n n' : Nat} {codes : List (Clause Piece)} {ps : List Piece}
    (h : (catches T R region clauses stretches).Yields n codes ps n') : n ≤ n' := by
  match clauses, stretches with
  | [], _ => exact Nat.le_of_eq (yields_catches_nil h).2.2.symm
  | _ :: _, [] =>
      rw [catches] at h
      · exact Nat.le_of_eq (Gen.yields_pure.mp h).2.2.symm
      · simp
  | ⟨_, _, body⟩ :: rest, _ :: stretches =>
      obtain ⟨_, _, _, _, _, hcode, hexit, hothers, -⟩ := yields_catches_cons h
      have := sizeOf_clauseRegions_le R region
      have hcopy := le_finallyCopy region hexit
      have := le_stmts body hcode
      have := le_catches region rest stretches hothers
      omega
termination_by sizeOf clauses + sizeOf region + sizeOf R

theorem le_finallyCopy {T : Targets} {R : List Region} (region : Region) {n n' : Nat} {u : Unit}
    {ps : List Piece} (h : (finallyCopy T R region).Yields n u ps n') : n ≤ n' := by
  match region with
  | none => exact Nat.le_of_eq (yields_finallyCopy_none h).2.symm
  | some body => exact le_stmts body (yields_finallyCopy_some h)
termination_by sizeOf region + sizeOf R

theorem le_crossed {T : Targets} {depth : Nat} (R : List Region) {n n' : Nat} {u : Unit}
    {ps : List Piece} (h : (crossed T depth R).Yields n u ps n') : n ≤ n' := by
  match R with
  | [] => exact Nat.le_of_eq (yields_crossed_nil h).2.symm
  | none :: R =>
      by_cases hd : depth ≤ R.length
      · exact le_crossed R (yields_crossed_none hd h)
      · exact Nat.le_of_eq (yields_crossed_inside (by rw [List.length_cons]; omega) h).2.symm
  | some body :: R =>
      by_cases hd : depth ≤ R.length
      · obtain ⟨_, _, _, hcopy, hcode, -⟩ := yields_crossed_some hd h
        have := le_stmts body hcopy
        have := le_crossed R hcode
        omega
      · exact Nat.le_of_eq (yields_crossed_inside (by rw [List.length_cons]; omega) h).2.symm
termination_by sizeOf R

end

end Numbers

/-! ## Flat statements -/

/-- Holds of the directives that a statement gives by itself. -/
structure OwnDirectives (P : Directive → Prop) (s : Stmt) : Prop extends Basic P where
  dispatch : ∀ d default cases, P (dispatchDirective d default cases)
  exprs : ∀ e ∈ s.exprs, ∀ part ∈ e.parts, ∀ i ∈ part.slotCode, P (.emit i)
  store : ∀ slot e, s = .localInit slot e → P (.emit ⟨.store, some (.slot slot)⟩)

theorem own_any (s : Stmt) : OwnDirectives (fun _ => True) s :=
  ⟨⟨fun _ => trivial, fun _ => trivial, fun _ _ => trivial⟩, fun _ _ _ => trivial,
    fun _ _ _ _ _ _ => trivial, fun _ _ _ => trivial⟩

/-- The construct that `s` is has been entered, with labels from before `m`. -/
structure Entered (T : Targets) (R : List Region) (s : Stmt) (f : Frame) (target : Target)
    (m : Nat) : Prop where
  frame : s.frame? = some f
  free : T.lookup f.id = none
  depth : target.depth = R.length
  breaks : target.breakLabel < m
  continues : ∀ l ∈ target.continueLabel, l < m
  loop : f.hasContinue → target.continueLabel ≠ none

/-- The code of a statement right inside `s`, with labels from `n` up to `n'`. -/
inductive ChildCode (T : Targets) (R : List Region) (s : Stmt) (n n' : Nat) (p : Piece) : Prop
  | outer {t : Stmt} {m m' : Nat} (ht : t ∈ s.outer) (hn : n ≤ m) (hn' : m' ≤ n')
      (h : (stmt T R t).Yields m () [p] m')
  | inner {t : Stmt} {f : Frame} {target : Target} {m m' : Nat} (ht : t ∈ s.inner)
      (hin : Entered T R s f target m) (hn : n ≤ m) (hn' : m' ≤ n')
      (h : (stmt ((f.id, target) :: T) R t).Yields m () [p] m')

/-- Pieces each of which is a directive as said or the code of a statement right inside. -/
def Composed (P : Directive → Prop) (T : Targets) (R : List Region) (s : Stmt) (n n' : Nat)
    (ps : List Piece) : Prop :=
  ∀ p ∈ ps, (∃ d, p = .give d ∧ P d) ∨ ChildCode T R s n n' p

section Composed

variable {P : Directive → Prop} {T : Targets} {R : List Region} {s : Stmt} {n n' : Nat} {u : Unit}
  {ps qs : List Piece}

theorem given_created (hP : Basic P) (n k : Nat) : Given P (created n k) := by
  induction k generalizing n with
  | zero => exact given_nil
  | succ k ih => exact (given_give (hP.create n)).append (ih (n + 1))

theorem given_placedIf (hP : Basic P) (used : Bool) (l : Label) :
    Given P (Gen.placedIf used l) := by
  cases used
  · exact given_nil
  · exact given_give (hP.place l)

theorem given_groupLabels (hP : Basic P) (d : Dispatch) (default : Label)
    (cases : List CaseTarget) (group : Nat) : Given P (groupLabels d default cases group) := by
  refine (given_placedIf hP _ _).append fun p hp => ?_
  obtain ⟨l, -, rfl⟩ := List.mem_map.mp hp
  exact ⟨_, rfl, hP.place l⟩

theorem Composed.append (hp : Composed P T R s n n' ps) (hq : Composed P T R s n n' qs) :
    Composed P T R s n n' (ps ++ qs) :=
  List.forall_mem_append.mpr ⟨hp, hq⟩

theorem Given.composed (h : Given P ps) : Composed P T R s n n' ps :=
  fun p hp => .inl (h p hp)

/-- The code of a statement is one piece. -/
theorem yields_stmt_single {t : Stmt} (h : (stmt T R t).Yields n u ps n') : ∃ p, ps = [p] := by
  rw [stmt.eq_def] at h
  obtain ⟨body, rfl, -⟩ := Gen.yields_statement.mp h
  exact ⟨_, rfl⟩

/-- The pieces of statements one after another are the code of one statement each. -/
theorem yields_stmts_mem {body : List Stmt} (h : (stmts T R body).Yields n u ps n') {p : Piece}
    (hp : p ∈ ps) : ∃ t ∈ body, ∃ m m', n ≤ m ∧ m' ≤ n' ∧ (stmt T R t).Yields m () [p] m' := by
  induction body generalizing n ps with
  | nil =>
      obtain ⟨rfl, -⟩ := yields_nil h
      cases hp
  | cons t rest ih =>
      obtain ⟨code, k, codes, hcode, hcodes, rfl⟩ := yields_cons h
      have hle := le_stmt t hcode
      have hle' := le_stmts rest hcodes
      obtain hp | hp := List.mem_append.mp hp
      · obtain ⟨q, rfl⟩ := yields_stmt_single hcode
        obtain rfl := List.mem_singleton.mp hp
        exact ⟨t, List.mem_cons_self, n, k, Nat.le_refl n, hle', hcode⟩
      · obtain ⟨t', ht', m, m', hm, hm', h⟩ := ih hcodes hp
        exact ⟨t', List.mem_cons_of_mem _ ht', m, m', Nat.le_trans hle hm, hm', h⟩

/-- The pieces of the groups of a switch are labels and the code of one statement each. -/
theorem yields_groups_mem (hP : Basic P) {d : Dispatch} {default : Label}
    {cases : List CaseTarget} {index : Nat} {bodies : List (List Stmt)}
    (h : (groups T R (placeGroup d default cases) index bodies).Yields n u ps n') {p : Piece}
    (hp : p ∈ ps) : (∃ d, p = .give d ∧ P d) ∨
      ∃ t ∈ bodies.flatten, ∃ m m', n ≤ m ∧ m' ≤ n' ∧ (stmt T R t).Yields m () [p] m' := by
  induction bodies generalizing n ps index with
  | nil =>
      obtain ⟨rfl, -⟩ := yields_groups_nil h
      cases hp
  | cons body rest ih =>
      obtain ⟨code, k, codes, hcode, hcodes, rfl⟩ := yields_groups_cons h
      have hle := le_stmts body hcode
      have hle' := le_groups rest hcodes
      rw [List.append_assoc, List.mem_append, List.mem_append] at hp
      obtain hp | hp | hp := hp
      · exact .inl (given_groupLabels hP d default cases index p hp)
      · obtain ⟨t, ht, m, m', hm, hm', h⟩ := yields_stmts_mem hcode hp
        exact .inr ⟨t, List.mem_append_left _ ht, m, m', hm, Nat.le_trans hm' hle', h⟩
      · obtain hd | ⟨t, ht, m, m', hm, hm', h⟩ := ih hcodes hp
        · exact .inl hd
        · exact .inr ⟨t, List.mem_append_right _ ht, m, m', Nat.le_trans hle hm, hm', h⟩

theorem given_value (hP : OwnDirectives P s) {e : Expr} (he : e ∈ s.exprs)
    (h : (value e).Yields n u ps n') : Given P ps :=
  (gives_exprCode hP.toBasic e (hP.exprs e he)).1 h

theorem given_branch (hP : OwnDirectives P s) {e : Expr} (he : e ∈ s.exprs) {target : Label}
    {onTrue : Bool} (h : (branch e target onTrue).Yields n u ps n') : Given P ps :=
  (gives_exprCode hP.toBasic e (hP.exprs e he)).2 target onTrue h

theorem given_branchUnless (hP : OwnDirectives P s) {c : Option Expr} (hc : ∀ e ∈ c, e ∈ s.exprs)
    {target : Label} (h : (branchUnless c target).Yields n u ps n') : Given P ps := by
  cases c with
  | none =>
      obtain ⟨-, rfl, -⟩ := Gen.yields_pure.mp h
      exact given_nil
  | some e => exact given_branch hP (hc e rfl) h

/-- The code of a statement that is generated where `s` is. -/
theorem composed_outer {t : Stmt} (ht : t ∈ s.outer) {m m' : Nat} (hn : n ≤ m) (hn' : m' ≤ n')
    (h : (stmt T R t).Yields m () ps m') : Composed P T R s n n' ps := by
  intro p hp
  obtain ⟨q, rfl⟩ := yields_stmt_single h
  obtain rfl := List.mem_singleton.mp hp
  exact .inr (.outer ht hn hn' h)

/-- The code of a statement inside the construct that `s` is. -/
theorem composed_inner {t : Stmt} (ht : t ∈ s.inner) {f : Frame} {target : Target} {m m' : Nat}
    (hin : Entered T R s f target m) (hn : n ≤ m) (hn' : m' ≤ n')
    (h : (stmt ((f.id, target) :: T) R t).Yields m () ps m') : Composed P T R s n n' ps := by
  intro p hp
  obtain ⟨q, rfl⟩ := yields_stmt_single h
  obtain rfl := List.mem_singleton.mp hp
  exact .inr (.inner ht hin hn hn' h)

theorem Entered.mono {f : Frame} {target : Target} {m m' : Nat} (h : Entered T R s f target m)
    (hm : m ≤ m') : Entered T R s f target m' :=
  { h with
    breaks := Nat.lt_of_lt_of_le h.breaks hm
    continues := fun l hl => Nat.lt_of_lt_of_le (h.continues l hl) hm }

theorem entered_loop {j : Annotated.Jumps} {kind : ConstructKind} {b c m : Nat}
    (hframe : s.frame? = some (j.frame kind)) (hno : T.lookup j.id = none) (hb : b < m)
    (hc : c < m) : Entered T R s (j.frame kind) ⟨b, some c, R.length⟩ m where
  frame := hframe
  free := hno
  depth := rfl
  breaks := hb
  continues := by
    rintro l ⟨⟩
    exact hc
  loop := by simp

/-- The code of a flat statement is directives of its own and the code of the statements right
inside it. -/
theorem composed_stmt (hs : s.Flat) (hP : OwnDirectives P s) (h : (stmt T R s).Yields n u ps n') :
    ∃ body, ps = [.statement body] ∧ Composed P T R s n n' body := by
  have hplace : ∀ l, Given P [.give (.place l)] := fun l => given_give (hP.place l)
  have hgoto : ∀ l, Given P [.give (.emit ⟨.goto, some (.label l)⟩)] :=
    fun l => given_give (hP.emit _ ⟨l, rfl⟩)
  match s with
  | .block body =>
      obtain ⟨code, hcode, rfl⟩ := yields_block h
      refine ⟨code, rfl, fun p hp => ?_⟩
      obtain ⟨t, ht, m, m', hm, hm', h⟩ := yields_stmts_mem hcode hp
      exact .inr (.outer ht hm hm' h)
  | .localInit slot e =>
      obtain ⟨code, hcode, rfl⟩ := yields_localInit h
      exact ⟨_, rfl, ((given_value hP (List.mem_singleton_self e) hcode).append
        (given_give (hP.store slot e rfl))).composed⟩
  | .expression e discard =>
      obtain ⟨code, hcode, rfl⟩ := yields_expression h
      refine ⟨_, rfl, ((given_value hP (List.mem_singleton_self e) hcode).append ?_).composed⟩
      cases discard
      · exact given_nil
      · exact given_give (hP.emit ⟨.pop, none⟩ rfl)
  | .throw e =>
      obtain ⟨code, hcode, rfl⟩ := yields_throw h
      exact ⟨_, rfl, ((given_value hP (List.mem_singleton_self e) hcode).append
        (given_give (hP.emit ⟨.throw, none⟩ rfl))).composed⟩
  | .empty =>
      obtain ⟨rfl, -⟩ := yields_empty h
      exact ⟨[], rfl, given_nil.composed⟩
  | .ifElse c s none =>
      obtain ⟨test, m, code, htest, hcode, rfl⟩ := yields_ifThen h
      have hle := le_branch htest
      have htest' := (given_give (hP.create n)).append
        (given_branch hP (List.mem_singleton_self c) htest)
      exact ⟨_, rfl, (htest'.composed.append (composed_outer (List.mem_singleton_self s) (by omega)
        (Nat.le_refl _) hcode)).append (hplace n).composed⟩
  | .ifElse c s (some t) =>
      obtain ⟨test, m, code, m', other, htest, hcode, hother, rfl⟩ := yields_ifElse h
      have hle := le_branch htest
      have hle' := le_stmt s hcode
      have hle'' := le_stmt t hother
      have htest' := (given_give (hP.create n)).append
        (given_branch hP (List.mem_singleton_self c) htest)
      have hbetween : Given P [.give (.create m'), .give (.emit ⟨.goto, some (.label m')⟩),
          .give (.place n)] :=
        (given_give (hP.create m')).append ((hgoto m').append (hplace n))
      exact ⟨_, rfl, (((htest'.composed.append (composed_outer (by simp [Stmt.outer]) (by omega)
        (by omega) hcode)).append hbetween.composed).append (composed_outer (by simp [Stmt.outer])
        (by omega) (Nat.le_refl _) hother)).append (hplace m').composed⟩
  | .whileLoop j c body =>
      obtain ⟨hno, test, m, code, htest, hcode, rfl⟩ := yields_whileLoop h
      have hle := le_branch htest
      have hin : Entered T R (.whileLoop j c body) (j.frame .whileLoop)
          ⟨n + 2, some (n + 3), R.length⟩ m := entered_loop rfl hno (by omega) (by omega)
      have hfirst := ((given_created hP.toBasic n 4).append (hplace n)).append
        (given_branch hP (List.mem_singleton_self c) htest)
      have hlast := ((given_placedIf hP.toBasic j.hasContinue (n + 3)).append (hgoto n)).append
        ((given_placedIf hP.toBasic j.hasBreak (n + 2)).append (hplace (n + 1)))
      refine ⟨_, rfl, ?_⟩
      simpa using (hfirst.composed.append (composed_inner (List.mem_singleton_self body) hin
        (by omega) (Nat.le_refl n') hcode)).append hlast.composed
  | .doLoop j body c =>
      obtain ⟨hno, code, m, test, hcode, htest, rfl⟩ := yields_doLoop h
      have hle := le_branch htest
      have hin : Entered T R (.doLoop j body c) (j.frame .doLoop)
          ⟨n + 1, some (n + 2), R.length⟩ (n + 3) := entered_loop rfl hno (by omega) (by omega)
      have hfirst := (given_created hP.toBasic n 3).append (hplace n)
      have hlast := ((given_placedIf hP.toBasic j.hasContinue (n + 2)).append
        (given_branch hP (List.mem_singleton_self c) htest)).append
        (given_placedIf hP.toBasic j.hasBreak (n + 1))
      refine ⟨_, rfl, ?_⟩
      simpa using (hfirst.composed.append (composed_inner (List.mem_singleton_self body) hin
        (by omega) hle hcode)).append hlast.composed
  | .forLoop j init c update body =>
      obtain ⟨hno, first, k, test, m, code, m', last, hfirst, htest, hcode, hlast, rfl⟩ :=
        yields_forLoop h
      have h₁ := le_stmts init hfirst
      have h₂ := le_branchUnless htest
      have h₃ := le_stmt body hcode
      have h₄ := le_stmts update hlast
      have hin : Entered T R (.forLoop j init c update body) (j.frame .forLoop)
          ⟨k + 2, some (k + 3), R.length⟩ m := entered_loop rfl hno (by omega) (by omega)
      have hfirst' : Composed P T R (.forLoop j init c update body) n n' first := by
        intro p hp
        obtain ⟨t, ht, i, i', hi, hi', h⟩ := yields_stmts_mem hfirst hp
        exact .inr (.outer ht hi (by omega) h)
      have htest' := ((given_created hP.toBasic k 4).append (hplace k)).append
        (given_branchUnless hP (fun e he => by simpa [Stmt.exprs] using he) htest)
      have hcode' : Composed P T R (.forLoop j init c update body) n n' code :=
        composed_inner (by simp [Stmt.inner]) hin (by omega) h₄ hcode
      have hlast' : Composed P T R (.forLoop j init c update body) n n' last := by
        intro p hp
        obtain ⟨t, ht, i, i', hi, hi', h⟩ := yields_stmts_mem hlast hp
        exact .inr (.inner (List.mem_append_left _ ht) (hin.mono (by omega)) (by omega) hi' h)
      have hend := ((hgoto k).append (given_placedIf hP.toBasic j.hasBreak (k + 2))).append
        (hplace (k + 1))
      refine ⟨_, rfl, ?_⟩
      simpa using ((((hfirst'.append htest'.composed).append hcode').append
        (given_placedIf hP.toBasic j.hasContinue (k + 3)).composed).append hlast').append
        hend.composed
  | .switch id hasBreak e bodies d =>
      obtain ⟨hno, -, key, k, codes, hkey, hcodes, rfl⟩ := yields_switch h
      have hle := le_value hkey
      have hk : k < k + 2 + d.cases.length := by omega
      have hin : Entered T R (.switch id hasBreak e bodies d) (.switch ⟨id, hasBreak⟩)
          ⟨k, none, R.length⟩ (k + 2 + d.cases.length) :=
        ⟨rfl, hno, rfl, hk, by simp, by simp [Frame.hasContinue]⟩
      have hfirst := (((given_value hP (List.mem_singleton_self e) hkey).append
        (given_created hP.toBasic k 2)).append
        (given_created hP.toBasic (k + 2) d.cases.length)).append
        (given_give (hP.dispatch d (k + 1) (numbered (k + 2) d.cases)))
      have hcodes' : Composed P T R (.switch id hasBreak e bodies d) n n' codes := by
        intro p hp
        obtain hd | ⟨t, ht, i, i', hi, hi', h⟩ := yields_groups_mem hP.toBasic hcodes hp
        · exact .inl hd
        · exact .inr (.inner ht (hin.mono hi) (by omega) hi' h)
      have hend := (given_placedIf hP.toBasic d.defaultGroup.isNone (k + 1)).append
        (given_placedIf hP.toBasic hasBreak k)
      refine ⟨_, rfl, ?_⟩
      simpa using (hfirst.composed.append hcodes').append hend.composed
  | .tryCatch .. | .breakJump _ | .continueJump _ => exact hs.elim

end Composed

end MethodCompiler.Lowering
