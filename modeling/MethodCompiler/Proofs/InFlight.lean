import MethodCompiler.Proofs.Preservation
import MethodCompiler.Proofs.QuietCode
import MethodCompiler.Proofs.Rescues
import MethodCompiler.Proofs.Slots

/-!
# The object in flight

The handler of a finally body stores what was thrown in a slot of its own, runs a copy of
the body, loads the object again and throws it. `in_flight_survives` says that what is thrown
is what was stored, whatever the body does.

In the tree nothing in the body writes the slot. In the code that is not so: a break out of
the body comes with copies of the finally bodies around the try, and they may use the slot.
But a run that gets there does not come to the end of the copy, see `Lowering.Lost`.
-/

namespace MethodCompiler

open Lowering
open Annotated (Stmt Catch)

/-! ## Labels with a position -/

namespace Assembler

/-- Where there is a position the label was placed. -/
theorem run_position {a b : Assembler} {ds : List Directive} (h : a.run ds = .ok b) {l : Label}
    {pc : Nat} (hl : b.position? l = some pc) : a.position? l = some pc ∨ .place l ∈ ds := by
  induction ds generalizing a with
  | nil =>
      obtain rfl := Except.ok.inj h
      exact .inl hl
  | cons d ds ih =>
      obtain ⟨a', hd, hrun⟩ := run_cons h
      rcases ih hrun with hl | hl
      · exact (apply_position hd hl).imp_right fun hplace => List.mem_cons.mpr (.inl hplace.symm)
      · exact .inr (List.mem_cons_of_mem _ hl)

end Assembler

theorem assemble_placed {maxLabels maxLocals : Nat} {ds : List Directive} {code : Code}
    (h : assemble maxLabels maxLocals ds = .ok code) {l : Label} {pc : Nat}
    (hl : code.position l = some pc) : .place l ∈ ds := by
  simp only [assemble, bind, Except.bind] at h
  split at h
  · simp at h
  · next a hrun =>
      rw [Assembler.finish] at h
      split at h
      · simp at h
      · simp only [bind, Except.bind] at h
        split at h
        · simp at h
        · obtain rfl := Except.ok.inj h
          refine (Assembler.run_position hrun hl).resolve_left fun hstart => ?_
          simp [Assembler.position?] at hstart

/-! ## Runs inside a stretch of code -/

namespace Machine

variable {σ : Type} {host : Host σ} {code : Code} {slot lo hi : Nat}

/-- A run from one instruction to another with only positions from `lo` up to `hi` on the way. -/
def Within (host : Host σ) (code : Code) (lo hi : Nat) : Nat × Machine σ → Nat × Machine σ → Prop :=
  Relation.ReflTransGen fun a b => lo ≤ a.1 ∧ a.1 < hi ∧ Onward host code a b

/-- What holds all the way of a run inside the stretch: the slot is as it was, or the run does
not come to the end of the stretch any more. -/
def Holding (code : Code) (slot lo hi : Nat) (L : Array Value) (a : Nat × Machine σ) : Prop :=
  a.2.locals[slot]? = L[slot]? ∨ Lost code lo hi a.1 ∨ a.1 < lo ∨ hi < a.1

/-- What is stored is in the slot. -/
theorem Onward.stored {pc pc' : Nat} {m m' : Machine σ} {v : Value} {rest : List Value}
    (h : Onward host code (pc, m) (pc', m')) (hstack : m.stack = v :: rest)
    (hinstr : code.instructions[pc]? = some ⟨.store, some (.slot slot)⟩) :
    m'.locals[slot]? = some v := by
  have h : m.advance host code pc = .onward pc' m' := h
  have hm : m = m.on ([v] ++ rest) := by
    rw [List.singleton_append, ← hstack]
    rfl
  rw [advance, hinstr] at h
  simp only at h
  rw [hm, Simulation.step_store] at h
  by_cases hlt : slot < m.locals.size
  · rw [if_pos hlt] at h
    obtain ⟨-, rfl⟩ := Turn.onward.inj h
    exact Array.getElem?_setIfInBounds_self_of_lt hlt
  · rw [if_neg hlt] at h
    cases h

/-- What is in the slot is loaded. -/
theorem onward_load {pc : Nat} {m : Machine σ} {v : Value} (hslot : m.locals[slot]? = some v)
    (hinstr : code.instructions[pc]? = some ⟨.load, some (.slot slot)⟩) :
    Onward host code (pc, m) (pc + 1, m.on (v :: m.stack)) := by
  have hadvance : m.advance host code pc = .onward (pc + 1) (m.on (v :: m.stack)) := by
    rw [advance, hinstr]
    simp only [step, load, hslot]
    rfl
  exact hadvance

theorem Holding.onward {L : Array Value} {a b : Nat × Machine σ}
    (hkept : KeptAt code slot lo hi a.1) (hlo : lo ≤ a.1) (hhi : a.1 < hi)
    (h : Onward host code a b) (ha : Holding code slot lo hi L a) :
    Holding code slot lo hi L b := by
  obtain ⟨hleads, hsame⟩ := Onward.leads h
  have hlost (hl : Lost code lo hi a.1) : Holding code slot lo hi L b := .inr (hl.step hleads)
  rcases ha with heq | hl | hout | hout
  · rcases hkept with hw | hl
    · exact .inl ((hsame slot hw).trans heq)
    · exact hlost hl
  · exact hlost hl
  · omega
  · omega

/-- A run through quiet code up to its end leaves the slot alone. -/
theorem Within.kept (hkept : ∀ q, lo ≤ q → q < hi → KeptAt code slot lo hi q) {pc : Nat}
    {m m' : Machine σ} (h : Within host code lo hi (pc, m) (hi, m')) (hlo : lo ≤ hi) :
    m'.locals[slot]? = m.locals[slot]? := by
  have hrun : ∀ b, Within host code lo hi (pc, m) b → Holding code slot lo hi m.locals b := by
    intro b hb
    induction hb with
    | refl => exact .inl rfl
    | tail _ hstep ih =>
        obtain ⟨hle, hlt, honward⟩ := hstep
        exact ih.onward (hkept _ hle hlt) hle hlt honward
  rcases hrun _ h with heq | hl | hout | hout
  · exact heq
  · exact (not_lost_end hl).elim
  · exact absurd hlo (Nat.not_le.mpr hout)
  · exact absurd hout (Nat.lt_irrefl _)

end Machine

namespace Lowering

open Machine
open Simulation (Standing StandingRescue standing_append standing_emit)

/-! ## The handler of a finally body -/

/-- Where the copy of the finally body ends and the object in flight is loaded again. -/
def Rescue.stop (pc : Nat) (r : Rescue Piece) : Nat :=
  pc + 1 + size (layOut r.body)

/-- If a run comes to the handler at `pc` with an object in flight, and through the copy of the
finally body to its end, then that object is thrown. -/
def Rescue.Rethrows (code : Code) (pc : Nat) (r : Rescue Piece) : Prop :=
  ∀ (σ : Type) (host : Host σ) (m m₁ m₂ : Machine σ) (a : Nat) (rest : List Value),
    m.stack = .ref a :: rest → Onward host code (pc, m) (pc + 1, m₁) →
    Within host code (pc + 1) (r.stop pc) (pc + 1, m₁) (r.stop pc, m₂) →
      Onward host code (r.stop pc, m₂) (r.stop pc + 1, m₂.on (.ref a :: m₂.stack)) ∧
        (m₂.on (.ref a :: m₂.stack)).step host code ⟨.throw, none⟩ = .raise (.ref a) m₂

variable {code : Code} {ds : List Directive} {pc : Nat} {around : List Guard} {r : Rescue Piece}

theorem LiesAt.laidRescue (h : LiesAt ds pc r.core) (hlaid : Laid code 0 ds)
    (hst : StandingRescue code around pc r) : LaidRescue code pc r := by
  obtain ⟨front, back, rfl, rfl⟩ := h
  obtain ⟨hload, hthrow⟩ := standing_emit.mp (standing_append.mp hst.body).2
  obtain ⟨⟨-, hcore⟩, -⟩ : (_ ∧ _) ∧ _ := by simpa only [laid_append] using hlaid
  simp only [Rescue.core, laid_cons, laid_append, Directive.laidAt_place, Directive.width_emit,
    Directive.width_place, Nat.zero_add, Nat.add_zero] at hcore
  exact ⟨hst.handler, hst.store, hcore.2.1, hcore.2.2.1, hload.1, (standing_emit.mp hthrow).1.1⟩

/-- What is placed elsewhere is in front of the handler or behind it. -/
theorem LiesAt.away (h : LiesAt ds pc r.core) (hlaid : Laid code 0 ds) {l : Label}
    (hplaced : ∀ q, code.position l = some q → .place l ∈ ds) (hstored : l ≠ r.stored)
    (hbody : .place l ∉ layOut r.body) : Away code (pc + 1) (r.stop pc) l := by
  intro q hq
  have hmem := hplaced q hq
  obtain ⟨front, back, rfl, rfl⟩ := h
  obtain ⟨hlaid', hback⟩ := laid_append.mp hlaid
  obtain ⟨hfront, -⟩ := laid_append.mp hlaid'
  rcases List.mem_append.mp hmem with hmem | hmem
  · rcases List.mem_append.mp hmem with hmem | hmem
    · obtain ⟨k, hk, -, hle⟩ := hfront.position hmem
      obtain rfl := Option.some.inj (hq.symm.trans hk)
      exact .inl (by omega)
    · simp [Rescue.core, hstored, hbody] at hmem
  · obtain ⟨k, hk, hge, -⟩ := hback.position hmem
    obtain rfl := Option.some.inj (hq.symm.trans hk)
    simp only [size_append, Rescue.core, size_cons, size_nil, Directive.width_emit,
      Directive.width_place] at hge
    exact .inr (by rw [Rescue.stop]; omega)

/-- The copy of the finally body leaves the slot of the object in flight alone, all but where a
run does not come to its end. -/
theorem Origin.kept {Q : Stmt → Prop} (h : Origin Q around r) (hQ : ∀ s, Q s → s.Shields)
    (hlies : LiesAt ds pc r.core) (hlaid : Laid code 0 ds)
    (hplaced : ∀ l q, code.position l = some q → .place l ∈ ds)
    (hst : Standing code around (pc + 1) r.body) :
    ∀ q, pc + 1 ≤ q → q < r.stop pc → KeptAt code r.slot (pc + 1) (r.stop pc) q := by
  cases h with
  | @intro T R inner lo hi n n' slot guarded body clauses copy htry hsound hset hcopy =>
      have htidy := keeps_stmts body hsound (hset.fits.mono fun l hl => (hl : l < n)) hcopy
      have hle : n + 2 ≤ n' := htidy.numbered.le
      -- The labels of the handler and its copy are those from `n` up to `n'`.
      have hstored : ∀ l : Nat, l < n ∨ n' ≤ l → l ≠ n + 1 := by omega
      have haway : ∀ l : Nat, l < n ∨ n' ≤ l →
          Away code (pc + 1) (Rescue.stop pc ⟨n, n + 1, slot, copy⟩) l := by
        intro l hl
        refine hlies.away hlaid (hplaced l) (hstored l hl) fun hmem => ?_
        rcases hl with hl | hl
        · have hnone := htidy.before l (by omega)
          rw [List.count_nil, List.count_eq_zero] at hnone
          exact hnone hmem
        · exact absurd (htidy.numbered.lt hmem) (by omega)
      have hspares : ∀ s ∈ Stmt.allParts body, s.Spares slot hi := fun s hs =>
        ⟨hsound.parts s hs, hQ _ htry s hs⟩
      refine quiet_stmts (Q := []) body hspares ⟨?_, ?_, ?_, ?_, ?_⟩ hcopy _ hst (Nat.le_refl _)
      · exact (hset.fits.mono fun l hl => haway l (.inl hl)).opens
      · intro id t ht _
        obtain ⟨hb, hc⟩ := hset.below _ (Assoc.mem_of_lookup ht)
        exact ⟨haway _ (.inl hb), fun l hl => haway l (.inl (hc l hl))⟩
      · intro body hmem
        cases hmem
      · rw [List.length_nil, Nat.zero_add]
        exact hset.length
      · intro g hg
        exact haway _ (hset.guards g (mem_flatten_drop (j := 0) (Nat.zero_le _) hg))

/-- Stored and loaded again with the slot left alone in between, the object is the same. -/
theorem LaidRescue.rethrows (hl : LaidRescue code pc r)
    (hkept : ∀ q, pc + 1 ≤ q → q < r.stop pc → KeptAt code r.slot (pc + 1) (r.stop pc) q) :
    r.Rethrows code pc := by
  intro σ host m m₁ m₂ a rest hstack hentry hrun
  have hsame := hrun.kept hkept (Nat.le_add_right _ _)
  rw [hentry.stored hstack hl.store] at hsame
  exact ⟨onward_load hsame hl.load, rfl⟩

end Lowering

/-! ## Generated code -/

/-- The code of a method body stands at its start, and it places the labels that have a
position. -/
theorem generate_places {maxLabels : Nat} {p : Annotated.Program} {code : Code}
    (h : generate maxLabels p = .ok code) :
    ∃ emission, program p 0 = .ok emission ∧ Simulation.Standing code [] 0 emission.pieces ∧
      Assembled (layOut emission.pieces) code ∧
      ∀ l q, code.position l = some q → .place l ∈ layOut emission.pieces := by
  obtain ⟨-, ps, n', hps, hst⟩ := Simulation.standing_program h
  obtain ⟨ps', _, hps', hassemble⟩ := generate_assembles h
  obtain rfl : ps = ps' := congrArg Emission.pieces (Except.ok.inj (hps.symm.trans hps'))
  exact ⟨⟨(), ps, n'⟩, hps, hst, (assemble_ok hassemble).1, fun l q => assemble_placed hassemble⟩

/-- A row that holds for every class leads to the handler of a finally body. -/
theorem Assembled.rescue_of_row {ps : List Piece} {code : Code} (h : Assembled (layOut ps) code)
    {depth : Nat} (hn : Nested depth ps) {row : Handler} (hrow : row ∈ code.handlers)
    (hany : row.catchType = none) :
    ∃ x ∈ rescues [] ps, code.position x.2.handler = some row.handler := by
  rw [h.handlers] at hrow
  obtain ⟨pending, hpending, rfl⟩ := List.mem_map.mp (List.mem_of_mem_filter hrow)
  obtain ⟨d, hd, hdrow⟩ := List.mem_filterMap.mp hpending
  obtain ⟨-, -, q, hq⟩ := h.rows pending hpending
  cases d with
  | handler start stop l catchType =>
      obtain rfl := Option.some.inj hdrow
      obtain rfl : catchType = none := hany
      obtain ⟨x, hx, rfl⟩ := Lowering.rescue_of_row [] ps hn hd
      exact ⟨x, hx, by rw [hq, Code.resolved, Code.offset_eq hq]⟩
  | create _ | place _ | emit _ | table _ _ _ _ | lookup _ _ _ => cases hdrow

/-- The handler is that of a try among the statements and their parts, and what it runs is code
of the finally body of that try. -/
def Lowering.Rescue.ComesOf (body : List Stmt) (r : Rescue Piece) : Prop :=
  ∃ guarded clauses last T R n n',
    Stmt.tryCatch guarded clauses (some ⟨r.slot, last⟩) ∈ Stmt.allParts body ∧
      (stmts T R last).Yields n () r.body n'

theorem Lowering.Origin.comesOf {body : List Stmt} {around : List Guard} {r : Rescue Piece}
    (h : Origin (· ∈ Stmt.allParts body) around r) : r.ComesOf body := by
  cases h with
  | intro htry _ _ hcopy => exact ⟨_, _, _, _, _, _, _, htry, hcopy⟩

/-- In the tree of a checked body nothing in a finally body writes the slot of the object in
flight. In its code every row that holds for every class leads to the handler of a finally body.
A run that comes to such a handler with an object, and to the end of the finally body, throws
that object. -/
theorem in_flight_survives {settings : Settings} {p : Source.Program} {h : Annotated.Program}
    (hcheck : check settings p = .ok h) {maxLabels : Nat} {code : Code}
    (hgen : generate maxLabels h = .ok code) :
    (∀ s ∈ Stmt.allParts h.body, s.Shields) ∧
      ∃ emission, program h 0 = .ok emission ∧
        (∀ row ∈ code.handlers, row.catchType = none →
          ∃ x ∈ rescues [] emission.pieces, code.position x.2.handler = some row.handler) ∧
        ∀ x ∈ rescues [] emission.pieces, x.2.ComesOf h.body ∧
          ∃ pc, LaidRescue code pc x.2 ∧ x.2.Rethrows code pc := by
  have hshields := check_shields hcheck
  obtain ⟨hi, hsound⟩ := check_sound hcheck
  obtain ⟨⟨_, ps, n'⟩, hps, hst, hassembled, hplaced⟩ := generate_places hgen
  obtain ⟨body, hbody, rfl⟩ := yields_program.mp hps
  have hset : Surroundings (· ∈ Stmt.allParts h.body) [] [] [] none 0 hi 0 n' := by
    refine ⟨.initially, ?_, ?_, Nat.le_refl _, ?_⟩ <;> simp
  have htraced : Traced (· ∈ Stmt.allParts h.body) [] (body ++ [.give (.emit ⟨.halt, none⟩)]) :=
    (traced_stmts h.body hsound (fun _ ht => ht) hset hbody).append (traced_give _)
  refine ⟨hshields, _, hps, fun row hrow hany => ?_, fun x hx => ?_⟩
  · exact hassembled.rescue_of_row (nested_program hps) hrow hany
  · obtain ⟨pc, hlies, hstanding⟩ := stands_rescues [] _ hst x hx
    rw [Nat.zero_add] at hstanding
    have hlaid := hlies.laidRescue hassembled.laid hstanding
    refine ⟨(htraced x hx).comesOf, pc, hlaid, hlaid.rethrows ?_⟩
    exact (htraced x hx).kept hshields hlies hassembled.laid hplaced
      (Simulation.standing_append.mp hstanding.body).1

/-- A break out of an inner finally body passes the outer one, whose local has the slot of the
inner object in flight. In the inner body another object is thrown and caught. -/
def breakOut : Source.Program :=
  ⟨[.localDecl 1 "leave" .boolean (some (.literal 1 (.boolean false))),
    .whileLoop 2 (.literal 2 (.boolean true)) (.tryCatch 3
      ⟨3, [.localDecl 3 "n" .int none,
        .tryCatch 4 ⟨4, [.throw 4 (.new 4 "Fault")]⟩ []
          (some ⟨5, [.ifElse 5 (.var 5 "leave") (.breakJump 5) none,
            .tryCatch 6 ⟨6, [.throw 6 (.new 6 "Fault")]⟩
              [⟨7, "Fault", "f", ⟨7, [.expression 7
                (.assignment 7 (.var 7 "n") (.literal 7 (.int 2)))]⟩⟩]
              (some ⟨8, []⟩)]⟩)]⟩
      [] (some ⟨9, [.localDecl 9 "y" .int (some (.literal 9 (.int 4)))]⟩))]⟩

/-- A copy of the inner finally body, and what comes behind it. -/
def breakOutCopy (stay done : Label) (rest : List Instruction) : List Instruction :=
  ⟨.load, some (.slot 0)⟩ :: ⟨.ifEq, some (.label stay)⟩ :: ⟨.push, some (.int 4)⟩ ::
  ⟨.store, some (.slot 2)⟩ :: ⟨.goto, some (.label 2)⟩ :: ⟨.new, some (.name "Fault")⟩ ::
  ⟨.throw, none⟩ :: ⟨.goto, some (.label done)⟩ :: ⟨.store, some (.slot 3)⟩ ::
  ⟨.push, some (.int 2)⟩ :: ⟨.store, some (.slot 1)⟩ :: ⟨.goto, some (.label done)⟩ ::
  ⟨.store, some (.slot 3)⟩ :: ⟨.load, some (.slot 3)⟩ :: ⟨.throw, none⟩ :: rest

/-- The code of the body. -/
def breakOutCode : Code where
  instructions := List.toArray (⟨.push, some (.int 0)⟩ :: ⟨.store, some (.slot 0)⟩ ::
    ⟨.new, some (.name "Fault")⟩ :: ⟨.throw, none⟩ :: breakOutCopy 10 15
      (⟨.goto, some (.label 9)⟩ :: ⟨.store, some (.slot 2)⟩ :: breakOutCopy 22 27
        [⟨.load, some (.slot 2)⟩, ⟨.throw, none⟩, ⟨.push, some (.int 4)⟩, ⟨.store, some (.slot 2)⟩,
          ⟨.goto, some (.label 6)⟩, ⟨.store, some (.slot 1)⟩, ⟨.push, some (.int 4)⟩,
          ⟨.store, some (.slot 2)⟩, ⟨.load, some (.slot 1)⟩, ⟨.throw, none⟩,
          ⟨.goto, some (.label 0)⟩, ⟨.halt, none⟩]))
  labels := #[some 2, some 47, some 47, none, some 2, some 38, some 46, some 2, some 4, some 38,
    some 9, some 6, some 8, some 9, some 11, some 19, some 12, some 15, some 16, some 17, some 20,
    some 21, some 26, some 23, some 25, some 26, some 28, some 36, some 29, some 32, some 33,
    some 34, some 41, some 42]
  handlers := [⟨9, 11, 12, some "Fault"⟩, ⟨9, 11, 16, none⟩, ⟨12, 15, 16, none⟩, ⟨16, 17, 16, none⟩,
    ⟨26, 28, 29, some "Fault"⟩, ⟨26, 28, 33, none⟩, ⟨29, 32, 33, none⟩, ⟨33, 34, 33, none⟩,
    ⟨2, 4, 20, none⟩, ⟨20, 21, 20, none⟩, ⟨2, 6, 41, none⟩, ⟨8, 23, 41, none⟩, ⟨25, 38, 41, none⟩,
    ⟨41, 42, 41, none⟩]
  maxLocals := 4

/-- The handler, the slot and the size of the body of each handler in the pieces. -/
def rescueSizes (ps : List Piece) : List (Nat × Nat × Nat) :=
  (rescues [] ps).map fun x => (x.2.handler, x.2.slot, size (layOut x.2.body))

theorem breakOut_compiles : ∃ h emission, check {} breakOut = .ok h ∧
    generate 4294967295 h = .ok breakOutCode ∧ program h 0 = .ok emission ∧
      rescueSizes emission.pieces = [(18, 3, 0), (20, 2, 15), (30, 3, 0), (32, 1, 2)] := by
  have hall : ((check {} breakOut).toOption.bind fun h =>
      (program h 0).toOption.bind fun emission =>
        (generate 4294967295 h).toOption.map fun code => (code, rescueSizes emission.pieces)) =
      some (breakOutCode, [(18, 3, 0), (20, 2, 15), (30, 3, 0), (32, 1, 2)]) := by
    decide +kernel
  cases hcheck : check {} breakOut with
  | error e => simp [hcheck, Except.toOption] at hall
  | ok h =>
      rw [hcheck, Except.toOption, Option.bind_some] at hall
      cases hps : program h 0 with
      | error e => simp [hps, Except.toOption] at hall
      | ok emission =>
          rw [hps, Except.toOption, Option.bind_some] at hall
          cases hcode : generate 4294967295 h with
          | error e => simp [hcode, Except.toOption] at hall
          | ok code =>
              rw [hcode] at hall
              obtain ⟨rfl, hsizes⟩ := Prod.mk.inj (Option.some.inj hall)
              exact ⟨h, emission, rfl, hcode, hps, hsizes⟩

/-- Before the run. -/
def breakOutStart : Machine Script :=
  Machine.ready { host := [] } breakOutCode

/-- The machine at the handler of the inner finally body, with the object in flight. -/
def breakOutEntry : Machine Script :=
  { breakOutStart with
    stack := [.ref 0], locals := #[.int 0, .null, .null, .null], heap := #[⟨"Fault", []⟩] }

/-- The machine at the end of the inner finally body. -/
def breakOutExit : Machine Script :=
  { breakOutStart with
    locals := #[.int 0, .int 2, .ref 0, .ref 1], heap := #[⟨"Fault", []⟩, ⟨"Fault", []⟩] }

open Machine

/-- The inner body throws and catches another object, and then the first one is thrown again. The
copy of the outer body, at 23 and 24, stands in the way but is not come to. -/
theorem in_flight_survives_breakOut :
    ∃ h emission m₁, check {} breakOut = .ok h ∧ generate 4294967295 h = .ok breakOutCode ∧
      program h 0 = .ok emission ∧
      Reaches Script.host breakOutCode (0, breakOutStart) (20, breakOutEntry) ∧
      Onward Script.host breakOutCode (20, breakOutEntry) (21, m₁) ∧
      Within Script.host breakOutCode 21 36 (21, m₁) (36, breakOutExit) ∧
      breakOutCode.instructions[24]? = some ⟨.store, some (.slot 2)⟩ ∧
      ∃ x ∈ rescues [] emission.pieces, LaidRescue breakOutCode 20 x.2 ∧ x.2.slot = 2 ∧
        x.2.stop 20 = 36 ∧
        Onward Script.host breakOutCode (36, breakOutExit) (37, breakOutExit.on [.ref 0]) ∧
        (breakOutExit.on [.ref 0]).step Script.host breakOutCode ⟨.throw, none⟩ =
          .raise (.ref 0) breakOutExit := by
  obtain ⟨h, emission, hcheck, hgen, hps, hsizes⟩ := breakOut_compiles
  have hstart : Reaches Script.host breakOutCode (0, breakOutStart) (20, breakOutEntry) :=
    .head (b := (1, _)) rfl (.head (b := (2, _)) rfl (.head (b := (3, _)) rfl (.single rfl)))
  obtain ⟨m₁, hentry, hrun⟩ : ∃ m₁, Onward Script.host breakOutCode (20, breakOutEntry) (21, m₁) ∧
      Within Script.host breakOutCode 21 36 (21, m₁) (36, breakOutExit) := by
    refine ⟨_, rfl, ?_⟩
    refine .head (b := (22, _)) ⟨by decide, by decide, rfl⟩ ?_
    refine .head (b := (26, _)) ⟨by decide, by decide, rfl⟩ ?_
    refine .head (b := (27, _)) ⟨by decide, by decide, rfl⟩ ?_
    refine .head (b := (29, _)) ⟨by decide, by decide, rfl⟩ ?_
    refine .head (b := (30, _)) ⟨by decide, by decide, rfl⟩ ?_
    refine .head (b := (31, _)) ⟨by decide, by decide, rfl⟩ ?_
    refine .head (b := (32, _)) ⟨by decide, by decide, rfl⟩ ?_
    exact .single ⟨by decide, by decide, rfl⟩
  obtain ⟨-, emission', hps', hrows, hall⟩ := in_flight_survives hcheck hgen
  obtain rfl := Except.ok.inj (hps.symm.trans hps')
  obtain ⟨x, hx, hposition⟩ := hrows ⟨2, 4, 20, none⟩ (by decide) rfl
  obtain ⟨-, pc, hlaid, hrethrows⟩ := hall x hx
  obtain rfl : pc = 20 := Option.some.inj (hlaid.handler.symm.trans hposition)
  have hmem : (x.2.handler, x.2.slot, size (layOut x.2.body)) ∈ rescueSizes emission.pieces :=
    List.mem_map_of_mem hx
  obtain ⟨hslot, hsize⟩ : x.2.slot = 2 ∧ size (layOut x.2.body) = 15 := by
    simp only [hsizes, List.mem_cons, Prod.mk.injEq, List.not_mem_nil, or_false] at hmem
    rcases hmem with ⟨hl, -⟩ | ⟨-, hrest⟩ | ⟨hl, -⟩ | ⟨hl, -⟩
    · rw [hl] at hposition
      cases hposition
    · exact hrest
    · rw [hl] at hposition
      cases hposition
    · rw [hl] at hposition
      cases hposition
  have hstop : x.2.stop 20 = 36 := by rw [Rescue.stop, hsize]
  obtain ⟨hload, hthrow⟩ := hrethrows Script Script.host breakOutEntry m₁ breakOutExit 0 [] rfl
    hentry (by rw [hstop]; exact hrun)
  rw [hstop] at hload
  exact ⟨h, emission, m₁, hcheck, hgen, hps, hstart, hentry, hrun, rfl, x, hx, hlaid, hslot, hstop,
    hload, hthrow⟩

end MethodCompiler
