import MethodCompiler.Proofs.PointViews

/-!
# Views in the code of statements

The code of a statement starts and ends with an empty stack. Its views were read off the tree
with an outlook, and code is generated for it among targets and in open regions: `Suits` says
that these belong together. Where a jump to a construct comes out, nothing may be known that is
not known at the jump and at each try it leaves. And wherever a finally body is still to be
run, its views are those it has at its own try, because a jump into the middle of nowhere else
has to find them.

Each form of statement has a lemma of its own, which says how the views of its parts make up
the views of the whole. The induction over statements only puts them together.
-/

namespace MethodCompiler

namespace Lowering

open Annotated (Expr Stmt Catch Copy Outlook)
open Gen

/-! ## Regions and what is known in them -/

/-- A region around a statement: what it catches, the views in a copy of its finally body if
there is one, and what was known of the locals at its try. -/
structure OpenTry where
  guard : Guard
  views : Option (List View)
  locals : Locals

/-- Its finally body as it is copied. -/
def OpenTry.copy (o : OpenTry) : Option Copy :=
  o.views.map (⟨o.locals, ·⟩)

/-- What was known of the locals at a try is known inside it. -/
def KnownWithin : Locals → List OpenTry → Prop
  | _, [] => True
  | L, o :: Os => Locals.Below o.locals L ∧ KnownWithin o.locals Os

/-- The tries that a jump into `depth` regions leaves. -/
def leaving (depth : Nat) (Os : List OpenTry) : List OpenTry :=
  Os.take (Os.length - depth)

section Around

variable {T : Targets} {want want' : Label → View → Prop} {O : Outlook} {Os : List OpenTry}
  {o : OpenTry} {L L' Lt : Locals} {f : Frame} {t t' : Target} {id lo hi m : Nat}
  {inner : Option Frame} {R : List Region} {code : Code} {sig : Signature}

theorem KnownWithin.mono (h : KnownWithin L Os) (hL : Locals.Below L L') : KnownWithin L' Os := by
  cases Os with
  | nil => trivial
  | cons o Os => exact ⟨h.1.trans hL, h.2⟩

theorem KnownWithin.below (h : KnownWithin L Os) (ho : o ∈ Os) : Locals.Below o.locals L := by
  induction Os generalizing L with
  | nil => cases ho
  | cons o' Os ih =>
      obtain rfl | ho := List.mem_cons.mp ho
      · exact h.1
      · exact (ih h.2 ho).trans h.1

theorem leaving_cons {depth : Nat} (h : depth ≤ Os.length) :
    leaving depth (o :: Os) = o :: leaving depth Os := by
  rw [leaving, List.length_cons, Nat.succ_sub h, List.take_succ_cons, leaving]

theorem leaving_eq_nil {depth : Nat} (h : Os.length ≤ depth) : leaving depth Os = [] := by
  rw [leaving, Nat.sub_eq_zero_of_le h, List.take_zero]

/-- A jump to the construct `f` comes out where `Lt` is known. -/
structure Lands (T : Targets) (want : Label → View → Prop) (O : Outlook) (Os : List OpenTry)
    (L : Locals) (f : Frame) (t : Target) (Lt : Locals) : Prop where
  target : T.lookup f.id = some t
  landing : O.landings.lookup f.id = some t.depth
  depth : t.depth ≤ Os.length
  below : Locals.Below Lt L
  left : ∀ o ∈ leaving t.depth Os, Locals.Below Lt o.locals
  breaks : f.hasBreak → Wants want t.breakLabel ⟨Lt, []⟩
  continues : f.hasContinue → ∃ l, t.continueLabel = some l ∧ Wants want l ⟨Lt, []⟩

namespace Lands

theorem mono (h : Lands T want O Os L f t Lt) (hL : Locals.Below L L') :
    Lands T want O Os L' f t Lt :=
  { h with below := h.below.trans hL }

theorem imp (h : Lands T want O Os L f t Lt) (hwant : ∀ l v, want l v → want' l v) :
    Lands T want' O Os L f t Lt where
  target := h.target
  landing := h.landing
  depth := h.depth
  below := h.below
  left := h.left
  breaks := fun hb => (h.breaks hb).imp hwant
  continues := by
    intro hc
    obtain ⟨l, hl, hw⟩ := h.continues hc
    exact ⟨l, hl, hw.imp hwant⟩

/-- Another construct is entered. -/
theorem beside (h : Lands T want O Os L f t Lt) (hno : T.lookup id = none) :
    Lands ((id, t') :: T) want O Os L f t Lt := by
  have hne : f.id ≠ id := by
    rintro rfl
    rw [h.target] at hno
    cases hno
  exact { h with target := by rw [Targets.lookup_enter_ne hne, h.target] }

/-- A try is entered. -/
theorem within (h : Lands T want O Os L f t Lt) (guard : Guard) (views : Option (List View))
    (copy : Option Copy) : Lands T want (O.within copy) (⟨guard, views, L⟩ :: Os) L f t Lt where
  target := h.target
  landing := h.landing
  depth := Nat.le_succ_of_le h.depth
  below := h.below
  left := by
    intro o ho
    rw [leaving_cons h.depth] at ho
    obtain rfl | ho := List.mem_cons.mp ho
    · exact h.below
    · exact h.left o ho
  breaks := h.breaks
  continues := h.continues

end Lands

/-- Targets have been added whose constructs are numbered below `lo`. -/
inductive Targets.Grows (T : Targets) (lo : Nat) : Targets → Prop
  | refl : Grows T lo T
  | enter {T' : Targets} {id : Nat} {t : Target} (h : Grows T lo T') (hno : T'.lookup id = none)
      (hid : id < lo) : Grows T lo ((id, t) :: T')

theorem Targets.Grows.mono {T' : Targets} (h : T.Grows lo T') (hlo : lo ≤ m) : T.Grows m T' := by
  induction h with
  | refl => exact .refl
  | enter _ hno hid ih => exact .enter ih hno (by omega)

theorem Targets.Grows.head {T' : Targets} (hno : T.lookup id = none) (hid : id < lo)
    (h : Grows ((id, t) :: T) lo T') : Grows T lo T' := by
  induction h with
  | refl => exact .enter .refl hno hid
  | enter _ hno hid ih => exact .enter ih hno hid

/-- The finally bodies of the regions have the views of their copies, and still have them after
targets numbered below `hi` have been added. -/
inductive Waiting (code : Code) (sig : Signature) (T : Targets)
    (want : Label → View → Prop) (hi : Nat) : List Region → List OpenTry → Prop
  | nil : Waiting code sig T want hi [] []
  | plain {R : List Region} {Os : List OpenTry} {guard : Guard} {L : Locals}
      (h : Waiting code sig T want hi R Os) :
      Waiting code sig T want hi (none :: R) (⟨guard, none, L⟩ :: Os)
  | withFinally {body : List Stmt} {R : List Region} {Os : List OpenTry} {guard : Guard}
      {copy : List View} {L : Locals}
      (hcopy : ∀ T', T.Grows hi T' → (stmts T' R body).Carries code sig (Os.map (·.guard)) want
        ⟨L, []⟩ copy ⟨L, []⟩)
      (h : Waiting code sig T want hi R Os) :
      Waiting code sig T want hi (some body :: R) (⟨guard, some copy, L⟩ :: Os)

namespace Waiting

theorem length_eq (h : Waiting code sig T want hi R Os) : Os.length = R.length := by
  induction h with
  | nil => rfl
  | plain _ ih | withFinally _ _ ih => rw [List.length_cons, List.length_cons, ih]

theorem le (h : Waiting code sig T want hi R Os) (hm : m ≤ hi) :
    Waiting code sig T want m R Os := by
  induction h with
  | nil => exact .nil
  | plain _ ih => exact .plain ih
  | withFinally hcopy _ ih => exact .withFinally (fun T' hT => hcopy T' (hT.mono hm)) ih

theorem imp (h : Waiting code sig T want hi R Os) (hwant : ∀ l v, want l v → want' l v) :
    Waiting code sig T want' hi R Os := by
  induction h with
  | nil => exact .nil
  | plain _ ih => exact .plain ih
  | withFinally hcopy _ ih => exact .withFinally (fun T' hT => (hcopy T' hT).imp hwant) ih

theorem beside (h : Waiting code sig T want hi R Os) (hno : T.lookup id = none)
    (hid : id < hi) : Waiting code sig ((id, t) :: T) want hi R Os := by
  induction h with
  | nil => exact .nil
  | plain _ ih => exact .plain ih
  | withFinally hcopy _ ih => exact .withFinally (fun T' hT => hcopy T' (hT.head hno hid)) ih

end Waiting

/-- A statement right inside `inner`, whose constructs are numbered from `lo` up to `hi`, is
generated where `L` is known of the locals, and its views are read off with the outlook `O`. -/
structure Suits (code : Code) (sig : Signature) (T : Targets) (want : Label → View → Prop)
    (R : List Region) (O : Outlook) (Os : List OpenTry) (L : Locals) (inner : Option Frame)
    (lo hi : Nat) : Prop where
  free : T.Free lo hi
  serves : ∀ f ∈ inner, ∃ t Lt, Lands T want O Os L f t Lt
  copies : O.copies = Os.map (·.copy)
  nested : KnownWithin L Os
  guards : ∀ o ∈ Os, ∀ g ∈ o.guard, Wants want g.2 ⟨o.locals, [.reference]⟩
  waiting : Waiting code sig T want hi R Os

namespace Suits

theorem initially : Suits code sig [] want [] {} [] L none lo hi where
  free := fun _ _ _ => rfl
  serves := by simp
  copies := rfl
  nested := trivial
  guards := by simp
  waiting := .nil

theorem guarded (h : Suits code sig T want R O Os L inner lo hi) :
    Guarded want (Os.map (·.guard)) L := by
  intro g hg
  obtain ⟨_, hguard, hg⟩ := List.mem_flatten.mp hg
  obtain ⟨o, ho, rfl⟩ := List.mem_map.mp hguard
  exact (h.guards o ho g hg).mono ⟨h.nested.below ho, rfl⟩

theorem part (h : Suits code sig T want R O Os L inner lo hi) {lo' hi' : Nat} (hlo : lo ≤ lo')
    (hhi : hi' ≤ hi) : Suits code sig T want R O Os L inner lo' hi' :=
  { h with free := h.free.mono hlo hhi, waiting := h.waiting.le hhi }

/-- More is known of the locals. -/
theorem mono (h : Suits code sig T want R O Os L inner lo hi) (hL : Locals.Below L L') :
    Suits code sig T want R O Os L' inner lo hi where
  free := h.free
  serves := by
    intro f hf
    obtain ⟨t, Lt, hlands⟩ := h.serves f hf
    exact ⟨t, Lt, hlands.mono hL⟩
  copies := h.copies
  nested := h.nested.mono hL
  guards := h.guards
  waiting := h.waiting

theorem imp (h : Suits code sig T want R O Os L inner lo hi) (hwant : ∀ l v, want l v → want' l v) :
    Suits code sig T want' R O Os L inner lo hi where
  free := h.free
  serves := by
    intro f hf
    obtain ⟨t, Lt, hlands⟩ := h.serves f hf
    exact ⟨t, Lt, hlands.imp hwant⟩
  copies := h.copies
  nested := h.nested
  guards := fun o ho g hg => (h.guards o ho g hg).imp hwant
  waiting := h.waiting.imp hwant

theorem also (h : Suits code sig T want R O Os L inner lo hi) (ls : List Nat) (v : View) :
    Suits code sig T (AlsoAt want ls v) R O Os L inner lo hi :=
  h.imp fun _ _ => .inl

/-- What stands outside the construct but is generated after it was entered. -/
theorem beside (h : Suits code sig T want R O Os L inner lo hi) (hlo : lo ≤ id) (hhi : id < hi) :
    Suits code sig ((id, t) :: T) want R O Os L inner lo id where
  free := (h.free.mono (Nat.le_refl _) (by omega)).enter (.inr (Nat.le_refl _))
  serves := by
    intro f hf
    obtain ⟨t', Lt, hlands⟩ := h.serves f hf
    exact ⟨t', Lt, hlands.beside (h.free id hlo hhi)⟩
  copies := h.copies
  nested := h.nested
  guards := h.guards
  waiting := (h.waiting.beside (h.free id hlo hhi) hhi).le (by omega)

/-- What is generated again later, among more targets. -/
theorem grows (h : Suits code sig T want R O Os L inner lo hi) (hle : lo ≤ hi) {T' : Targets}
    (hT : T.Grows lo T') : Suits code sig T' want R O Os L inner lo hi := by
  induction hT with
  | refl => exact h
  | enter _ hno hid ih =>
      refine ⟨ih.free.enter (.inl hid), fun f hf => ?_, ih.copies, ih.nested, ih.guards,
        ih.waiting.beside hno (by omega)⟩
      obtain ⟨t, Lt, hlands⟩ := ih.serves f hf
      exact ⟨t, Lt, hlands.beside hno⟩

/-- The body of the construct `f`, which is entered. -/
theorem enter (h : Suits code sig T want R O Os L inner lo hi) (hid : f.id = id) (hlo : lo ≤ id)
    (hhi : id < hi) (hdepth : t.depth = R.length)
    (hb : f.hasBreak → Wants want t.breakLabel ⟨L, []⟩)
    (hc : f.hasContinue → ∃ l, t.continueLabel = some l ∧ Wants want l ⟨L, []⟩) :
    Suits code sig ((id, t) :: T) want R (O.enter id) Os L (some f) (id + 1) hi where
  free := (h.free.mono (by omega) (Nat.le_refl _)).enter (.inl (by omega))
  serves := by
    intro f' hf
    obtain rfl := Option.some.inj hf
    have hcopies : O.copies.length = t.depth := by
      rw [h.copies, List.length_map, h.waiting.length_eq, hdepth]
    have hdepth' : t.depth = Os.length := by rw [hdepth, h.waiting.length_eq]
    refine ⟨t, L, ?_, ?_, Nat.le_of_eq hdepth', .refl L, ?_, hb, hc⟩
    · rw [hid]
      exact Targets.lookup_enter
    · rw [hid, Outlook.enter, List.lookup_cons, beq_self_eq_true, hcopies]
    · rw [leaving_eq_nil (Nat.le_of_eq hdepth'.symm)]
      simp
  copies := h.copies
  nested := h.nested
  guards := h.guards
  waiting := h.waiting.beside (h.free id hlo hhi) hhi

/-- The block of a try without a finally body. -/
theorem inTry (h : Suits code sig T want R O Os L inner lo hi) (guard : Guard)
    (hguard : ∀ g ∈ guard, Wants want g.2 ⟨L, [.reference]⟩) :
    Suits code sig T want (none :: R) (O.within none) (⟨guard, none, L⟩ :: Os) L inner lo hi where
  free := h.free
  serves := by
    intro f hf
    obtain ⟨t, Lt, hlands⟩ := h.serves f hf
    exact ⟨t, Lt, hlands.within guard _ _⟩
  copies := congrArg _ h.copies
  nested := ⟨.refl L, h.nested⟩
  guards := List.forall_mem_cons.mpr ⟨hguard, h.guards⟩
  waiting := .plain h.waiting

/-- The block of a try with a finally body, and the bodies of its catch clauses. -/
theorem inTryFinally (h : Suits code sig T want R O Os L inner lo hi) (guard : Guard)
    (hguard : ∀ g ∈ guard, Wants want g.2 ⟨L, [.reference]⟩) {body : List Stmt}
    {copy : List View} (hm : m ≤ hi)
    (hcopy : ∀ T', T.Grows m T' → (stmts T' R body).Carries code sig (Os.map (·.guard)) want
      ⟨L, []⟩ copy ⟨L, []⟩) :
    Suits code sig T want (some body :: R) (O.within (some ⟨L, copy⟩)) (⟨guard, some copy, L⟩ :: Os)
      L inner lo m where
  free := h.free.mono (Nat.le_refl _) hm
  serves := by
    intro f hf
    obtain ⟨t, Lt, hlands⟩ := h.serves f hf
    exact ⟨t, Lt, hlands.within guard _ _⟩
  copies := congrArg _ h.copies
  nested := ⟨.refl L, h.nested⟩
  guards := List.forall_mem_cons.mpr ⟨hguard, h.guards⟩
  waiting := .withFinally hcopy (h.waiting.le hm)

/-- The body of a loop may jump to the labels of the loop that are placed. -/
theorem enterLoop (h : Suits code sig T want R O Os L inner lo hi) {j : Annotated.Jumps}
    (kind : ConstructKind) (hlo : lo ≤ j.id) (hhi : j.id < hi)
    (start breakLabel continueLabel : Nat) (rest : List Nat) :
    Suits code sig ((j.id, ⟨breakLabel, some continueLabel, R.length⟩) :: T)
      (AlsoAt want (loopLabels j start breakLabel continueLabel rest) ⟨L, []⟩) R (O.enter j.id)
      Os L (some (j.frame kind)) (j.id + 1) hi := by
  refine (h.also _ _).enter rfl hlo hhi rfl (fun hb => .own ?_) fun hc => ⟨_, rfl, .own ?_⟩
  · exact mem_loopLabels.mpr (.inr (.inr (.inl ⟨hb, rfl⟩)))
  · exact mem_loopLabels.mpr (.inr (.inl ⟨hc, rfl⟩))

end Suits

end Around

/-! ## Forms -/

section Forms

variable {code : Code} {sig : Signature} {around : List Guard}
  {want : Label → View → Prop} {u v : View} {L : Locals} {n k m : Nat} {j : Annotated.Jumps}
  {test body other first last key : List Piece} {us vs ws xs : List View}

theorem flows_ifElse (htest : Flows code sig around [] (AlsoAt want [n, m] v) v test us v)
    (hbody : Flows code sig around [] (AlsoAt want [n, m] v) v body vs v)
    (hother : Flows code sig around [] (AlsoAt want [n, m] v) v other ws v) :
    Flows code sig around [] want v (ifElsePieces n m test body other) (us ++ vs ++ [v] ++ ws)
      v := by
  have hdone : Wants (AlsoAt want [n, m] v) m v := .own (by simp)
  have hall := (((((Flows.create n).append htest).append hbody).append ((Flows.create m).append
    ((Flows.goto hdone v).append (Flows.place n)))).append hother).append (Flows.place m)
  simp only [List.nil_append, List.append_nil] at hall
  refine Flows.statement (Threads.close hall ?_)
  rintro l x (hw | ⟨hl, rfl⟩)
  · exact .inl hw
  · exact .inr (by simpa using hl)

/-- Nothing is known at the labels of a loop that is not known at its start. -/
theorem flows_forLoop (hfirst : Flows code sig around [] want u first us v)
    (htest : Flows code sig around []
      (AlsoAt want (loopLabels j k (k + 2) (k + 3) [k + 1]) v) v test vs v)
    (hbody : Flows code sig around []
      (AlsoAt want (loopLabels j k (k + 2) (k + 3) [k + 1]) v) v body ws v)
    (hlast : Flows code sig around []
      (AlsoAt want (loopLabels j k (k + 2) (k + 3) [k + 1]) v) v last xs v) :
    Flows code sig around [] want u (forPieces j k first test body last)
      (us ++ vs ++ ws ++ xs ++ [v]) v := by
  have hall := (Flows.creates k 4).append (((((((Flows.place k).append (htest.append hbody)).append
    (Flows.placeIf j.hasContinue (k + 3))).append hlast).append
    (Flows.goto (.own (start_mem_loopLabels j k (k + 2) (k + 3) [k + 1])) v)).append
    (Flows.placeIf j.hasBreak (k + 2))).append (Flows.place (k + 1)))
  have hloop : Flows code sig around [] want v (created k 4 ++ _) _ v := Threads.close hall (by
    rintro l x (hw | ⟨hl, rfl⟩)
    · exact .inl hw
    · refine .inr ?_
      have := mem_loopLabels.mp hl
      simpa [List.mem_ite_nil_right] using this)
  refine Flows.statement ?_
  simpa using hfirst.append hloop

theorem flows_doLoop
    (hbody : Flows code sig around []
      (AlsoAt want (loopLabels j n (n + 1) (n + 2) []) v) v body us v)
    (htest : Flows code sig around []
      (AlsoAt want (loopLabels j n (n + 1) (n + 2) []) v) v test vs v) :
    Flows code sig around [] want v (doPieces j n body test) (us ++ vs) v := by
  have hall := (((((Flows.creates n 3).append (Flows.place n)).append hbody).append
    (Flows.placeIf j.hasContinue (n + 2))).append htest).append
    (Flows.placeIf j.hasBreak (n + 1))
  simp only [List.nil_append, List.append_nil] at hall
  refine Flows.statement (Threads.close hall ?_)
  rintro l x (hw | ⟨hl, rfl⟩)
  · exact .inl hw
  · refine .inr ?_
    have := mem_loopLabels.mp hl
    simpa [List.mem_ite_nil_right] using this

/-- A switch takes its key off the stack and jumps. -/
theorem Flows.dispatch {d : Dispatch} {default : Nat} {cases : List CaseTarget}
    (hdefault : Wants want default ⟨L, []⟩)
    (hcases : ∀ l ∈ cases.map (·.label), Wants want l ⟨L, []⟩) (hg : Guarded want around L)
    (v' : View) : Flows code sig around [] want ⟨L, [.int]⟩
      [.give (dispatchDirective d default cases)] [⟨L, [.int]⟩] v' := by
  have hrefs : ∀ l ∈ (dispatchDirective d default cases).refs, Wants want l ⟨L, []⟩ := by
    intro l hl
    obtain rfl | hl := refs_dispatchDirective hl
    · exact hdefault
    · exact hcases l hl
  rw [dispatchDirective] at hrefs ⊢
  split at hrefs
  · refine Threads.instruction rfl Instruction.leads_tableSwitch (declared_of_ne (by simp)) ?_
      (fun l hl => hrefs l (Directive.mem_refs_of_instruction rfl hl)) fun _ => hg
    rintro w ⟨⟩
  · refine Threads.instruction rfl Instruction.leads_lookupSwitch (declared_of_ne (by simp)) ?_
      (fun l hl => hrefs l (Directive.mem_refs_of_instruction rfl hl)) fun _ => hg
    rintro w ⟨⟩

theorem flows_switch {d : Dispatch} {groups : Nat} {hasBreak : Bool} (hd : d.Sound groups)
    (hkey : Flows code sig around [] want ⟨L, []⟩ key us ⟨L, [.int]⟩)
    (hbody : Flows code sig around (((List.range' 0 groups).flatMap
      (labelsOfGroup d (k + 1) (numbered (k + 2) d.cases))).map (·, ⟨L, []⟩))
      (AlsoAt want (switchLabels d k groups hasBreak) ⟨L, []⟩) ⟨L, []⟩ body vs ⟨L, []⟩)
    (hg : Guarded want around L) :
    Flows code sig around [] want ⟨L, []⟩ (switchPieces d hasBreak k key body)
      (us ++ [⟨L, [.int]⟩] ++ vs) ⟨L, []⟩ := by
  have hown : ∀ l : Nat, k + 1 ≤ l → l < k + (2 + d.cases.length) →
      Wants (AlsoAt want (switchLabels d k groups hasBreak) ⟨L, []⟩) l ⟨L, []⟩ :=
    fun l h₁ h₂ => .own ((mem_switchLabels hd).mpr (.inl ⟨h₁, h₂⟩))
  have hpick : Flows code sig around [] (AlsoAt want (switchLabels d k groups hasBreak) ⟨L, []⟩)
      ⟨L, [.int]⟩ [.give (dispatchDirective d (k + 1) (numbered (k + 2) d.cases))] [⟨L, [.int]⟩]
      ⟨L, []⟩ := by
    refine .dispatch (hown (k + 1) (by omega) (by omega)) (fun l hl => ?_) (hg.also _ _) _
    rw [map_label_numbered, List.mem_range'_1] at hl
    exact hown l (by omega) (by omega)
  have hkey : Flows code sig around [] (AlsoAt want (switchLabels d k groups hasBreak) ⟨L, []⟩)
      ⟨L, []⟩ key us ⟨L, [.int]⟩ := Threads.mono hkey fun _ _ => .inl
  have hall := ((((((hkey.append (Flows.creates k 2)).append (Flows.creates (k + 2)
    d.cases.length)).append hpick).append hbody).append
    (Flows.placeIf d.defaultGroup.isNone (k + 1))).append (Flows.placeIf hasBreak k))
  simp only [List.nil_append, List.append_nil] at hall
  refine Flows.statement (Threads.close hall ?_)
  rintro l x (hw | ⟨hl, rfl⟩)
  · exact .inl hw
  · refine .inr ?_
    rw [switchLabels] at hl
    simpa [List.mem_ite_nil_right] using hl

/-- A copy of a finally body is at home in the regions that are still open. -/
theorem flows_copy {stillOpen : Nat}
    (hbody : Flows code sig (around.drop (around.length - stillOpen)) [] want u body vs v) :
    Flows code sig around [] want u [.copy (n, n + 1) stillOpen body] vs v := by
  have hsites : sites around [.copy (n, n + 1) stillOpen body] =
      sites (around.drop (around.length - stillOpen)) body := by
    simp [sites, Piece.sites]
  have hall := (((Threads.still (d := .create n) rfl).append ((Threads.still
    (d := .create (n + 1)) rfl).append (Threads.place n))).append hbody).append
    (Threads.place (n + 1))
  simp only [List.nil_append, List.append_nil] at hall
  rw [Flows, hsites]
  refine (Threads.close hall fun l x => .inl).of_eq ?_
  simp [layOut_append, layOut, Piece.directives]

end Forms

/-! ## Tries -/

/-- The labels of a try that its parts may refer to, besides those around it. Where the clauses
start and where the handler of the finally body does, there is an object on the stack. -/
abbrev InTryAt (want : Label → View → Prop) (t : TryFrame) (clauses : List (Clause Piece))
    (rescue : Option (Rescue Piece)) (L : Locals) : Label → View → Prop :=
  AlsoAt (AlsoAt want [t.done] ⟨L, []⟩) ((blockGuard clauses rescue).map (·.2)) ⟨L, [.reference]⟩

/-- The labels that catch clauses place, with their views. -/
def clauseMarks (L : Locals) (clauses : List (Clause Piece)) : List (Nat × View) :=
  clauses.flatMap fun c => [(c.stretch.1, ⟨L, [.reference]⟩), (c.stretch.2, ⟨L, []⟩)]

section Try

variable {code : Code} {sig : Signature} {around own : List Guard}
  {want : Label → View → Prop} {u u' : View} {L : Locals} {t : TryFrame}
  {block exit : List Piece} {clauses : List (Clause Piece)} {rescue : Option (Rescue Piece)}
  {mine : List (Nat × View)} {ss : List Site} {vs ws xs : List View}

/-- A value is stored into the first local that is not in use. -/
theorem threads_store {k : Kind} {slot : Nat} {extra : Guard} (hslot : slot = L.length)
    (hg : ∀ g ∈ extra ++ around.flatten, Wants want g.2 ⟨L, [.reference]⟩) :
    Threads code sig [] want ⟨L, [k]⟩ [.give (.emit ⟨.store, some (.slot slot)⟩)]
      [⟨⟨.store, some (.slot slot)⟩, extra, around⟩] [⟨L, [k]⟩] ⟨L ++ [some k], []⟩ := by
  have hstore : Instruction.Leads code sig.field code.maxLocals ⟨.store, some (.slot slot)⟩
      ⟨L, [k]⟩ (some ⟨L ++ [some k], []⟩) ⟨L, []⟩ := Instruction.leads_declare hslot
  refine Threads.instruction rfl hstore (declared_of_ne (by simp)) ?_
    (by simp [Instruction.targets]) fun _ => hg
  rintro w ⟨⟩
  exact .refl _

theorem threads_leave (around : List Guard) {l : Label} (hl : Wants want l ⟨L, []⟩) (v' : View) :
    Threads code sig [] want ⟨L, []⟩ [.give (.emit ⟨.goto, some (.label l)⟩)]
      [⟨⟨.goto, some (.label l)⟩, [], around⟩] [⟨L, []⟩] v' :=
  Flows.goto hl v'

/-- A clause starts with the caught object alone and ends with a jump. -/
theorem threads_clause {done : Label} {c : Clause Piece}
    (hbody : Flows code sig (own ++ around) [] want ⟨L ++ [some .reference], []⟩ c.body vs
      ⟨L, []⟩)
    (hexit : Flows code sig around [] want ⟨L, []⟩ c.exit ws ⟨L, []⟩)
    (hdone : Wants want done ⟨L, []⟩) (hslot : c.slot = L.length)
    (hg : Guarded want (own ++ around) L) (v' : View) :
    Threads code sig [(c.stretch.1, ⟨L, [.reference]⟩), (c.stretch.2, ⟨L, []⟩)] want
      ⟨L, [.reference]⟩ (clausePieces done c)
      ([⟨⟨.store, some (.slot c.slot)⟩, own.flatten, around⟩] ++ sites (own ++ around) c.body ++
        sites around c.exit ++ [⟨⟨.goto, some (.label done)⟩, [], around⟩])
      ([⟨L, [.reference]⟩] ++ vs ++ ws ++ [⟨L, []⟩]) v' := by
  have hstore : Threads code sig [] want ⟨L, [.reference]⟩ _
      [⟨⟨.store, some (.slot c.slot)⟩, own.flatten, around⟩] _ _ :=
    threads_store hslot fun g hmem => hg g (by rwa [List.flatten_append])
  have hall := (((((Threads.place c.stretch.1).append hstore).append hbody).append
    (Threads.place c.stretch.2)).append hexit).append (threads_leave around hdone v')
  simp only [List.nil_append, List.append_nil] at hall
  exact hall

/-- The part of a try up to the rows of its clauses. -/
theorem threads_tryFront
    (hblock : Flows code sig (blockGuard clauses rescue :: around) [] want ⟨L, []⟩ block vs
      ⟨L, []⟩)
    (hexit : Flows code sig around [] want ⟨L, []⟩ exit ws ⟨L, []⟩)
    (hdone : Wants want t.done ⟨L, []⟩)
    (hclauses : Threads code sig mine want u (clauses.flatMap (clausePieces t.done)) ss xs u') :
    Threads code sig ([(t.stretch.1, ⟨L, []⟩), (t.stretch.2, ⟨L, []⟩)] ++ mine) want ⟨L, []⟩
      ((t.creates clauses).map .give ++ [Piece.give (.place t.stretch.1)] ++ block ++
        [Piece.give (.place t.stretch.2)] ++ exit ++
        [Piece.give (.emit ⟨.goto, some (.label t.done)⟩)] ++
        clauses.flatMap (clausePieces t.done) ++ (t.clauseRows block clauses).map .give)
      (sites (blockGuard clauses rescue :: around) block ++ sites around exit ++
        [⟨⟨.goto, some (.label t.done)⟩, [], around⟩] ++ ss)
      (vs ++ ws ++ [⟨L, []⟩] ++ xs) u' := by
  have hcreates : Threads code sig [] want ⟨L, []⟩ ((t.creates clauses).map .give) [] [] ⟨L, []⟩ :=
    .stills fun d hd => List.filterMap_eq_nil_iff.mp instructionsOf_creates d hd
  have hrows : Threads code sig [] want u' ((t.clauseRows block clauses).map .give) [] [] u' :=
    .stills fun d hd => List.filterMap_eq_nil_iff.mp instructionsOf_clauseRows d hd
  have hall := ((((((hcreates.append (Threads.place t.stretch.1)).append hblock).append
    (Threads.place t.stretch.2)).append hexit).append (threads_leave around hdone u)).append
    hclauses).append hrows
  simp only [List.nil_append, List.append_nil] at hall
  exact hall

/-- The handler of a finally body starts with the object in flight alone, and throws it again. -/
theorem threads_rescue (t : TryFrame) (block : List Piece) (clauses : List (Clause Piece))
    {r : Rescue Piece}
    (hbody : Flows code sig around [] want ⟨L ++ [some .reference], []⟩ r.body vs
      ⟨L ++ [some .reference], []⟩)
    (hentry : Wants want r.handler ⟨L, [.reference]⟩) (hslot : r.slot = L.length)
    (hg : Guarded want around L) (v' : View) :
    Threads code sig
      [(r.handler, ⟨L, [.reference]⟩), (r.stored, ⟨L ++ [some .reference], []⟩)] want
      ⟨L, [.reference]⟩ (rescuePieces t block clauses (some r))
      ([⟨⟨.store, some (.slot r.slot)⟩, [(none, r.handler)], around⟩] ++ sites around r.body ++
        [⟨⟨.load, some (.slot r.slot)⟩, [], around⟩, ⟨⟨.throw, none⟩, [], around⟩])
      ([⟨L, [.reference]⟩] ++ vs ++
        [⟨L ++ [some .reference], []⟩, ⟨L ++ [some .reference], [.reference]⟩]) v' := by
  have hguards : ∀ g ∈ [(none, r.handler)] ++ around.flatten, Wants want g.2 ⟨L, [.reference]⟩ := by
    intro g hmem
    obtain rfl | hmem := List.mem_cons.mp hmem
    · exact hentry
    · exact hg g hmem
  have hstore : Threads code sig [] want ⟨L, [.reference]⟩ _
      [⟨⟨.store, some (.slot r.slot)⟩, [(none, r.handler)], around⟩] _ _ :=
    threads_store hslot hguards
  have hg' := hg.mono (Locals.below_append L [some .reference])
  have hloads : Instruction.Leads code sig.field code.maxLocals ⟨.load, some (.slot r.slot)⟩
      ⟨L ++ [some .reference], []⟩ (some ⟨L ++ [some .reference], [.reference]⟩) ⟨L, []⟩ := by
    refine Instruction.leads_load ?_
    rw [hslot, List.getElem?_concat_length]
  have hload : Flows code sig around [] want ⟨L ++ [some .reference], []⟩
      [.give (.emit ⟨.load, some (.slot r.slot)⟩)] _ ⟨L ++ [some .reference], [.reference]⟩ :=
    Flows.emit hloads (declared_of_ne (by simp)) (by simp [Instruction.targets]) hg'
  have hrows : Threads code sig [] want v'
      ((t.rescueRows r.handler r.stored block clauses).map .give) [] [] v' :=
    .stills fun d hd => List.filterMap_eq_nil_iff.mp instructionsOf_rescueRows d hd
  have hall := ((((Threads.still (d := .create r.handler) rfl).append ((Threads.still
    (d := .create r.stored) rfl).append ((Threads.place r.handler).append (hstore.append
      (Threads.place r.stored))))).append hbody).append
    (hload.append (Flows.throw hg' v'))).append hrows
  simp only [List.nil_append, List.append_nil] at hall
  exact hall

/-- A try is a sequence of pieces like any other, and finds its own labels. -/
theorem threads_try {marks : List (Nat × View)} {rs : List Site} {ys : List View}
    (hblock : Flows code sig (blockGuard clauses rescue :: around) []
      (InTryAt want t clauses rescue L) ⟨L, []⟩ block vs ⟨L, []⟩)
    (hexit : Flows code sig around [] (InTryAt want t clauses rescue L) ⟨L, []⟩ exit ws ⟨L, []⟩)
    (hclauses : Threads code sig (clauseMarks L clauses) (InTryAt want t clauses rescue L) u
      (clauses.flatMap (clausePieces t.done)) ss xs u')
    (hrescue : Threads code sig marks (InTryAt want t clauses rescue L) u'
      (rescuePieces t block clauses rescue) rs ys ⟨L, []⟩)
    (hmarks : ∀ r ∈ rescue, (r.handler, ⟨L, [.reference]⟩) ∈ marks) :
    Threads code sig [] want ⟨L, []⟩ [.tryCatch t block exit clauses rescue]
      (sites (blockGuard clauses rescue :: around) block ++ sites around exit ++
        [⟨⟨.goto, some (.label t.done)⟩, [], around⟩] ++ ss ++ rs)
      (vs ++ ws ++ [⟨L, []⟩] ++ xs ++ ys) ⟨L, []⟩ := by
  have hdone : Wants (InTryAt want t clauses rescue L) t.done ⟨L, []⟩ :=
    (Wants.own (List.mem_singleton_self t.done)).also _ _
  have hall := ((threads_tryFront hblock hexit hdone hclauses).append hrescue).append
    (Threads.place t.done)
  simp only [List.append_nil] at hall
  refine (hall.close ?_).of_eq (layOut_tryPieces ..)
  rintro l x ((hw | ⟨hl, rfl⟩) | ⟨hl, rfl⟩)
  · exact .inl hw
  · obtain rfl := List.mem_singleton.mp hl
    exact .inr (by simp)
  · refine .inr ?_
    obtain ⟨g, hg, rfl⟩ := List.mem_map.mp hl
    obtain hg | hg := List.mem_append.mp hg
    · obtain ⟨c, hc, rfl⟩ := List.mem_map.mp hg
      have : (c.stretch.1, (⟨L, [.reference]⟩ : View)) ∈ clauseMarks L clauses :=
        List.mem_flatMap.mpr ⟨c, hc, by simp⟩
      simp [this]
    · cases rescue with
      | none => simp [clauseGuards] at hg
      | some r =>
          obtain rfl : g = (none, r.handler) := by simpa [clauseGuards] using hg
          simp [hmarks r rfl]

theorem flows_tryCatch
    (hblock : Flows code sig (blockGuard clauses none :: around) []
      (InTryAt want t clauses none L) ⟨L, []⟩ block vs ⟨L, []⟩)
    (hclauses : ∃ u, Threads code sig (clauseMarks L clauses) (InTryAt want t clauses none L) u
      (clauses.flatMap (clausePieces t.done)) (clauseSites [] around t.done clauses) xs ⟨L, []⟩) :
    Flows code sig around [] want ⟨L, []⟩ [.tryCatch t block [] clauses none]
      (vs ++ [⟨L, []⟩] ++ xs) ⟨L, []⟩ := by
  obtain ⟨u, hclauses⟩ := hclauses
  have hexit : Flows code sig around [] (InTryAt want t clauses none L) ⟨L, []⟩ [] [] ⟨L, []⟩ :=
    Threads.nil
  have hall := threads_try hblock hexit hclauses Threads.nil (by simp)
  simpa [Flows, sites, Piece.sites, clauseGuards] using hall

theorem flows_tryFinally {r : Rescue Piece} {ys : List View}
    (hblock : Flows code sig (blockGuard clauses (some r) :: around) []
      (InTryAt want t clauses (some r) L) ⟨L, []⟩ block vs ⟨L, []⟩)
    (hexit : Flows code sig around [] (InTryAt want t clauses (some r) L) ⟨L, []⟩ exit ws
      ⟨L, []⟩)
    (hclauses : ∃ u, Threads code sig (clauseMarks L clauses)
      (InTryAt want t clauses (some r) L) u (clauses.flatMap (clausePieces t.done))
      (clauseSites [[(none, r.handler)]] around t.done clauses) xs ⟨L, [.reference]⟩)
    (hbody : Flows code sig around [] (InTryAt want t clauses (some r) L)
      ⟨L ++ [some .reference], []⟩ r.body ys ⟨L ++ [some .reference], []⟩)
    (hslot : r.slot = L.length) (hg : Guarded want around L) :
    Flows code sig around [] want ⟨L, []⟩ [.tryCatch t block exit clauses (some r)]
      (vs ++ ws ++ [⟨L, []⟩] ++ xs ++ [⟨L, [.reference]⟩] ++ ys ++
        [⟨L ++ [some .reference], []⟩, ⟨L ++ [some .reference], [.reference]⟩]) ⟨L, []⟩ := by
  obtain ⟨u, hclauses⟩ := hclauses
  have hentry : Wants (InTryAt want t clauses (some r) L) r.handler ⟨L, [.reference]⟩ :=
    Wants.own (by simp [blockGuard, clauseGuards])
  have hrescue := threads_rescue t block clauses hbody hentry hslot
    ((hg.also _ _).also _ _) ⟨L, []⟩
  have hall := threads_try hblock hexit hclauses hrescue (by simp)
  simpa [Flows, sites, Piece.sites, clauseGuards] using hall

end Try

/-! ## All statements -/

section All

variable {code : Code} {sig : Signature}

theorem carries_test {around : List Guard} {want : Label → View → Prop} {L : Locals} {e : Expr}
    (hs : e.Sound true) (ht : e.Valued sig L) {target : Label} (onTrue : Bool)
    (hg : Guarded want around L) (hw : Wants want target ⟨L, []⟩) :
    (branch e target onTrue).Carries code sig around want ⟨L, []⟩
      ((e.views L).branch [] onTrue) ⟨L, []⟩ := by
  obtain ⟨k, hk⟩ := Option.isSome_iff_exists.mp ht.1
  exact (carries_exprCode e hs ht.2 hk).branch around want [] target onTrue hg hw

theorem carries_branchUnless {around : List Guard} {want : Label → View → Prop} {L : Locals}
    {c : Option Expr} (hs : ∀ e ∈ c, e.Sound true) (ht : ∀ e ∈ c, e.Valued sig L)
    {target : Label} (hg : Guarded want around L) (hw : Wants want target ⟨L, []⟩) :
    (branchUnless c target).Carries code sig around want ⟨L, []⟩
      (c.elim [] fun e => (e.views L).branch [] false) ⟨L, []⟩ := by
  cases c with
  | none => exact carries_pure
  | some e => exact carries_test (hs e rfl) (ht e rfl) false hg hw

theorem flows_pop {around : List Guard} {want : Label → View → Prop} {L : Locals} {e : Expr}
    (ht : e.Typed sig L) (hleaves : Typing.leavesValue e = true) (hg : Guarded want around L) :
    Flows code sig around [] want ⟨L, e.kinds⟩ [.give (.emit ⟨.pop, none⟩)] [⟨L, e.kinds⟩]
      ⟨L, []⟩ := by
  have hvoid : ∀ name args, e ≠ .call .void name args := by
    rintro name args rfl
    cases hleaves
  obtain ⟨k, hk⟩ := kind_of_typed ht hvoid
  have hpop : Instruction.Leads code sig.field code.maxLocals ⟨.pop, none⟩ ⟨L, [k]⟩ (some ⟨L, []⟩)
      ⟨L, []⟩ := Instruction.leads_pop
  rw [kinds_eq hk]
  exact Flows.emit hpop (declared_of_ne (by simp)) (by simp [Instruction.targets]) hg

/-- What a body declares is out of scope behind it. -/
theorem Flows.leaveScope {around : List Guard} {mine : List (Nat × View)}
    {want : Label → View → Prop} {v : View} {ps : List Piece} {vs : List View} {L L' : Locals}
    {body : List Stmt}
    (h : Flows code sig around mine want v ps vs ⟨Stmt.declareAll L' body, []⟩)
    (hL : Locals.Below L L') : Flows code sig around mine want v ps vs ⟨L, []⟩ :=
  Threads.stop h ⟨hL.trans (Stmt.below_declareAll L' body), rfl⟩

/-- A finally body runs where the slot of its handler holds nothing that is known. -/
theorem Gen.Carries.reserved {around : List Guard} {want : Label → View → Prop} {x : Gen Unit}
    {vs : List View} {L : Locals} {body : List Stmt}
    (h : x.Carries code sig around want ⟨L ++ [none], []⟩ vs
      ⟨Stmt.declareAll (L ++ [none]) body, []⟩) :
    x.Carries code sig around want ⟨L, []⟩ vs ⟨L, []⟩ := by
  intro n n' u ps hy
  have hbody : Flows code sig around [] want ⟨L, []⟩ ps vs _ :=
    Threads.start (h hy) ⟨Locals.reserved_below L, rfl⟩
  exact Flows.leaveScope hbody (Locals.below_append L [none])

theorem Lands.jump_eq {T : Targets} {want : Label → View → Prop} {O : Outlook} {Os : List OpenTry}
    {L Lt : Locals} {f : Frame} {t : Target} (h : Lands T want O Os L f t Lt)
    (hcopies : O.copies = Os.map (·.copy)) :
    let copies := (leaving t.depth Os).map (·.copy)
    O.jump L f.id = Outlook.copyViews copies ++ [⟨Outlook.knownAfter L copies, []⟩] := by
  simp only [Outlook.jump, h.landing, hcopies, List.length_map, leaving, List.map_take]

/-- What is known where a jump comes out is known after the copies on the way. -/
theorem below_knownAfter {Os : List OpenTry} {L Lt : Locals} (hL : Locals.Below Lt L)
    (hleft : ∀ o ∈ Os, Locals.Below Lt o.locals) :
    Locals.Below Lt (Outlook.knownAfter L (Os.map (·.copy))) := by
  induction Os generalizing L with
  | nil => exact hL
  | cons o Os ih =>
      obtain ⟨ho, hrest⟩ := List.forall_mem_cons.mp hleft
      obtain ⟨guard, _ | views, locals⟩ := o
      · exact ih hL hrest
      · exact ih ho hrest

theorem Lands.wants {T : Targets} {want : Label → View → Prop} {O : Outlook} {Os : List OpenTry}
    {L Lt : Locals} {f : Frame} {t : Target} (h : Lands T want O Os L f t Lt) {l : Label}
    (hl : Wants want l ⟨Lt, []⟩) :
    Wants want l ⟨Outlook.knownAfter L ((leaving t.depth Os).map (·.copy)), []⟩ :=
  hl.mono ⟨below_knownAfter h.below h.left, rfl⟩

theorem carries_noCopy {around : List Guard} {want : Label → View → Prop} {T : Targets}
    {R : List Region} {v : View} :
    (finallyCopy T R none).Carries code sig around want v [] v := by
  rw [finallyCopy]
  exact carries_pure

theorem carries_copy {around : List Guard} {want : Label → View → Prop} {T : Targets}
    {R : List Region} {v v' : View} {vs : List View} {body : List Stmt}
    (h : (stmts T R body).Carries code sig around want v vs v') :
    (finallyCopy T R (some body)).Carries code sig around want v vs v' := by
  rw [finallyCopy]
  exact h

/-- A jump to a construct inside the innermost region leaves none. -/
theorem carries_inside {around : List Guard} {want : Label → View → Prop} {T : Targets}
    {R : List Region} {Os : List OpenTry} {L : Locals} {depth : Nat} (hd : R.length ≤ depth)
    (hlength : Os.length = R.length) :
    let copies := (leaving depth Os).map (·.copy)
    (crossed T depth R).Carries code sig around want ⟨L, []⟩ (Outlook.copyViews copies)
      ⟨Outlook.knownAfter L copies, []⟩ := by
  intro copies n n' u ps h
  obtain ⟨rfl, rfl⟩ := yields_crossed_inside hd h
  have hnone : copies = [] := List.map_eq_nil_iff.mpr (leaving_eq_nil (by omega))
  rw [hnone]
  exact Threads.nil

/-- A jump runs the finally bodies of the regions it leaves, each of them with what is known at
its own try. -/
theorem carries_crossed {want : Label → View → Prop} {T : Targets} {hi : Nat} {R : List Region}
    {Os : List OpenTry} {L : Locals} (hwaiting : Waiting code sig T want hi R Os) (depth : Nat)
    (before : List Guard) (hnested : KnownWithin L Os) :
    let copies := (leaving depth Os).map (·.copy)
    (crossed T depth R).Carries code sig (before ++ Os.map (·.guard)) want ⟨L, []⟩
      (Outlook.copyViews copies) ⟨Outlook.knownAfter L copies, []⟩ := by
  induction hwaiting generalizing L before with
  | nil => exact carries_inside (Nat.zero_le _) rfl
  | @plain R Os guard L₀ hwaiting ih =>
      obtain hd | hd := Nat.lt_or_ge R.length depth
      · exact carries_inside hd (congrArg Nat.succ hwaiting.length_eq)
      rw [leaving_cons (by rw [hwaiting.length_eq]; exact hd)]
      have hrest := ih (before ++ [guard]) (hnested.2.mono hnested.1)
      rw [List.append_assoc] at hrest
      intro copies n n' u ps h
      exact hrest (yields_crossed_none hd h)
  | @withFinally body R Os guard views L₀ hcopy hwaiting ih =>
      obtain hd | hd := Nat.lt_or_ge R.length depth
      · exact carries_inside hd (congrArg Nat.succ hwaiting.length_eq)
      rw [leaving_cons (by rw [hwaiting.length_eq]; exact hd)]
      have hrest := ih (before ++ [guard]) hnested.2
      have hopen : (before ++ [guard] ++ Os.map (·.guard)).drop
          ((before ++ [guard] ++ Os.map (·.guard)).length - R.length) = Os.map (·.guard) := by
        refine List.drop_left' ?_
        have := hwaiting.length_eq
        simp only [List.length_append, List.length_map]
        omega
      rw [List.append_assoc] at hrest hopen
      intro copies n n' u ps h
      obtain ⟨pieces, m, rest, hyc, hyr, rfl⟩ := yields_crossed_some hd h
      have hbody := hcopy T .refl hyc
      rw [← hopen] at hbody
      have hstart : Flows code sig _ [] want ⟨L, []⟩ pieces views ⟨L₀, []⟩ :=
        Threads.start hbody ⟨hnested.1, rfl⟩
      exact (flows_copy hstart).append (hrest hyr)

mutual

/-- The code of a statement has the views that are read off it. -/
theorem carries_stmt {want : Label → View → Prop} {T : Targets} {R : List Region} {O : Outlook}
    {Os : List OpenTry} {L : Locals} {inner : Option Frame} {lo hi : Nat} {declares : Bool}
    (s : Stmt) (hs : s.Sound inner lo hi) (ht : s.Typed sig declares L)
    (hsuits : Suits code sig T want R O Os L inner lo hi) :
    (stmt T R s).Carries code sig (Os.map (·.guard)) want ⟨L, []⟩ (s.views O L)
      ⟨s.declare L, []⟩ := by
  intro n n' u ps h
  have hg := hsuits.guarded
  match s with
  | .block body =>
      obtain ⟨body', hbody, rfl⟩ := yields_block h
      have hbody' := carries_stmts body hs ht hsuits hbody
      exact Flows.statement (hbody'.leaveScope (.refl L))
  | .localInit slot e =>
      obtain ⟨-, hslot, hk, ht⟩ := ht
      obtain ⟨k, hk⟩ := Option.isSome_iff_exists.mp hk
      obtain ⟨first, hfirst, rfl⟩ := yields_localInit h
      have hstore : Flows code sig (Os.map (·.guard)) [] want ⟨L, [k]⟩
          [.give (.emit ⟨.store, some (.slot slot)⟩)] [⟨L, [k]⟩] ⟨L ++ [some k], []⟩ :=
        threads_store hslot hg
      rw [Stmt.views, Stmt.declare, kinds_eq hk, hk]
      exact Flows.statement (((carries_exprCode e hs.1 ht hk).value _ _ [] hg hfirst).append hstore)
  | .expression e discard =>
      obtain ⟨hs, rfl, -⟩ := hs
      obtain ⟨first, hfirst, rfl⟩ := yields_expression h
      have hvalue : Flows code sig (Os.map (·.guard)) [] want ⟨L, []⟩ first _ _ :=
        carries_unused hs ht hg hfirst
      refine Flows.statement (hvalue.append ?_)
      cases hleaves : Typing.leavesValue e with
      | false => exact Threads.nil
      | true => exact flows_pop ht hleaves hg
  | .ifElse c s none =>
      obtain ⟨hc, hs⟩ := hs
      obtain ⟨htc, hts⟩ := ht
      obtain ⟨test, m, body, htest, hbody, rfl⟩ := yields_ifThen h
      have hbody' := carries_stmt s hs hts (hsuits.also [n] ⟨L, []⟩) hbody
      rw [hts.declare_eq] at hbody'
      exact Flows.statement (flows_skipping
        (carries_test hc htc false (hg.also _ _) (.own (List.mem_singleton_self n)) htest) hbody')
  | .ifElse c s (some t) =>
      obtain ⟨hc, k, hs, ht'⟩ := hs
      obtain ⟨htc, hts, htt⟩ := ht
      obtain ⟨test, m, body, m', other, htest, hbody, hother, rfl⟩ := yields_ifElse h
      have hin := hsuits.also [n, m'] ⟨L, []⟩
      have hbody' := carries_stmt s hs hts (hin.part (Nat.le_refl _) ht'.le) hbody
      have hother' := carries_stmt t ht' htt (hin.part hs.le (Nat.le_refl _)) hother
      rw [hts.declare_eq] at hbody'
      rw [htt.declare_eq] at hother'
      exact flows_ifElse (carries_test hc htc false (hg.also _ _) (.own (by simp)) htest) hbody'
        hother'
  | .whileLoop j c body =>
      obtain ⟨hc, rfl, hbody⟩ := hs
      obtain ⟨htc, htb⟩ := ht
      obtain ⟨-, test, m, code', htest, hcode, rfl⟩ := yields_whileLoop h
      have hin := hsuits.enterLoop .whileLoop (Nat.le_refl _) hbody.le n (n + 2) (n + 3) [n + 1]
      have hbody' := carries_stmt body hbody htb hin hcode
      rw [htb.declare_eq] at hbody'
      have hloop := flows_forLoop .nil
        (carries_test hc htc false (hg.also _ _) (.own (done_mem_loopLabels ..)) htest) hbody' .nil
      rwa [List.append_nil (_ ++ Stmt.views _ _ _)] at hloop
  | .doLoop j body c =>
      obtain ⟨hc, rfl, hbody⟩ := hs
      obtain ⟨htc, htb⟩ := ht
      obtain ⟨-, code', m, test, hcode, htest, rfl⟩ := yields_doLoop h
      have hin := hsuits.enterLoop .doLoop (Nat.le_refl _) hbody.le n (n + 1) (n + 2) []
      have hbody' := carries_stmt body hbody htb hin hcode
      rw [htb.declare_eq] at hbody'
      exact flows_doLoop hbody'
        (carries_test hc htc true (hg.also _ _) (.own (start_mem_loopLabels ..)) htest)
  | .forLoop j init c update body =>
      obtain ⟨hc, m, hinit, hupdate, hbody⟩ := hs
      obtain ⟨hti, htc, htu, htb⟩ := ht
      obtain ⟨-, first, k, test, m₁, code', m₂, last, hfirst, htest, hcode, hlast, rfl⟩ :=
        yields_forLoop h
      have hm := hinit.le
      have hid := hupdate.le
      have hlt := hbody.le
      have hbelow := Stmt.below_declareAll L init
      have hrest := (hsuits.part hm (Nat.le_refl _)).mono hbelow
      have hfirst' := carries_stmts init hinit hti (hsuits.part (Nat.le_refl _) (by omega)) hfirst
      have hbody' := carries_stmt body hbody htb
        (hrest.enterLoop .forLoop hid hlt k (k + 2) (k + 3) [k + 1]) hcode
      have hlast' := carries_stmts update hupdate htu ((hrest.also
        (loopLabels j k (k + 2) (k + 3) [k + 1]) ⟨Stmt.declareAll L init, []⟩).beside hid hlt) hlast
      rw [htb.declare_eq] at hbody'
      rw [htu.declareAll_eq] at hlast'
      have hloop := flows_forLoop hfirst' (carries_branchUnless hc htc ((hg.mono hbelow).also _ _)
        (.own (done_mem_loopLabels ..)) htest) hbody' hlast'
      exact Threads.stop hloop ⟨hbelow, rfl⟩
  | .switch id hasBreak e bodies d =>
      obtain ⟨he, hd, rfl, hbodies⟩ := hs
      obtain ⟨hk, hte, htb⟩ := ht
      obtain ⟨-, -, key, k, code', hkey, hcode, rfl⟩ := yields_switch h
      have hin := (hsuits.also (switchLabels d k bodies.length hasBreak) ⟨L, []⟩).enter
        (f := .switch ⟨id, hasBreak⟩) (t := ⟨k, none, R.length⟩) rfl (Nat.le_refl _) hbodies.le rfl
        (fun hb => .own ((mem_switchLabels hd).mpr (.inr ⟨hb, rfl⟩))) nofun
      rw [Stmt.views, kinds_eq hk]
      exact flows_switch hd ((carries_exprCode e he hte hk).value _ want [] hg hkey)
        (flows_groups bodies hbodies htb hin hcode) hg
  | .tryCatch guarded clauses none =>
      obtain ⟨m, hguarded, hclauses⟩ := hs
      obtain ⟨htg, htc⟩ := ht
      obtain ⟨block, k, codes, hblock, hcodes, rfl⟩ := yields_tryCatch h
      have hin : Suits code sig T (InTryAt want ⟨R.length, (n, n + 1), n + 2⟩ codes none L) R O Os L
          inner lo hi := (hsuits.also _ _).also _ _
      have hblock' := carries_stmts guarded hguarded htg ((hin.part (Nat.le_refl _)
        hclauses.le).inTry (blockGuard codes none) fun g hg => .own (List.mem_map_of_mem hg)) hblock
      exact Flows.statement (flows_tryCatch (Flows.leaveScope hblock' (.refl L))
        (threads_catches [] none clauses _ (length_stretchesFrom ..) hclauses htc
          (hin.part hguarded.le (Nat.le_refl _)) rfl carries_noCopy
          ((Wants.own (List.mem_singleton_self _)).also _ _) hcodes _))
  | .tryCatch guarded clauses (some ⟨slot, body⟩) =>
      obtain ⟨m, m', hguarded, hclauses, hbody⟩ := hs
      obtain ⟨htg, htc, hslot, htb, htr⟩ := ht
      obtain ⟨block, k, exit, k', codes, e, rescue, hblock, hexit, hcodes, hrescue, rfl⟩ :=
        yields_tryFinally h
      have hm := hguarded.le
      have hm' := hclauses.le
      have hout : Suits code sig T (InTryAt want ⟨R.length, (n, n + 1), n + 2⟩ codes
          (some ⟨e, e + 1, slot, rescue⟩) L) R O Os L inner lo hi := (hsuits.also _ _).also _ _
      have hlast := hout.part (hm.trans hm') (Nat.le_refl _)
      have hcopy := fun T' (hT : T.Grows m' T') => (carries_stmts body hbody htb
        ((hlast.grows hbody.le hT).mono (Locals.below_append L [none]))).reserved
      have hrescue' := carries_stmts body hbody htr
        (hlast.mono (Locals.below_append L [some .reference])) hrescue
      have hblock' := carries_stmts guarded hguarded htg ((hout.inTryFinally
        (blockGuard codes (some ⟨e, e + 1, slot, rescue⟩))
        (fun g hg => .own (List.mem_map_of_mem hg)) hbody.le hcopy).part (Nat.le_refl _) hm') hblock
      have hcatches := threads_catches [[(none, e)]] (some body) clauses _
        (length_stretchesFrom ..) hclauses htc ((hout.inTryFinally [(none, e)]
          (fun g hg => .own (List.mem_map_of_mem (List.mem_append_right _ hg))) hbody.le
          hcopy).part hm (Nat.le_refl _)) rfl (carries_copy (hcopy T .refl))
        ((Wants.own (List.mem_singleton_self _)).also _ _) hcodes ⟨L, [.reference]⟩
      exact Flows.statement (flows_tryFinally (Flows.leaveScope hblock' (.refl L))
        (hcopy T .refl hexit) hcatches (Flows.leaveScope hrescue' (.refl _)) hslot hg)
  | .breakJump id =>
      obtain ⟨⟨f, hf, rfl, hb⟩, -⟩ := hs
      obtain ⟨t, code', ht, hcode, rfl⟩ := yields_breakJump h
      obtain ⟨t', Lt, hlands⟩ := hsuits.serves f hf
      obtain rfl := Option.some.inj (ht.symm.trans hlands.target)
      rw [Stmt.views, hlands.jump_eq hsuits.copies]
      exact Flows.statement ((carries_crossed hsuits.waiting t.depth [] hsuits.nested
        hcode).append (Flows.goto (hlands.wants (hlands.breaks hb)) _))
  | .continueJump id =>
      obtain ⟨⟨f, hf, rfl, hc⟩, -⟩ := hs
      obtain ⟨t, l, code', ht, hl, hcode, rfl⟩ := yields_continueJump h
      obtain ⟨t', Lt, hlands⟩ := hsuits.serves f hf
      obtain rfl := Option.some.inj (ht.symm.trans hlands.target)
      obtain ⟨l', hl', hw⟩ := hlands.continues hc
      obtain rfl := Option.some.inj (hl.symm.trans hl')
      rw [Stmt.views, hlands.jump_eq hsuits.copies]
      exact Flows.statement ((carries_crossed hsuits.waiting t.depth [] hsuits.nested
        hcode).append (Flows.goto (hlands.wants hw) _))
  | .throw e =>
      obtain ⟨hk, ht⟩ := ht
      obtain ⟨first, hfirst, rfl⟩ := yields_throw h
      rw [Stmt.views, kinds_eq hk]
      exact Flows.statement (((carries_exprCode e hs.1 ht hk).value _ _ [] hg hfirst).append
        (Flows.throw hg _))
  | .empty =>
      obtain ⟨rfl, rfl⟩ := yields_empty h
      exact Flows.statement Threads.nil
termination_by structural s

theorem carries_stmts {want : Label → View → Prop} {T : Targets} {R : List Region} {O : Outlook}
    {Os : List OpenTry} {L : Locals} {inner : Option Frame} {lo hi : Nat} {declares : Bool}
    (body : List Stmt) (hs : Stmt.AllSound inner lo body hi)
    (ht : Stmt.AllTyped sig declares L body)
    (hsuits : Suits code sig T want R O Os L inner lo hi) :
    (stmts T R body).Carries code sig (Os.map (·.guard)) want ⟨L, []⟩ (Stmt.allViews O L body)
      ⟨Stmt.declareAll L body, []⟩ := by
  intro n n' u ps h
  match body with
  | [] =>
      obtain ⟨rfl, rfl⟩ := yields_nil h
      exact Threads.nil
  | s :: rest =>
      obtain ⟨m, hs, hrest⟩ := hs
      obtain ⟨first, k, others, hfirst, hothers, rfl⟩ := yields_cons h
      have hin := (hsuits.part hs.le (Nat.le_refl _)).mono (s.below_declare L)
      exact (carries_stmt s hs ht.1 (hsuits.part (Nat.le_refl _) hrest.le) hfirst).append
        (carries_stmts rest hrest ht.2 hin hothers)
termination_by structural body

theorem flows_groups {want : Label → View → Prop} {T : Targets} {R : List Region} {O : Outlook}
    {Os : List OpenTry} {L : Locals} {inner : Option Frame} {lo hi : Nat} {d : Dispatch}
    {default : Nat} {cases : List CaseTarget} {index n n' : Nat} {u : Unit} {ps : List Piece}
    (bodies : List (List Stmt)) (hs : Stmt.GroupsSound inner lo bodies hi)
    (ht : Stmt.GroupsTyped sig L bodies) (hsuits : Suits code sig T want R O Os L inner lo hi)
    (h : (groups T R (placeGroup d default cases) index bodies).Yields n u ps n') :
    Flows code sig (Os.map (·.guard)) (((List.range' index bodies.length).flatMap
      (labelsOfGroup d default cases)).map (·, ⟨L, []⟩)) want ⟨L, []⟩ ps
      (Stmt.groupViews O L bodies) ⟨L, []⟩ := by
  match bodies with
  | [] =>
      obtain ⟨rfl, rfl⟩ := yields_groups_nil h
      exact Threads.nil
  | body :: rest =>
      obtain ⟨m, hbody, hrest⟩ := hs
      obtain ⟨first, k, others, hfirst, hothers, rfl⟩ := yields_groups_cons h
      rw [List.length_cons, List.range'_succ, List.flatMap_cons, List.map_append, groupLabels_eq]
      have hfirst' := carries_stmts body hbody ht.1 (hsuits.part (Nat.le_refl _) hrest.le) hfirst
      have hgroup := (Flows.places (labelsOfGroup d default cases index)).append
        (Flows.leaveScope hfirst' (.refl L))
      rw [List.append_nil] at hgroup
      exact hgroup.append
        (flows_groups rest hrest ht.2 (hsuits.part hbody.le (Nat.le_refl _)) hothers)
termination_by structural bodies

/-- The last clause leaves whatever is known where the code goes on behind it. -/
theorem threads_catches {want : Label → View → Prop} {T : Targets} {R : List Region} {O : Outlook}
    {Os : List OpenTry} {L : Locals} {inner : Option Frame} {lo hi n n' : Nat} {done : Nat}
    {ps : List Piece} {codes : List (Clause Piece)} {around : List Guard} {copy : List View}
    (own : List Guard) (region : Region) (clauses : List (Catch Stmt)) (stretches : List Stretch)
    (hlength : stretches.length = clauses.length) (hs : Stmt.ClausesSound inner lo clauses hi)
    (ht : Stmt.ClausesTyped sig L clauses)
    (hsuits : Suits code sig T want (clauseRegions R region) O Os L inner lo hi)
    (haround : Os.map (·.guard) = own ++ around)
    (hcopy : (finallyCopy T R region).Carries code sig around want ⟨L, []⟩ copy ⟨L, []⟩)
    (hdone : Wants want done ⟨L, []⟩)
    (h : (catches T R region clauses stretches).Yields n codes ps n') (v' : View) :
    ∃ u, Threads code sig (clauseMarks L codes) want u (codes.flatMap (clausePieces done))
      (clauseSites own around done codes) (Stmt.clauseViews O L copy clauses) v' := by
  match clauses, stretches with
  | [], _ =>
      obtain ⟨rfl, -, -⟩ := yields_catches_nil h
      exact ⟨v', Threads.nil⟩
  | _ :: _, [] => cases hlength
  | ⟨_, slot, body⟩ :: rest, stretch :: stretches =>
      obtain ⟨m, hbody, hrest⟩ := hs
      obtain ⟨hslot, htb, htr⟩ := ht
      obtain ⟨first, k, exit, m', others, hfirst, hexit, hothers, rfl⟩ := yields_catches_cons h
      have hbelow := Locals.below_append L [some .reference]
      have hfirst' := carries_stmts body hbody htb
        ((hsuits.part (Nat.le_refl _) hrest.le).mono hbelow) hfirst
      have hg := hsuits.guarded
      rw [haround] at hfirst' hg
      obtain ⟨u, hrest'⟩ := threads_catches own region rest stretches (Nat.succ.inj hlength) hrest htr
        (hsuits.part hbody.le (Nat.le_refl _)) haround hcopy hdone hothers v'
      refine ⟨⟨L, [.reference]⟩, ?_⟩
      rw [clauseMarks, List.flatMap_cons, List.flatMap_cons]
      exact (threads_clause (Flows.leaveScope hfirst' hbelow) (hcopy hexit) hdone hslot hg
        u).append hrest'
termination_by structural clauses

end

end All

end Lowering

end MethodCompiler
