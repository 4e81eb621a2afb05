import MethodCompiler.Proofs.Invariants

/-!
# References lead to objects

What holds of a machine whatever code it runs is about the heap and the log of calls: objects
stay where they are and keep their classes and fields, calls are never forgotten, and no
reference leads nowhere as long as the host hands out none that does.

`lasting_follows` says so of the changes that instructions make, and `follows_execute` of a run.
Heap and log outlive runs, so the last section is about a machine that is used again and
again.
-/

namespace MethodCompiler

variable {σ : Type}

/-- The names of the fields that have been stored into. -/
def Object.names (o : Object) : List String :=
  o.fields.map (·.1)

namespace Machine

/-- Every reference leads to an object. -/
structure Grounded (m : Machine σ) : Prop where
  stack : ∀ v ∈ m.stack, v.Within m.heap.size
  locals : ∀ v ∈ m.locals, v.Within m.heap.size
  fields : ∀ o ∈ m.heap, ∀ f ∈ o.fields, f.2.Within m.heap.size
  calls : ∀ c ∈ m.calls, ∀ v ∈ c.args, v.Within m.heap.size

/-- Objects stay where they are, keep their classes and lose no field, and the log of
calls only gets longer. -/
structure Grows (m m' : Machine σ) : Prop where
  objects : ∀ (address : Nat) (o : Object), m.heap[address]? = some o →
    ∃ o' : Object, m'.heap[address]? = some o' ∧ o'.className = o.className ∧ o.names ⊆ o'.names
  calls : m.calls.toList <+: m'.calls.toList

theorem Grows.refl (m : Machine σ) : m.Grows m where
  objects := fun _ o ho => ⟨o, ho, rfl, List.Subset.refl _⟩
  calls := List.prefix_refl _

theorem Grows.trans {m m' m'' : Machine σ} (h : m.Grows m') (h' : m'.Grows m'') : m.Grows m'' where
  objects := by
    intro address o ho
    obtain ⟨o', ho', hclass, hnames⟩ := h.objects address o ho
    obtain ⟨o'', ho'', hclass', hnames'⟩ := h'.objects address o' ho'
    exact ⟨o'', ho'', hclass'.trans hclass, List.Subset.trans hnames hnames'⟩
  calls := h.calls.trans h'.calls

/-- A machine that has come from another: it has only grown, and its references lead to
objects. -/
structure Follows (m₀ m : Machine σ) : Prop where
  grows : m₀.Grows m
  grounded : m.Grounded

/-! ## What can change -/

section Changes

variable {m₀ m : Machine σ}

theorem Follows.stacked (h : m₀.Follows m) {stack : List Value}
    (hs : ∀ v ∈ stack, v.Within m.heap.size) : m₀.Follows { m with stack := stack } where
  grows := ⟨h.grows.objects, h.grows.calls⟩
  grounded := ⟨hs, h.grounded.locals, h.grounded.fields, h.grounded.calls⟩

theorem Follows.setLocal (h : m₀.Follows m) {v : Value} (hv : v.Within m.heap.size) (slot : Nat) :
    m₀.Follows { m with locals := m.locals.setIfInBounds slot v } where
  grows := ⟨h.grows.objects, h.grows.calls⟩
  grounded := by
    refine ⟨h.grounded.stack, fun w hw => ?_, h.grounded.fields, h.grounded.calls⟩
    obtain hw | rfl := Array.mem_or_eq_of_mem_setIfInBounds hw
    · exact h.grounded.locals w hw
    · exact hv

theorem Follows.answered (h : m₀.Follows m) (state : σ) : m₀.Follows { m with host := state } where
  grows := ⟨h.grows.objects, h.grows.calls⟩
  grounded := ⟨h.grounded.stack, h.grounded.locals, h.grounded.fields, h.grounded.calls⟩

theorem Follows.called (h : m₀.Follows m) {name : String} {args : List Value}
    (hargs : ∀ v ∈ args, v.Within m.heap.size) :
    m₀.Follows { m with calls := m.calls.push ⟨name, args⟩ } where
  grows := by
    refine ⟨h.grows.objects, h.grows.calls.trans ?_⟩
    rw [Array.toList_push]
    exact List.prefix_append _ _
  grounded := by
    refine ⟨h.grounded.stack, h.grounded.locals, h.grounded.fields, fun c hc => ?_⟩
    obtain hc | rfl := Array.mem_push.mp hc
    · exact h.grounded.calls c hc
    · exact hargs

/-- An object more, and a reference to it. -/
theorem Follows.allocate (h : m₀.Follows m) (className : String) :
    m₀.Follows (m.allocate className).2 ∧
      (m.allocate className).1.Within (m.allocate className).2.heap.size := by
  have hsize : (m.heap.push ⟨className, []⟩).size = m.heap.size + 1 := Array.size_push _
  have hmore : ∀ v : Value, v.Within m.heap.size → v.Within (m.heap.push ⟨className, []⟩).size :=
    fun v hv => hv.mono (by omega)
  refine ⟨⟨⟨fun address o ho => ?_, h.grows.calls⟩, ?_⟩, ?_⟩
  · obtain ⟨o', ho', hkept⟩ := h.grows.objects address o ho
    refine ⟨o', ?_, hkept⟩
    have hlt : address < m.heap.size := (Array.getElem?_eq_some_iff.mp ho').1
    show (m.heap.push _)[address]? = some o'
    rw [Array.getElem?_push, if_neg (by omega), ho']
  · refine ⟨fun v hv => hmore v (h.grounded.stack v hv), fun v hv => hmore v (h.grounded.locals v hv),
      fun o ho f hf => ?_, fun c hc v hv => hmore v (h.grounded.calls c hc v hv)⟩
    obtain ho | rfl := Array.mem_push.mp ho
    · exact hmore _ (h.grounded.fields o ho f hf)
    · cases hf
  · show m.heap.size < (m.heap.push _).size
    omega

/-- A field of an object is stored into. -/
theorem Follows.setField (h : m₀.Follows m) {v : Value} (hv : v.Within m.heap.size) (address : Nat)
    (name : String) :
    m₀.Follows { m with
      heap := m.heap.modify address fun o => { o with fields := Assoc.insert name v o.fields } } := by
  refine ⟨⟨fun a o ho => ?_, h.grows.calls⟩, ?_⟩
  · obtain ⟨o', ho', hclass, hnames⟩ := h.grows.objects a o ho
    show ∃ o'', (m.heap.modify address _)[a]? = some o'' ∧ _
    rw [Array.getElem?_modify, ho']
    split
    · exact ⟨_, rfl, hclass, List.Subset.trans hnames (Assoc.keys_subset_insert name v o'.fields)⟩
    · exact ⟨o', rfl, hclass, hnames⟩
  · have hfields : ∀ o ∈ m.heap.modify address
        (fun o => { o with fields := Assoc.insert name v o.fields }),
        ∀ f ∈ o.fields, f.2.Within m.heap.size := by
      intro o ho f hf
      obtain ⟨a, ha⟩ := Array.mem_iff_getElem?.mp ho
      rw [Array.getElem?_modify] at ha
      split at ha
      · obtain ⟨o', ho', rfl⟩ := Option.map_eq_some_iff.mp ha
        obtain rfl | hf := Assoc.mem_insert hf
        · exact hv
        · exact h.grounded.fields o' (Array.mem_of_getElem? ho') f hf
      · exact h.grounded.fields o (Array.mem_of_getElem? ha) f hf
    refine ⟨?_, ?_, ?_, ?_⟩ <;> simp only [Array.size_modify]
    · exact h.grounded.stack
    · exact h.grounded.locals
    · exact hfields
    · exact h.grounded.calls

/-- To have come from a machine with all references leading to objects lasts. -/
theorem lasting_follows (m₀ : Machine σ) : Lasting m₀.Follows fun n v => v.Within n where
  number hv := hv.mono (Nat.zero_le _)
  stack h := h.grounded.stack
  locals h := h.grounded.locals
  fields h := h.grounded.fields
  stacked h := h.stacked
  setLocal h := h.setLocal
  answered h := h.answered
  called h := h.called
  allocate h := h.allocate
  setField h := h.setField

end Changes

/-- What the host returns to an instruction, if it is a call, leads to an object. -/
def Answers (host : Host σ) (i : Instruction) (m : Machine σ) : Prop :=
  ∀ name argc returns v state, i = ⟨.invoke, some (.call name argc returns)⟩ →
    host.call m.host name (m.stack.take argc).reverse = some (.returns v, state) →
    v.Within m.heap.size

/-! ## Runs -/

/-- All along a run the host returns to calls only what leads to objects, as long as the
machine has only such references itself. -/
def AnswersAlong (host : Host σ) (code : Code) (m : Machine σ) : Prop :=
  ∀ pc m', Reaches host code (0, m.ready code) (pc, m') → m'.Grounded →
    ∀ i, code.instructions[pc]? = some i → m'.Answers host i

theorem Follows.ready {m : Machine σ} (h : m.Grounded) (code : Code) : m.Follows (m.ready code) where
  grows := ⟨(Grows.refl m).objects, (Grows.refl m).calls⟩
  grounded := by
    refine ⟨List.forall_mem_nil _, fun v hv => ?_, h.fields, h.calls⟩
    rw [(Array.mem_replicate.mp hv).2]
    trivial

theorem follows_of_reaches {m : Machine σ} {host : Host σ} {code : Code} (h : m.Grounded)
    (hhost : m.AnswersAlong host code) {c : Nat × Machine σ}
    (hreach : Reaches host code (0, m.ready code) c) : m.Follows c.2 := by
  induction hreach with
  | refl => exact .ready h code
  | tail hreach honward ih =>
      next b c =>
      have hnext := keeps_advance (lasting_follows m) ih (hhost b.1 b.2 hreach ih.grounded)
      rw [Onward] at honward
      rw [honward] at hnext
      exact hnext

/-- However a run ends, the machine has only grown in it. -/
theorem follows_execute {m : Machine σ} {host : Host σ} {code : Code} (h : m.Grounded)
    (hhost : m.AnswersAlong host code) (limit : Nat) :
    m.Follows (m.execute host limit code).2 := by
  obtain ⟨pc, m', hreach, hrun | ⟨outcome, m'', hended, hrun⟩⟩ :=
    runFrom_cases host code limit limit 0 (m.ready code)
  · rw [execute, hrun]
    exact follows_of_reaches h hhost hreach
  · have hfollows := follows_of_reaches h hhost hreach
    have hlast := keeps_advance (lasting_follows m) hfollows (hhost pc m' hreach hfollows.grounded)
    rw [hended] at hlast
    rw [execute, hrun]
    exact hlast.2

/-! ## Uses of one machine -/

/-- Something that is done with a machine. Names that the host answers to are registered
by a new state of the host. -/
inductive Use (σ : Type) where
  | register (className parent : String)
  | instruct (state : σ)
  | execute (limit : Nat) (code : Code)

/-- The machine after a use. -/
def use (host : Host σ) (m : Machine σ) : Use σ → Machine σ
  | .register className parent => { m with classes := m.classes.register className parent }
  | .instruct state => { m with host := state }
  | .execute limit code => (m.execute host limit code).2

/-- The machine after some uses, one after the other. -/
def useAll (host : Host σ) (m : Machine σ) (uses : List (Use σ)) : Machine σ :=
  uses.foldl (use host) m

/-- In every run among some uses the host returns only what leads to objects. -/
def AnswersAll (host : Host σ) (m : Machine σ) (uses : List (Use σ)) : Prop :=
  ∀ before limit code after, uses = before ++ .execute limit code :: after →
    (m.useAll host before).AnswersAlong host code

theorem Follows.use {m₀ m : Machine σ} {host : Host σ} (h : m₀.Follows m) {u : Use σ}
    (hhost : ∀ limit code, u = .execute limit code → m.AnswersAlong host code) :
    m₀.Follows (m.use host u) := by
  cases u with
  | register className parent =>
      exact ⟨⟨h.grows.objects, h.grows.calls⟩,
        ⟨h.grounded.stack, h.grounded.locals, h.grounded.fields, h.grounded.calls⟩⟩
  | instruct state => exact h.answered state
  | execute limit code =>
      have hrun := follows_execute h.grounded (hhost limit code rfl) limit
      exact ⟨h.grows.trans hrun.grows, hrun.grounded⟩

theorem follows_useAll {m₀ m : Machine σ} {host : Host σ} (h : m₀.Follows m) {uses : List (Use σ)}
    (hhost : m.AnswersAll host uses) : m₀.Follows (m.useAll host uses) := by
  induction uses generalizing m with
  | nil => exact h
  | cons u rest ih =>
      refine ih (h.use ?_) ?_
      · rintro limit code rfl
        exact hhost [] limit code rest rfl
      · rintro before limit code after rfl
        exact hhost (u :: before) limit code after rfl

/-- An instruction that goes through a reference finds an object there. -/
theorem step_ne_defect {m : Machine σ} (h : m.Grounded) (host : Host σ) (code : Code)
    {i : Instruction} (hi : i.opcode = .getField ∨ i.opcode = .putField) (d : Defect)
    (m' : Machine σ) : m.step host code i ≠ .stop (.defect d) m' := by
  have hfound : ∀ address, .ref address ∈ m.stack → address < m.heap.size :=
    fun address hmem => h.stack _ hmem
  obtain hi | hi := hi
  · simp only [step, hi, getField, withTop]
    split
    · rcases hstack : m.stack with _ | ⟨target, rest⟩
      · rintro ⟨⟩
      · cases target with
        | ref address =>
            simp only
            rw [Array.getElem?_eq_getElem (hfound address (by simp [hstack]))]
            simp only
            split <;> rintro ⟨⟩
        | _ => rintro ⟨⟩
    · rintro ⟨⟩
  · simp only [step, hi, putField, withTop]
    split
    · rcases hstack : m.stack with _ | ⟨v, _ | ⟨target, rest⟩⟩
      · rintro ⟨⟩
      · rintro ⟨⟩
      · cases target with
        | ref address =>
            simp only
            rw [if_pos (hfound address (by simp [hstack]))]
            rintro ⟨⟩
        | _ => rintro ⟨⟩
    · rintro ⟨⟩

/-- However often a machine is used and whatever code it runs: after every run its
references lead to objects, no object or call from before the run is lost, and neither
the fields of an object nor the class of a thrown one were looked for outside the
heap. -/
theorem grounded_after_runs {host : Host σ} {m : Machine σ} (hm : m.Grounded)
    {uses : List (Use σ)} (hhost : m.AnswersAll host uses) {before after : List (Use σ)}
    {limit : Nat} {code : Code} (huses : uses = before ++ .execute limit code :: after) :
    let m₁ := m.useAll host before
    let m₂ := (m₁.execute host limit code).2
    m₂.Grounded ∧ m₁.Grows m₂ ∧
      ∀ pc m' i, Reaches host code (0, m₁.ready code) (pc, m') → code.instructions[pc]? = some i →
        (i.opcode = .getField ∨ i.opcode = .putField →
          ∀ d m'', m'.step host code i ≠ .stop (.defect d) m'') ∧
        ∀ thrown m'', m'.step host code i = .raise thrown m'' → thrown.Within m''.heap.size := by
  intro m₁ m₂
  have hbefore : m.AnswersAll host before := by
    rintro b l c a rfl
    exact hhost b l c (a ++ .execute limit code :: after) (by simp [huses])
  have hm₁ : m.Follows m₁ := follows_useAll ⟨.refl m, hm⟩ hbefore
  have hrun : m₁.AnswersAlong host code := hhost before limit code after huses
  have hm₂ : m₁.Follows m₂ := follows_execute hm₁.grounded hrun limit
  refine ⟨hm₂.grounded, hm₂.grows, fun pc m' i hreach hi => ?_⟩
  have hm' : m₁.Follows m' := follows_of_reaches hm₁.grounded hrun hreach
  refine ⟨fun hop d m'' => step_ne_defect hm'.grounded host code hop d m'', fun thrown m'' hs => ?_⟩
  have hkeeps := keeps_step (lasting_follows m₁) code hm' (hrun pc m' hreach hm'.grounded i hi)
  rw [hs] at hkeeps
  exact hkeeps.2

/-- A host that returns the first argument of every call. -/
def echo : Host Unit :=
  ⟨fun _ _ args => some (.returns (args.headD .null), ())⟩

theorem echo_answers {m : Machine Unit} (h : m.Grounded) (i : Instruction) : m.Answers echo i := by
  rintro name argc returns v state - hreply
  have hv : (m.stack.take argc).reverse.headD .null = v := by
    injection hreply with hreply
    injection hreply with hreply
    injection hreply
  cases hargs : (m.stack.take argc).reverse with
  | nil =>
      rw [hargs] at hv
      subst hv
      trivial
  | cons w rest =>
      rw [hargs] at hv
      have hmem : w ∈ (m.stack.take argc).reverse := by rw [hargs]; exact List.mem_cons_self
      obtain rfl : w = v := hv
      exact h.stack w (List.mem_of_mem_take (List.mem_reverse.mp hmem))

/-- Keeps what a call returns in a slot that is not there. -/
def losing : Code where
  instructions := #[⟨.new, some (.name "Box")⟩, ⟨.invoke, some (.call "keep" 1 true)⟩,
    ⟨.store, some (.slot 3)⟩]

/-- Stores an object into a field of its own and reads it back into thin air. -/
def looping : Code where
  instructions := #[⟨.new, some (.name "Box")⟩, ⟨.dup, none⟩, ⟨.dup, none⟩,
    ⟨.putField, some (.name "next")⟩, ⟨.getField, some (.name "next")⟩, ⟨.throw, none⟩]

theorem grounded_after_runs_looping :
    let m₁ : Machine Unit := useAll echo { host := () }
      [.execute 10 losing, .register "Box" "Error", .instruct ()]
    let run := m₁.execute echo 10 looping
    (({ host := () } : Machine Unit).execute echo 10 losing).1 =
        .stopped (.defect (.outOfBounds 0 3)) ∧
      run.1 = .stopped (.uncaught "Box") ∧ run.2.Grounded ∧ m₁.Grows run.2 := by
  intro m₁ run
  have hm : ({ host := () } : Machine Unit).Grounded :=
    ⟨by simp, by simp, by simp, by simp⟩
  have hhost : ({ host := () } : Machine Unit).AnswersAll echo
      [.execute 10 losing, .register "Box" "Error", .instruct (), .execute 10 looping] :=
    fun _ _ _ _ _ _ _ _ hgrounded i _ => echo_answers hgrounded i
  have h := @grounded_after_runs _ echo _ hm _ hhost
    [.execute 10 losing, .register "Box" "Error", .instruct ()] [] 10 looping rfl
  exact ⟨by decide, by decide, h.1, h.2.1⟩

end Machine

end MethodCompiler
