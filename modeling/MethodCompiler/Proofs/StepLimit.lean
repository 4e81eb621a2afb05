import MethodCompiler.Proofs.Invariants

/-!
# A limit only cuts a run short

No machine knows the limit of its run: it appears only where a run asks whether it may fetch
one more instruction. So two runs of the same code under different limits are the same run as
far as both go, with whatever host, and even if the code was put together by hand.

`EndsIn` is that run without a limit, and the turn in which it ends by itself. The limit must be
at least that number for the end to be seen, and what lies beyond does not matter. A run that is
cut short has at least not called anything that a longer one does not call: each turn only adds
to the log of calls, and `logs_advance` says so, together with the fact that none of them
complains about a limit.
-/

namespace MethodCompiler

variable {σ : Type}

namespace Machine

/-- A log of calls only gets longer, whatever the values are. -/
theorem lasting_calls (log : List Call) :
    Lasting (fun m : Machine σ => log <+: m.calls.toList) fun _ _ => True where
  number _ := trivial
  stack _ _ _ := trivial
  locals _ _ _ := trivial
  fields _ _ _ _ _ := trivial
  stacked h _ := h
  setLocal h _ _ := h
  answered h _ := h
  called h _ := by
    rw [Array.toList_push]
    exact h.trans (List.prefix_append _ _)
  allocate h _ := ⟨h, trivial⟩
  setField h _ _ _ := h

theorem logs_advance (m : Machine σ) (host : Host σ) (code : Code) (pc : Nat) :
    (m.advance host code pc).Keeps fun m' => m.calls.toList <+: m'.calls.toList :=
  keeps_advance (lasting_calls _) (List.prefix_refl _) fun _ _ _ _ _ _ _ _ _ => trivial

/-! ## Runs without a limit -/

/-- A run that is at an instruction ends by itself in its `k`-th turn from there, that one
counted, even if there is no instruction left to fetch in it. -/
inductive EndsIn (host : Host σ) (code : Code) (outcome : Outcome) (m' : Machine σ) :
    (k : Nat) → (pc : Nat) → Machine σ → Prop
  | last {pc : Nat} {m : Machine σ} (h : m.advance host code pc = .ended outcome m') :
      EndsIn host code outcome m' 1 pc m
  | more {k pc pc₁ : Nat} {m m₁ : Machine σ} (h : m.advance host code pc = .onward pc₁ m₁)
      (hrest : EndsIn host code outcome m' k pc₁ m₁) : EndsIn host code outcome m' (k + 1) pc m

section Runs

variable {host : Host σ} {code : Code} {outcome : Outcome} {m m' : Machine σ} {k pc : Nat}

/-- What a run ends with by itself is not the complaint about a limit. -/
theorem EndsIn.ne_stepLimit (h : EndsIn host code outcome m' k pc m) (limit : Nat) :
    outcome ≠ .stopped (.stepLimit limit) := by
  induction h with
  | @last pc m h =>
      have hlogs := logs_advance m host code pc
      rw [h] at hlogs
      exact hlogs.1 limit
  | more _ _ ih => exact ih

/-- A run that may take as many turns as it needs ends by itself. -/
theorem EndsIn.runFrom_eq (h : EndsIn host code outcome m' k pc m) (limit : Nat) {steps : Nat}
    (hk : k ≤ steps) : runFrom host code limit steps pc m = (outcome, m') := by
  induction h generalizing steps with
  | last h =>
      obtain ⟨n, rfl⟩ : ∃ n, steps = n + 1 := ⟨steps - 1, by omega⟩
      rw [runFrom, h]
  | more h _ ih =>
      obtain ⟨n, rfl⟩ : ∃ n, steps = n + 1 := ⟨steps - 1, by omega⟩
      rw [runFrom, h]
      exact ih (by omega)

/-- A run that may take fewer turns than it needs is cut short. -/
theorem EndsIn.runFrom_of_lt (h : EndsIn host code outcome m' k pc m) (limit : Nat) {steps : Nat}
    (hk : steps < k) :
    (runFrom host code limit steps pc m).1 = .stopped (.stepLimit limit) := by
  induction h generalizing steps with
  | last _ =>
      obtain rfl : steps = 0 := by omega
      rfl
  | more h _ ih =>
      cases steps with
      | zero => rfl
      | succ n =>
          rw [runFrom, h]
          exact ih (by omega)

/-- A run that is not cut short has ended by itself. -/
theorem endsIn_of_runFrom {limit steps : Nat}
    (h : (runFrom host code limit steps pc m).1 ≠ .stopped (.stepLimit limit)) :
    ∃ k ≤ steps, EndsIn host code (runFrom host code limit steps pc m).1
      (runFrom host code limit steps pc m).2 k pc m := by
  induction steps generalizing pc m with
  | zero => exact absurd rfl h
  | succ n ih =>
      rw [runFrom] at h ⊢
      cases hturn : m.advance host code pc with
      | onward pc₁ m₁ =>
          rw [hturn] at h
          obtain ⟨k, hk, hends⟩ := ih h
          exact ⟨k + 1, by omega, .more hturn hends⟩
      | ended outcome m₁ => exact ⟨1, by omega, .last hturn⟩

/-- A run only adds to the log of calls. -/
theorem calls_prefix_runFrom (host : Host σ) (code : Code) (limit steps pc : Nat)
    (m : Machine σ) :
    m.calls.toList <+: (runFrom host code limit steps pc m).2.calls.toList := by
  induction steps generalizing pc m with
  | zero => exact List.prefix_refl _
  | succ n ih =>
      have hlogs := logs_advance m host code pc
      rw [runFrom]
      cases hturn : m.advance host code pc with
      | onward pc₁ m₁ =>
          rw [hturn] at hlogs
          exact hlogs.trans (ih pc₁ m₁)
      | ended outcome m₁ =>
          rw [hturn] at hlogs
          exact hlogs.2

/-- A run that may take more turns makes the same calls and then perhaps others. -/
theorem runFrom_calls_prefix (host : Host σ) (code : Code) (limit limit' : Nat)
    {steps steps' : Nat} (h : steps ≤ steps') (pc : Nat) (m : Machine σ) :
    (runFrom host code limit steps pc m).2.calls.toList <+:
      (runFrom host code limit' steps' pc m).2.calls.toList := by
  induction steps generalizing steps' pc m with
  | zero => exact calls_prefix_runFrom host code limit' steps' pc m
  | succ n ih =>
      obtain ⟨n', rfl⟩ : ∃ n', steps' = n' + 1 := ⟨steps' - 1, by omega⟩
      rw [runFrom, runFrom]
      -- both runs take the same turn, since neither limit plays a part in it
      cases m.advance host code pc with
      | onward pc₁ m₁ => exact ih (by omega) pc₁ m₁
      | ended outcome m₁ => exact List.prefix_refl _

end Runs

/-! ## Limits -/

/-- A limit only cuts a run short. A run that is not cut short is the same under every higher
limit, and one that is cut short has made the first of the calls that are made under a higher
limit. A run that ends by itself in its `k`-th turn is cut short by exactly the limits
below `k`, and under all others it is seen to end. -/
theorem limit_cuts_short (m : Machine σ) (host : Host σ) (code : Code) :
    (∀ limit limit', limit ≤ limit' →
      ((m.execute host limit code).1 ≠ .stopped (.stepLimit limit) →
        m.execute host limit' code = m.execute host limit code) ∧
      ((m.execute host limit code).1 = .stopped (.stepLimit limit) →
        (m.execute host limit code).2.calls.toList <+:
          (m.execute host limit' code).2.calls.toList)) ∧
    ∀ k outcome m', EndsIn host code outcome m' k 0 (m.ready code) → ∀ limit,
      ((m.execute host limit code).1 = .stopped (.stepLimit limit) ↔ limit < k) ∧
      (k ≤ limit → m.execute host limit code = (outcome, m')) := by
  constructor
  · intro limit limit' hle
    refine ⟨fun hended => ?_, fun _ => runFrom_calls_prefix host code limit limit' hle 0 _⟩
    obtain ⟨k, hk, hends⟩ := endsIn_of_runFrom hended
    exact hends.runFrom_eq limit' (by omega)
  · intro k outcome m' hends limit
    have hrun : k ≤ limit → m.execute host limit code = (outcome, m') :=
      fun hk => hends.runFrom_eq limit hk
    refine ⟨⟨fun hcut => ?_, fun hlt => hends.runFrom_of_lt limit hlt⟩, hrun⟩
    refine Nat.lt_of_not_le fun hk => ?_
    rw [hrun hk] at hcut
    exact hends.ne_stepLimit limit hcut

/-- Calls until something is thrown, which is caught, and then runs off the end. -/
def polling : Code where
  instructions := #[⟨.invoke, some (.call "poll" 0 true)⟩, ⟨.pop, none⟩,
    ⟨.goto, some (.label 0)⟩, ⟨.pop, none⟩]
  labels := #[some 0]
  handlers := [⟨0, 3, 3, some "Exception"⟩]

/-- The second call throws, and the run ends in the sixth turn, which fetches nothing. -/
theorem limit_cuts_short_polling :
    let m : Machine Script := { host := [("poll", [.returns (.int 1), .throws "Done"])] }
    let run := fun limit => m.execute Script.host limit polling
    (∃ m', EndsIn Script.host polling (.stopped (.ranOff 4)) m' 6 0 (m.ready polling)) ∧
      (run 3).1 = .stopped (.stepLimit 3) ∧ (run 3).2.calls.toList <+: (run 6).2.calls.toList ∧
      (run 5).1 = .stopped (.stepLimit 5) ∧ (run 6).1 = .stopped (.ranOff 4) ∧
      run 9 = run 6 := by
  intro m run
  have h := limit_cuts_short m Script.host polling
  have hends : EndsIn Script.host polling (.stopped (.ranOff 4)) (run 6).2 6 0
      (m.ready polling) :=
    .more rfl (.more rfl (.more rfl (.more rfl (.more rfl (.last rfl)))))
  have h₆ : (run 6).1 = .stopped (.ranOff 4) := by decide
  have h₃ : (run 3).1 = .stopped (.stepLimit 3) := by decide
  refine ⟨⟨_, hends⟩, h₃, (h.1 3 6 (by decide)).2 h₃, ?_, h₆, (h.1 6 9 (by decide)).1 ?_⟩
  · exact (h.2 6 _ _ hends 5).1.mpr (by decide)
  · intro hcut
    rw [show (m.execute Script.host 6 polling).1 = _ from h₆] at hcut
    cases hcut

end Machine

end MethodCompiler
