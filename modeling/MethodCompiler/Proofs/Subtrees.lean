import MethodCompiler.Proofs.Around

/-!
# The parts of a tree

The expressions and statements of a tree, at any depth and right inside one another. The
code of the statements right inside a loop or a switch is generated inside that construct,
except for what a for loop does first.
-/

namespace MethodCompiler.Annotated

mutual

/-- An expression and all expressions inside it. -/
def Expr.parts (e : Expr) : List Expr :=
  e :: match e with
  | .field _ target _ => target.parts
  | .widen _ inner => inner.parts
  | .assign _ (.slot _) value _ => value.parts
  | .assign _ (.field target _) value _ => target.parts ++ value.parts
  | .binary _ _ left right => left.parts ++ right.parts
  | .unary _ _ operand => operand.parts
  | .increment _ _ (.slot _) _ => []
  | .increment _ _ (.field target _) _ => target.parts
  | .call _ _ args => Expr.allParts args
  | .int .. | .long .. | .double .. | .bool .. | .null _ | .slot .. | .new .. | .error _ => []
termination_by structural e

def Expr.allParts (es : List Expr) : List Expr :=
  match es with
  | [] => []
  | e :: rest => e.parts ++ Expr.allParts rest
termination_by structural es

end

/-- What holds of all parts of an expression holds of itself and of the parts further in. -/
theorem Expr.forall_parts {P : Expr → Prop} {e : Expr} (h : ∀ part ∈ e.parts, P part)
    {rest : List Expr} (hparts : e.parts = e :: rest) : P e ∧ ∀ part ∈ rest, P part := by
  rwa [hparts, List.forall_mem_cons] at h

mutual

/-- A statement of a tree and all statements inside it. -/
def Stmt.parts (s : Stmt) : List Stmt :=
  s :: match s with
  | .block body => Stmt.allParts body
  | .ifElse _ s none => s.parts
  | .ifElse _ s (some t) => s.parts ++ t.parts
  | .whileLoop _ _ body | .doLoop _ body _ => body.parts
  | .forLoop _ init _ update body => Stmt.allParts init ++ Stmt.allParts update ++ body.parts
  | .switch _ _ _ groups _ => Stmt.groupParts groups
  | .tryCatch body catches none => Stmt.allParts body ++ Stmt.clauseParts catches
  | .tryCatch body catches (some ⟨_, last⟩) =>
    Stmt.allParts body ++ Stmt.clauseParts catches ++ Stmt.allParts last
  | .localInit .. | .expression .. | .breakJump _ | .continueJump _ | .throw _ | .empty => []
termination_by structural s

def Stmt.allParts (body : List Stmt) : List Stmt :=
  match body with
  | [] => []
  | s :: rest => s.parts ++ Stmt.allParts rest
termination_by structural body

def Stmt.groupParts (groups : List (List Stmt)) : List Stmt :=
  match groups with
  | [] => []
  | body :: rest => Stmt.allParts body ++ Stmt.groupParts rest
termination_by structural groups

def Stmt.clauseParts (clauses : List (Catch Stmt)) : List Stmt :=
  match clauses with
  | [] => []
  | ⟨_, _, body⟩ :: rest => Stmt.allParts body ++ Stmt.clauseParts rest
termination_by structural clauses

end

/-- The expressions right inside a statement. -/
def Stmt.exprs : Stmt → List Expr
  | .localInit _ e | .expression e _ | .throw e | .ifElse e _ _ | .whileLoop _ e _ | .doLoop _ _ e
  | .switch _ _ e _ _ => [e]
  | .forLoop _ _ c _ _ => c.toList
  | .block _ | .tryCatch .. | .breakJump _ | .continueJump _ | .empty => []

/-- The frame of a statement that is a construct. -/
def Stmt.frame? : Stmt → Option Frame
  | .whileLoop j _ _ => some (j.frame .whileLoop)
  | .doLoop j _ _ => some (j.frame .doLoop)
  | .forLoop j _ _ _ _ => some (j.frame .forLoop)
  | .switch id hasBreak _ _ _ => some (.switch ⟨id, hasBreak⟩)
  | _ => none

/-- A statement that is neither a try nor a jump. -/
def Stmt.Flat : Stmt → Prop
  | .tryCatch .. | .breakJump _ | .continueJump _ => False
  | _ => True

/-- The statements right inside a flat statement that are generated where it is. -/
def Stmt.outer : Stmt → List Stmt
  | .block body => body
  | .ifElse _ s t => s :: t.toList
  | .forLoop _ init _ _ _ => init
  | _ => []

/-- The statements right inside a construct that are generated inside it. -/
def Stmt.inner : Stmt → List Stmt
  | .whileLoop _ _ body | .doLoop _ body _ => [body]
  | .forLoop _ _ _ update body => update ++ [body]
  | .switch _ _ _ groups _ => groups.flatten
  | _ => []

theorem Stmt.allParts_eq (body : List Stmt) : Stmt.allParts body = body.flatMap Stmt.parts := by
  induction body with
  | nil => rfl
  | cons s rest ih => rw [Stmt.allParts, ih, List.flatMap_cons]

theorem Stmt.groupParts_eq (groups : List (List Stmt)) :
    Stmt.groupParts groups = groups.flatten.flatMap Stmt.parts := by
  induction groups with
  | nil => rfl
  | cons body rest ih =>
      rw [Stmt.groupParts, ih, Stmt.allParts_eq, List.flatten_cons, List.flatMap_append]

theorem Stmt.mem_parts (s : Stmt) : s ∈ s.parts := by
  rw [Stmt.parts.eq_def]
  exact List.mem_cons_self

theorem Stmt.parts_of_flat {s : Stmt} (hs : s.Flat) :
    s.parts = s :: (s.outer ++ s.inner).flatMap Stmt.parts := by
  match s with
  | .block _ | .forLoop .. => simp [Stmt.parts, Stmt.outer, Stmt.inner, Stmt.allParts_eq]
  | .switch .. => simp [Stmt.parts, Stmt.outer, Stmt.inner, Stmt.groupParts_eq]
  | .ifElse _ _ none | .ifElse _ _ (some _) | .whileLoop .. | .doLoop .. | .localInit ..
  | .expression .. | .throw _ | .empty => simp [Stmt.parts, Stmt.outer, Stmt.inner]
  | .tryCatch .. | .breakJump _ | .continueJump _ => exact hs.elim

/-- What holds of all parts of a flat statement holds of all parts of what is right inside it. -/
theorem Stmt.forall_parts {P : Stmt → Prop} {s t : Stmt} (hs : s.Flat)
    (h : ∀ part ∈ s.parts, P part) (ht : t ∈ s.outer ++ s.inner) : ∀ part ∈ t.parts, P part := by
  intro part hpart
  rw [Stmt.parts_of_flat hs] at h
  exact h part (List.mem_cons_of_mem _ (List.mem_flatMap.mpr ⟨t, ht, hpart⟩))

theorem Stmt.sizeOf_lt_of_mem {s t : Stmt} (ht : t ∈ s.outer ++ s.inner) :
    sizeOf t < sizeOf s := by
  match s with
  | .block body =>
      have hlt := List.sizeOf_lt_of_mem (by simpa [Stmt.outer, Stmt.inner] using ht)
      rw [Stmt.block.sizeOf_spec]
      omega
  | .ifElse _ _ none | .whileLoop .. | .doLoop .. =>
      obtain rfl := List.mem_singleton.mp ht
      simp +arith
  | .ifElse _ _ (some _) =>
      obtain rfl | rfl : t = _ ∨ t = _ := by simpa [Stmt.outer, Stmt.inner] using ht
      · simp +arith
      · simp +arith
  | .forLoop _ init _ update body =>
      rw [Stmt.forLoop.sizeOf_spec]
      obtain ht | ht | rfl : t ∈ init ∨ t ∈ update ∨ t = body := by
        simpa [Stmt.outer, Stmt.inner] using ht
      · have := List.sizeOf_lt_of_mem ht
        omega
      · have := List.sizeOf_lt_of_mem ht
        omega
      · omega
  | .switch _ _ _ groups _ =>
      rw [Stmt.switch.sizeOf_spec]
      obtain ⟨body, hbody, ht⟩ := List.mem_flatten.mp (by simpa [Stmt.outer, Stmt.inner] using ht)
      have := List.sizeOf_lt_of_mem hbody
      have := List.sizeOf_lt_of_mem ht
      omega
  | .localInit .. | .expression .. | .throw _ | .empty | .tryCatch .. | .breakJump _
  | .continueJump _ => cases ht

/-! ## Statements right inside -/

/-- The statements right inside a statement. -/
def Stmt.children : Stmt → List Stmt
  | .tryCatch guarded clauses none => guarded ++ clauses.flatMap (·.body)
  | .tryCatch guarded clauses (some ⟨_, last⟩) => guarded ++ clauses.flatMap (·.body) ++ last
  | s => s.outer ++ s.inner

theorem Stmt.clauseParts_eq (clauses : List (Catch Stmt)) :
    Stmt.clauseParts clauses = (clauses.flatMap (·.body)).flatMap Stmt.parts := by
  induction clauses with
  | nil => rfl
  | cons clause rest ih =>
      rw [Stmt.clauseParts, ih, Stmt.allParts_eq, List.flatMap_cons, List.flatMap_append]

theorem Stmt.parts_eq (s : Stmt) : s.parts = s :: s.children.flatMap Stmt.parts := by
  match s with
  | .tryCatch _ _ none | .tryCatch _ _ (some ⟨_, _⟩) =>
      simp [Stmt.parts, Stmt.children, Stmt.allParts_eq, Stmt.clauseParts_eq]
  | .breakJump _ | .continueJump _ => rfl
  | .block _ | .localInit .. | .expression .. | .throw _ | .empty | .ifElse .. | .whileLoop ..
  | .doLoop .. | .forLoop .. | .switch .. => exact Stmt.parts_of_flat trivial

theorem Stmt.sizeOf_lt_of_clause {clauses : List (Catch Stmt)} {t : Stmt}
    (ht : t ∈ clauses.flatMap (·.body)) : sizeOf t < sizeOf clauses := by
  obtain ⟨⟨type, slot, body⟩, hclause, ht⟩ := List.mem_flatMap.mp ht
  have hlt := List.sizeOf_lt_of_mem hclause
  have hlt' : sizeOf t < sizeOf body := List.sizeOf_lt_of_mem ht
  rw [Catch.mk.sizeOf_spec] at hlt
  omega

theorem Stmt.sizeOf_lt_of_child {s t : Stmt} (ht : t ∈ s.children) : sizeOf t < sizeOf s := by
  match s with
  | .tryCatch _ _ none =>
      rw [Stmt.tryCatch.sizeOf_spec]
      obtain ht | ht := List.mem_append.mp ht
      · have := List.sizeOf_lt_of_mem ht
        omega
      · have := Stmt.sizeOf_lt_of_clause ht
        omega
  | .tryCatch _ _ (some ⟨_, _⟩) =>
      rw [Stmt.tryCatch.sizeOf_spec, Option.some.sizeOf_spec, Finally.mk.sizeOf_spec]
      obtain ht | ht := List.mem_append.mp ht
      · obtain ht | ht := List.mem_append.mp ht
        · have := List.sizeOf_lt_of_mem ht
          omega
        · have := Stmt.sizeOf_lt_of_clause ht
          omega
      · have := List.sizeOf_lt_of_mem ht
        omega
  | .block _ | .localInit .. | .expression .. | .throw _ | .empty | .ifElse .. | .whileLoop ..
  | .doLoop .. | .forLoop .. | .switch .. | .breakJump _ | .continueJump _ =>
      exact Stmt.sizeOf_lt_of_mem ht

/-- What goes over to the statements right inside holds of all parts. -/
theorem Stmt.forall_parts_of_child {P : Stmt → Prop} (hP : ∀ s, P s → ∀ t ∈ s.children, P t)
    {s : Stmt} (hs : P s) : ∀ t ∈ s.parts, P t := by
  intro t ht
  rw [Stmt.parts_eq] at ht
  obtain rfl | ht := List.mem_cons.mp ht
  · exact hs
  · obtain ⟨child, hchild, ht⟩ := List.mem_flatMap.mp ht
    have := Stmt.sizeOf_lt_of_child hchild
    exact Stmt.forall_parts_of_child hP (hP s hs child hchild) t ht
termination_by sizeOf s

theorem Stmt.forall_allParts_of_child {P : Stmt → Prop} (hP : ∀ s, P s → ∀ t ∈ s.children, P t)
    {body : List Stmt} (h : ∀ s ∈ body, P s) : ∀ t ∈ Stmt.allParts body, P t := by
  intro t ht
  rw [Stmt.allParts_eq] at ht
  obtain ⟨s, hs, ht⟩ := List.mem_flatMap.mp ht
  exact Stmt.forall_parts_of_child hP (h s hs) t ht

/-! ## Parts of sound statements -/

section Sound

variable {inner : Option Frame} {lo hi : Nat} {s t : Stmt}

theorem Stmt.AllSound.mem {body : List Stmt} (h : Stmt.AllSound inner lo body hi) (ht : t ∈ body) :
    ∃ lo' hi', lo ≤ lo' ∧ hi' ≤ hi ∧ t.Sound inner lo' hi' := by
  induction body generalizing lo with
  | nil => cases ht
  | cons s rest ih =>
      obtain ⟨m, hs, hrest⟩ := h
      obtain rfl | ht := List.mem_cons.mp ht
      · exact ⟨lo, m, Nat.le_refl lo, hrest.le, hs⟩
      · obtain ⟨lo', hi', hlo, hhi, ht⟩ := ih hrest ht
        exact ⟨lo', hi', Nat.le_trans hs.le hlo, hhi, ht⟩

theorem Stmt.GroupsSound.mem {groups : List (List Stmt)} (h : Stmt.GroupsSound inner lo groups hi)
    (ht : t ∈ groups.flatten) : ∃ lo' hi', lo ≤ lo' ∧ hi' ≤ hi ∧ t.Sound inner lo' hi' := by
  induction groups generalizing lo with
  | nil => cases ht
  | cons body rest ih =>
      obtain ⟨m, hbody, hrest⟩ := h
      have hle := hrest.le
      have hle' := hbody.le
      obtain ht | ht := List.mem_append.mp ht
      · obtain ⟨lo', hi', hlo, hhi, ht⟩ := hbody.mem ht
        exact ⟨lo', hi', hlo, Nat.le_trans hhi hle, ht⟩
      · obtain ⟨lo', hi', hlo, hhi, ht⟩ := ih hrest ht
        exact ⟨lo', hi', Nat.le_trans hle' hlo, hhi, ht⟩

/-- What is generated where a sound statement is stands inside the same construct. -/
theorem Stmt.Sound.of_mem_outer (h : s.Sound inner lo hi) (ht : t ∈ s.outer) :
    ∃ lo' hi', lo ≤ lo' ∧ hi' ≤ hi ∧ t.Sound inner lo' hi' := by
  match s with
  | .block _ => exact Stmt.AllSound.mem h ht
  | .ifElse _ _ none =>
      obtain rfl := List.mem_singleton.mp ht
      exact ⟨lo, hi, Nat.le_refl lo, Nat.le_refl hi, h.2⟩
  | .ifElse _ s (some t') =>
      obtain ⟨-, m, hs, ht'⟩ := h
      obtain rfl | rfl : t = s ∨ t = t' := by simpa [Stmt.outer] using ht
      · exact ⟨lo, m, Nat.le_refl lo, ht'.le, hs⟩
      · exact ⟨m, hi, hs.le, Nat.le_refl hi, ht'⟩
  | .forLoop .. =>
      obtain ⟨-, m, hinit, hupdate, hbody⟩ := h
      have hid := hupdate.le
      have hlt := hbody.le
      obtain ⟨lo', hi', hlo, hhi, ht⟩ := hinit.mem ht
      exact ⟨lo', hi', hlo, by omega, ht⟩
  | .localInit .. | .expression .. | .throw _ | .empty | .whileLoop .. | .doLoop .. | .switch ..
  | .tryCatch .. | .breakJump _ | .continueJump _ => cases ht

/-- What is generated inside a sound construct stands inside it too, or next to it as the
updates of a for loop do. -/
theorem Stmt.Sound.of_mem_inner (h : s.Sound inner lo hi) (ht : t ∈ s.inner) :
    ∃ f, s.frame? = some f ∧ lo ≤ f.id ∧ f.id < hi ∧ ∃ lo' hi',
      f.id < lo' ∧ hi' ≤ hi ∧ t.Sound (some f) lo' hi' ∨
      lo ≤ lo' ∧ hi' ≤ f.id ∧ t.Sound inner lo' hi' := by
  match s with
  | .whileLoop .. | .doLoop .. =>
      obtain ⟨-, rfl, hbody⟩ := h
      obtain rfl := List.mem_singleton.mp ht
      exact ⟨_, rfl, Nat.le_refl _, hbody.le, _, hi, .inl ⟨Nat.lt_succ_self _, Nat.le_refl hi, hbody⟩⟩
  | .forLoop .. =>
      obtain ⟨-, m, hinit, hupdate, hbody⟩ := h
      have hm := hinit.le
      refine ⟨_, rfl, Nat.le_trans hm hupdate.le, hbody.le, ?_⟩
      obtain ht | ht := List.mem_append.mp ht
      · obtain ⟨lo', hi', hlo, hhi, ht⟩ := hupdate.mem ht
        exact ⟨lo', hi', .inr ⟨Nat.le_trans hm hlo, hhi, ht⟩⟩
      · obtain rfl := List.mem_singleton.mp ht
        exact ⟨_, hi, .inl ⟨Nat.lt_succ_self _, Nat.le_refl hi, hbody⟩⟩
  | .switch .. =>
      obtain ⟨-, -, rfl, hgroups⟩ := h
      obtain ⟨lo', hi', hlo, hhi, ht⟩ := hgroups.mem ht
      exact ⟨_, rfl, Nat.le_refl _, hgroups.le, lo', hi', .inl ⟨hlo, hhi, ht⟩⟩
  | .block _ | .localInit .. | .expression .. | .throw _ | .empty | .ifElse .. | .tryCatch ..
  | .breakJump _ | .continueJump _ => cases ht

theorem Stmt.Sound.of_mem (h : s.Sound inner lo hi) (ht : t ∈ s.outer ++ s.inner) :
    ∃ inner' lo' hi', t.Sound inner' lo' hi' ∧ hi' ≤ hi := by
  obtain ht | ht := List.mem_append.mp ht
  · obtain ⟨lo', hi', -, hhi, ht⟩ := h.of_mem_outer ht
    exact ⟨inner, lo', hi', ht, hhi⟩
  · obtain ⟨f, -, -, hlt, lo', hi', ⟨-, hhi, ht⟩ | ⟨-, hhi, ht⟩⟩ := h.of_mem_inner ht
    · exact ⟨some f, lo', hi', ht, hhi⟩
    · exact ⟨inner, lo', hi', ht, by omega⟩

theorem Stmt.ClausesSound.mem {clauses : List (Catch Stmt)}
    (h : Stmt.ClausesSound inner lo clauses hi) (ht : t ∈ clauses.flatMap (·.body)) :
    ∃ lo' hi', hi' ≤ hi ∧ t.Sound inner lo' hi' := by
  induction clauses generalizing lo with
  | nil => cases ht
  | cons clause rest ih =>
      obtain ⟨m, hbody, hrest⟩ := h
      obtain ht | ht := List.mem_append.mp ht
      · obtain ⟨lo', hi', -, hhi, ht⟩ := hbody.mem ht
        exact ⟨lo', hi', Nat.le_trans hhi hrest.le, ht⟩
      · exact ih hrest ht

/-- A statement that is sound as part of some body whose constructs have numbers below
`top`. -/
def Stmt.SoundBelow (top : Nat) (s : Stmt) : Prop :=
  ∃ inner lo hi, s.Sound inner lo hi ∧ hi ≤ top

variable {top : Nat}

theorem Stmt.SoundBelow.exprs (h : s.SoundBelow top) : ∀ e ∈ s.exprs, ∃ used, e.Sound used := by
  obtain ⟨inner, lo, hi, h, -⟩ := h
  match s with
  | .localInit .. | .throw _ | .whileLoop .. | .doLoop .. | .switch .. | .ifElse _ _ none
  | .ifElse _ _ (some _) => exact List.forall_mem_singleton.mpr ⟨true, h.1⟩
  | .expression .. => exact List.forall_mem_singleton.mpr ⟨false, h.1⟩
  | .forLoop _ _ c _ _ =>
      intro e he
      exact ⟨true, h.1 e (Option.mem_toList.mp he)⟩
  | .block _ | .tryCatch .. | .breakJump _ | .continueJump _ | .empty =>
      intro e he
      cases he

theorem Stmt.SoundBelow.frame (h : s.SoundBelow top) (ht : t ∈ s.inner) {f : Frame}
    (hf : s.frame? = some f) : f.id < top := by
  obtain ⟨inner, lo, hi, h, htop⟩ := h
  obtain ⟨f', hf', -, hlt, -⟩ := h.of_mem_inner ht
  obtain rfl := Option.some.inj (hf.symm.trans hf')
  exact Nat.lt_of_lt_of_le hlt htop

theorem Stmt.SoundBelow.child (h : s.SoundBelow top) (ht : t ∈ s.children) : t.SoundBelow top := by
  obtain ⟨inner, lo, hi, h, htop⟩ := h
  match s with
  | .tryCatch _ _ none =>
      obtain ⟨m, hguarded, hclauses⟩ := h
      obtain ht | ht := List.mem_append.mp ht
      · obtain ⟨lo', hi', -, hhi, ht⟩ := hguarded.mem ht
        exact ⟨inner, lo', hi', ht, Nat.le_trans hhi (Nat.le_trans hclauses.le htop)⟩
      · obtain ⟨lo', hi', hhi, ht⟩ := hclauses.mem ht
        exact ⟨inner, lo', hi', ht, Nat.le_trans hhi htop⟩
  | .tryCatch _ _ (some ⟨_, _⟩) =>
      obtain ⟨m, m', hguarded, hclauses, hbody⟩ := h
      have hm := hclauses.le
      have hm' := hbody.le
      obtain ht | ht := List.mem_append.mp ht
      · obtain ht | ht := List.mem_append.mp ht
        · obtain ⟨lo', hi', -, hhi, ht⟩ := hguarded.mem ht
          exact ⟨inner, lo', hi', ht, by omega⟩
        · obtain ⟨lo', hi', hhi, ht⟩ := hclauses.mem ht
          exact ⟨inner, lo', hi', ht, by omega⟩
      · obtain ⟨lo', hi', -, hhi, ht⟩ := hbody.mem ht
        exact ⟨inner, lo', hi', ht, Nat.le_trans hhi htop⟩
  | .block _ | .localInit .. | .expression .. | .throw _ | .empty | .ifElse .. | .whileLoop ..
  | .doLoop .. | .forLoop .. | .switch .. | .breakJump _ | .continueJump _ =>
      obtain ⟨inner', lo', hi', ht, hhi⟩ := h.of_mem ht
      exact ⟨inner', lo', hi', ht, Nat.le_trans hhi htop⟩

theorem Stmt.AllSound.parts {body : List Stmt} (h : Stmt.AllSound inner lo body hi) :
    ∀ t ∈ Stmt.allParts body, t.SoundBelow hi := by
  refine Stmt.forall_allParts_of_child (fun _ hs _ ht => hs.child ht) fun s hs => ?_
  obtain ⟨lo', hi', -, hhi, hs⟩ := h.mem hs
  exact ⟨inner, lo', hi', hs, hhi⟩

end Sound

/-! ## Parts of statements with types as wanted -/

section Types

variable {P : Ty → Prop} {s t : Stmt}

theorem Stmt.AllTypes.mem {body : List Stmt} (h : Stmt.AllTypes P body) (ht : t ∈ body) :
    t.Types P := by
  induction body with
  | nil => cases ht
  | cons s rest ih =>
      obtain rfl | ht := List.mem_cons.mp ht
      · exact h.1
      · exact ih h.2 ht

theorem Stmt.GroupsTypes.mem {groups : List (List Stmt)} (h : Stmt.GroupsTypes P groups)
    (ht : t ∈ groups.flatten) : t.Types P := by
  induction groups with
  | nil => cases ht
  | cons body rest ih =>
      obtain ht | ht := List.mem_append.mp ht
      · exact h.1.mem ht
      · exact ih h.2 ht

theorem Stmt.ClausesTypes.mem {clauses : List (Catch Stmt)} (h : Stmt.ClausesTypes P clauses)
    (ht : t ∈ clauses.flatMap (·.body)) : t.Types P := by
  induction clauses with
  | nil => cases ht
  | cons clause rest ih =>
      obtain ht | ht := List.mem_append.mp ht
      · exact h.1.mem ht
      · exact ih h.2 ht

theorem Stmt.Types.child (h : s.Types P) (ht : t ∈ s.children) : t.Types P := by
  match s with
  | .block _ => exact Stmt.AllTypes.mem h (by simpa [Stmt.children, Stmt.outer, Stmt.inner] using ht)
  | .ifElse _ _ none | .whileLoop .. | .doLoop .. =>
      obtain rfl := List.mem_singleton.mp ht
      exact h.2
  | .ifElse _ s (some t') =>
      obtain rfl | rfl : t = s ∨ t = t' := by
        simpa [Stmt.children, Stmt.outer, Stmt.inner] using ht
      · exact h.2.1
      · exact h.2.2
  | .forLoop _ init _ update body =>
      obtain ht | ht | rfl : t ∈ init ∨ t ∈ update ∨ t = body := by
        simpa [Stmt.children, Stmt.outer, Stmt.inner] using ht
      · exact h.2.1.mem ht
      · exact h.2.2.1.mem ht
      · exact h.2.2.2
  | .switch .. => exact h.2.mem ht
  | .tryCatch _ _ none =>
      obtain ht | ht := List.mem_append.mp ht
      · exact h.1.mem ht
      · exact h.2.mem ht
  | .tryCatch _ _ (some ⟨_, _⟩) =>
      obtain ht | ht := List.mem_append.mp ht
      · obtain ht | ht := List.mem_append.mp ht
        · exact h.1.mem ht
        · exact h.2.1.mem ht
      · exact h.2.2.mem ht
  | .localInit .. | .expression .. | .throw _ | .empty | .breakJump _ | .continueJump _ => cases ht

theorem Stmt.AllTypes.parts {body : List Stmt} (h : Stmt.AllTypes P body) :
    ∀ t ∈ Stmt.allParts body, t.Types P :=
  Stmt.forall_allParts_of_child (fun _ hs _ ht => hs.child ht) fun _ hs => h.mem hs

end Types

end MethodCompiler.Annotated
