import MethodCompiler.Lowering.Stmt
import MethodCompiler.Proofs.SoundTree

/-!
# What stands around a statement

A statement is generated among targets, the constructs it may jump to, and inside
open regions, whose finally bodies its jumps have to run. Both have to fit it, and
they have to go on fitting where generation leaves the order of the tree: a finally
body is generated again at each jump, among the targets of the jump, with the
regions outside its own.

`Serves` says that the construct right around a statement is among the targets.
What else is wanted of the labels of a target depends on what is to be proved, so
it is left open as a predicate on labels. `Opens` says of each open region that its
finally body could be generated on the spot.
-/

namespace MethodCompiler

open Annotated (Stmt Catch)

namespace Annotated.Stmt

mutual

theorem Sound.le {inner : Option Frame} {lo : Nat} {s : Stmt} {hi : Nat}
    (h : s.Sound inner lo hi) : lo ≤ hi := by
  match s with
  | .block body => exact AllSound.le h
  | .localInit .. | .throw _ | .breakJump _ | .continueJump _ => exact Nat.le_of_eq h.2
  | .expression .. => exact Nat.le_of_eq h.2.2
  | .ifElse _ s none => exact Sound.le h.2
  | .ifElse _ s (some t) =>
      obtain ⟨-, m, hs, ht⟩ := h
      exact Nat.le_trans (Sound.le hs) (Sound.le ht)
  | .whileLoop j c b | .doLoop j b c =>
      have := Sound.le h.2.2
      omega
  | .forLoop j init c update b =>
      obtain ⟨-, m, hinit, hupdate, hb⟩ := h
      have := AllSound.le hinit
      have := AllSound.le hupdate
      have := Sound.le hb
      omega
  | .switch id hasBreak e groups d =>
      have := GroupsSound.le h.2.2.2
      omega
  | .tryCatch guarded clauses none =>
      obtain ⟨m, hguarded, hclauses⟩ := h
      exact Nat.le_trans (AllSound.le hguarded) (ClausesSound.le hclauses)
  | .tryCatch guarded clauses (some ⟨_, body⟩) =>
      obtain ⟨m, m', hguarded, hclauses, hbody⟩ := h
      have := AllSound.le hguarded
      have := ClausesSound.le hclauses
      have := AllSound.le hbody
      omega
  | .empty => exact Nat.le_of_eq h
termination_by structural s

theorem AllSound.le {inner : Option Frame} {lo : Nat} {body : List Stmt} {hi : Nat}
    (h : AllSound inner lo body hi) : lo ≤ hi := by
  match body with
  | [] => exact Nat.le_of_eq h
  | s :: rest =>
      obtain ⟨m, hs, hrest⟩ := h
      exact Nat.le_trans (Sound.le hs) (AllSound.le hrest)
termination_by structural body

theorem GroupsSound.le {inner : Option Frame} {lo : Nat} {groups : List (List Stmt)} {hi : Nat}
    (h : GroupsSound inner lo groups hi) : lo ≤ hi := by
  match groups with
  | [] => exact Nat.le_of_eq h
  | body :: rest =>
      obtain ⟨m, hbody, hrest⟩ := h
      exact Nat.le_trans (AllSound.le hbody) (GroupsSound.le hrest)
termination_by structural groups

theorem ClausesSound.le {inner : Option Frame} {lo : Nat} {clauses : List (Catch Stmt)} {hi : Nat}
    (h : ClausesSound inner lo clauses hi) : lo ≤ hi := by
  match clauses with
  | [] => exact Nat.le_of_eq h
  | ⟨_, _, body⟩ :: rest =>
      obtain ⟨m, hbody, hrest⟩ := h
      exact Nat.le_trans (AllSound.le hbody) (ClausesSound.le hrest)
termination_by structural clauses

end

end Annotated.Stmt

namespace Lowering

/-- None of the constructs from `lo` up to `hi` is a target. -/
def Targets.Free (T : Targets) (lo hi : Nat) : Prop :=
  ∀ id, lo ≤ id → id < hi → T.lookup id = none

/-- The construct `inner` is a target from inside `depth` regions or more, and its
labels are as wanted. -/
def Targets.Serves (T : Targets) (want : Label → Prop) (depth : Nat) (inner : Option Frame) :
    Prop :=
  ∀ f ∈ inner, ∃ t, T.lookup f.id = some t ∧ t.depth ≤ depth ∧ (f.hasBreak → want t.breakLabel) ∧
    (f.hasContinue → ∃ l, t.continueLabel = some l ∧ want l)

/-- The finally bodies of the regions can be generated among these targets, and still
can after targets numbered below `hi` have been added. -/
inductive Opens (T : Targets) (want : Label → Prop) : Nat → List Region → Prop
  | nil {hi : Nat} : Opens T want hi []
  | plain {hi : Nat} {R : List Region} (h : Opens T want hi R) : Opens T want hi (none :: R)
  | withFinally {hi lo hi' : Nat} {inner : Option Frame} {body : List Stmt} {R : List Region}
      (hle : hi ≤ lo) (hsound : Stmt.AllSound inner lo body hi') (hfree : T.Free lo hi')
      (hserves : T.Serves want R.length inner) (h : Opens T want hi' R) :
      Opens T want hi (some body :: R)

variable {T : Targets} {want : Label → Prop} {id lo hi m depth : Nat} {t : Target}
  {inner : Option Frame} {R : List Region}

namespace Targets

theorem lookup_enter_ne {id' : Nat} (h : id ≠ id') :
    List.lookup id ((id', t) :: T) = List.lookup id T := by
  rw [List.lookup_cons, beq_false_of_ne h]

theorem lookup_enter : List.lookup id ((id, t) :: T) = some t := by
  rw [List.lookup_cons, beq_self_eq_true]

theorem Free.mono (h : T.Free lo hi) {lo' hi' : Nat} (hlo : lo ≤ lo') (hhi : hi' ≤ hi) :
    T.Free lo' hi' :=
  fun id h₁ h₂ => h id (by omega) (by omega)

theorem Free.enter (h : T.Free lo hi) (hid : id < lo ∨ hi ≤ id) :
    Free ((id, t) :: T) lo hi := by
  intro id' h₁ h₂
  rw [lookup_enter_ne (by omega)]
  exact h id' h₁ h₂

theorem Serves.mono (h : T.Serves want depth inner) {want' : Label → Prop} {depth' : Nat}
    (hwant : ∀ l, want l → want' l) (hdepth : depth ≤ depth') :
    T.Serves want' depth' inner := by
  intro f hf
  obtain ⟨t, ht, htd, hb, hc⟩ := h f hf
  refine ⟨t, ht, by omega, fun h => hwant _ (hb h), fun h => ?_⟩
  obtain ⟨l, hl, hw⟩ := hc h
  exact ⟨l, hl, hwant l hw⟩

theorem Serves.enter (h : T.Serves want depth inner) (hno : T.lookup id = none) :
    Serves ((id, t) :: T) want depth inner := by
  intro f hf
  obtain ⟨t', ht', hrest⟩ := h f hf
  refine ⟨t', ?_, hrest⟩
  have hne : f.id ≠ id := by
    rintro rfl
    simp [hno] at ht'
  rw [lookup_enter_ne hne, ht']

theorem serves_none : T.Serves want depth none := by
  simp [Serves]

/-- The construct that was just entered is a target. -/
theorem serves_enter {f : Frame} (hid : f.id = id) (hdepth : t.depth ≤ depth)
    (hb : f.hasBreak → want t.breakLabel)
    (hc : f.hasContinue → ∃ l, t.continueLabel = some l ∧ want l) :
    Serves ((id, t) :: T) want depth (some f) := by
  intro f' hf
  obtain rfl := Option.some.inj hf
  exact ⟨t, by rw [hid]; exact lookup_enter, hdepth, hb, hc⟩

end Targets

namespace Opens

theorem le (h : Opens T want hi R) (hm : m ≤ hi) : Opens T want m R := by
  induction h with
  | nil => exact .nil
  | plain _ ih => exact .plain (ih hm)
  | withFinally hle hsound hfree hserves h ih =>
      exact .withFinally (Nat.le_trans hm hle) hsound hfree hserves h

theorem mono (h : Opens T want hi R) {want' : Label → Prop} (hwant : ∀ l, want l → want' l) :
    Opens T want' hi R := by
  induction h with
  | nil => exact .nil
  | plain _ ih => exact .plain ih
  | withFinally hle hsound hfree hserves _ ih =>
      exact .withFinally hle hsound hfree (hserves.mono hwant (Nat.le_refl _)) ih

theorem enter (h : Opens T want hi R) (hno : T.lookup id = none) (hid : id < hi) :
    Opens ((id, t) :: T) want hi R := by
  induction h with
  | nil => exact .nil
  | plain _ ih => exact .plain (ih hid)
  | withFinally hle hsound hfree hserves _ ih =>
      have := hsound.le
      exact .withFinally hle hsound (hfree.enter (.inl (by omega))) (hserves.enter hno)
        (ih (by omega))

end Opens

/-- A statement right inside `inner` whose constructs are numbered from `lo` up to `hi`
can be generated among these targets in these regions. -/
structure Fits (T : Targets) (want : Label → Prop) (R : List Region) (inner : Option Frame)
    (lo hi : Nat) : Prop where
  free : T.Free lo hi
  serves : T.Serves want R.length inner
  opens : Opens T want hi R

namespace Fits

theorem initially : Fits [] want [] none lo hi :=
  ⟨fun _ _ _ => rfl, Targets.serves_none, .nil⟩

theorem mono (h : Fits T want R inner lo hi) {want' : Label → Prop}
    (hwant : ∀ l, want l → want' l) : Fits T want' R inner lo hi :=
  ⟨h.free, h.serves.mono hwant (Nat.le_refl _), h.opens.mono hwant⟩

/-- A part of what fits fits. -/
theorem part (h : Fits T want R inner lo hi) {lo' hi' : Nat} (hlo : lo ≤ lo') (hhi : hi' ≤ hi) :
    Fits T want R inner lo' hi' :=
  ⟨h.free.mono hlo hhi, h.serves, h.opens.le hhi⟩

theorem lookup_eq_none (h : Fits T want R inner lo hi) (hlo : lo ≤ id) (hhi : id < hi) :
    T.lookup id = none :=
  h.free id hlo hhi

/-- The body of the construct `f`, which is entered. -/
theorem enter (h : Fits T want R inner lo hi) {f : Frame} (hid : f.id = id) (hlo : lo ≤ id)
    (hhi : id < hi) (hdepth : t.depth = R.length) (hb : f.hasBreak → want t.breakLabel)
    (hc : f.hasContinue → ∃ l, t.continueLabel = some l ∧ want l) :
    Fits ((id, t) :: T) want R (some f) (id + 1) hi where
  free := (h.free.mono (by omega) (Nat.le_refl _)).enter (.inl (by omega))
  serves := Targets.serves_enter hid (Nat.le_of_eq hdepth) hb hc
  opens := h.opens.enter (h.lookup_eq_none hlo hhi) hhi

/-- What stands outside the construct but is generated after it was entered. -/
theorem beside (h : Fits T want R inner lo hi) (hlo : lo ≤ id) (hhi : id < hi) :
    Fits ((id, t) :: T) want R inner lo id where
  free := (h.free.mono (Nat.le_refl _) (by omega)).enter (.inr (Nat.le_refl _))
  serves := h.serves.enter (h.lookup_eq_none hlo hhi)
  opens := (h.opens.enter (h.lookup_eq_none hlo hhi) hhi).le (by omega)

/-- The block of a try without a finally body. -/
theorem inTry (h : Fits T want R inner lo hi) : Fits T want (none :: R) inner lo hi :=
  ⟨h.free, h.serves.mono (fun _ => id) (Nat.le_succ _), .plain h.opens⟩

/-- The block of a try with a finally body, and the bodies of its catch clauses. -/
theorem inTryFinally (h : Fits T want R inner lo hi) {body : List Stmt} (hlo : lo ≤ m)
    (hbody : Stmt.AllSound inner m body hi) : Fits T want (some body :: R) inner lo m where
  free := h.free.mono (Nat.le_refl _) hbody.le
  serves := h.serves.mono (fun _ => id) (Nat.le_succ _)
  opens := .withFinally (Nat.le_refl _) hbody (h.free.mono hlo (Nat.le_refl _)) h.serves h.opens

end Fits

/-- A finally body of an open region fits outside its region. -/
theorem Opens.fits {body : List Stmt} (h : Opens T want hi (some body :: R)) :
    ∃ inner lo hi', Stmt.AllSound inner lo body hi' ∧ Fits T want R inner lo hi' := by
  cases h with
  | withFinally hle hsound hfree hserves h => exact ⟨_, _, _, hsound, hfree, hserves, h⟩

/-- The regions outside are open too. -/
theorem Opens.outside {region : Region} (h : Opens T want hi (region :: R)) :
    ∃ hi', Opens T want hi' R := by
  cases h with
  | plain h => exact ⟨_, h⟩
  | withFinally _ _ _ _ h => exact ⟨_, h⟩

end Lowering

end MethodCompiler
