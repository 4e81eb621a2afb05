import Mathlib.Data.Finset.Card
import Mathlib.Data.Nat.Find
import Mathlib.Logic.Relation
import MethodCompiler.Machine.ClassTree

/-!
# Ancestors

A catch clause takes an object if the class of the clause is met on the way up from the class
of the object. The way is followed through a bounded number of classes, two more than are
registered, for it may be a circle. The bound loses nothing.

A shortest way to an ancestor meets no class twice. Each class on it but the last has a
parent. Registered ones among them are no more than there are registered classes. Of the
others there is at most one, since they all have the same parent and the way would meet that
twice.
-/

namespace MethodCompiler

theorem Assoc.lookup_insert [BEq κ] [LawfulBEq κ] (key k : κ) (value : α) (l : List (κ × α)) :
    (insert key value l).lookup k = if k == key then some value else l.lookup k := by
  induction l with
  | nil =>
      rw [insert, List.lookup_cons]
      cases k == key <;> rfl
  | cons p rest ih =>
      rw [insert]
      split
      · next hp =>
          rw [List.lookup_cons, List.lookup_cons, eq_of_beq hp]
          cases k == key <;> rfl
      · next hp =>
          rw [List.lookup_cons, List.lookup_cons, ih]
          split
          · next hk =>
              obtain rfl := eq_of_beq hk
              rw [if_neg hp]
          · rfl

namespace ClassTree

/-! ## Registrations -/

/-- Registers classes under their parents, one after another. -/
def registerAll (t : ClassTree) (registrations : List (String × String)) : ClassTree :=
  registrations.foldl (fun t r => t.register r.1 r.2) t

/-- The parent of a class after registrations: the one it was registered with last, by these or
as a built-in class, and `Exception` if it was never registered. The root has none. -/
def ParentAfter (registrations : List (String × String)) (className parent : String) : Prop :=
  className ≠ "Throwable" ∧
    ((registrations.reverse ++ builtIn.parents).lookup className).getD "Exception" = parent

theorem lookup_registerAll (t : ClassTree) (registrations : List (String × String))
    (className : String) :
    (t.registerAll registrations).parents.lookup className =
      (registrations.reverse ++ t.parents).lookup className := by
  induction registrations generalizing t with
  | nil => rfl
  | cons r rest ih =>
      have hregister : (t.register r.1 r.2).parents.lookup className =
          (r :: t.parents).lookup className := by
        rw [register, Assoc.lookup_insert, List.lookup_cons]
        cases className == r.1 <;> rfl
      rw [registerAll, List.foldl_cons, ← registerAll, ih, List.reverse_cons, List.append_assoc,
        List.singleton_append, List.lookup_append, List.lookup_append, hregister]

theorem parent?_registerAll (registrations : List (String × String)) (className parent : String) :
    (builtIn.registerAll registrations).parent? className = some parent ↔
      ParentAfter registrations className parent := by
  rw [parent?, lookup_registerAll, ParentAfter]
  split
  · next hroot => simp [hroot]
  · next hroot => simp [hroot]

/-! ## The way up -/

/-- The class so many parents above a class, if the way up is so long. -/
def climb (t : ClassTree) : Nat → String → Option String
  | 0, className => some className
  | k + 1, className => (t.parent? className).bind (t.climb k)

variable {t : ClassTree} {className ancestor : String} {k : Nat}

theorem climb_add (t : ClassTree) (i j : Nat) (className : String) :
    t.climb (i + j) className = (t.climb i className).bind (t.climb j) := by
  induction i generalizing className with
  | zero => rw [Nat.zero_add, climb, Option.bind_some]
  | succ i ih =>
      rw [Nat.succ_add, climb, climb, Option.bind_assoc]
      exact congrArg _ (funext ih)

/-- Each class on the way is the parent of the one before. -/
theorem climb_succ (t : ClassTree) (i : Nat) (className : String) :
    t.climb (i + 1) className = (t.climb i className).bind t.parent? := by
  have hone : t.climb 1 = t.parent? := by
    funext c
    simp [climb]
  rw [climb_add, hone]

theorem reaches_iff {steps : Nat} :
    t.reaches ancestor steps className = true ↔
      ∃ k < steps, t.climb k className = some ancestor := by
  induction steps generalizing className with
  | zero => simp [reaches]
  | succ steps ih =>
      rw [reaches]
      split
      · next heq =>
          subst heq
          exact iff_of_true rfl ⟨0, Nat.succ_pos steps, rfl⟩
      · next hne =>
          constructor
          · intro h
            cases hp : t.parent? className with
            | none =>
                rw [hp] at h
                cases h
            | some parent =>
                rw [hp] at h
                obtain ⟨k, hk, hclimb⟩ := ih.mp h
                exact ⟨k + 1, Nat.succ_lt_succ hk, by rw [climb, hp, Option.bind_some, hclimb]⟩
          · rintro ⟨k, hk, hclimb⟩
            cases k with
            | zero => exact absurd (Option.some.inj hclimb) hne
            | succ k =>
                rw [climb] at hclimb
                obtain ⟨parent, hp, hclimb⟩ := Option.bind_eq_some_iff.mp hclimb
                rw [hp]
                exact ih.mpr ⟨k, Nat.lt_of_succ_lt_succ hk, hclimb⟩

theorem reflTransGen_iff_climb {R : String → String → Prop}
    (hR : ∀ c p, t.parent? c = some p ↔ R c p) :
    Relation.ReflTransGen R className ancestor ↔ ∃ k, t.climb k className = some ancestor := by
  constructor
  · intro h
    induction h with
    | refl => exact ⟨0, rfl⟩
    | tail _ hstep ih =>
        obtain ⟨k, hk⟩ := ih
        exact ⟨k + 1, by rw [climb_succ, hk, Option.bind_some, (hR _ _).mpr hstep]⟩
  · rintro ⟨k, hk⟩
    induction k generalizing ancestor with
    | zero =>
        obtain rfl := Option.some.inj hk
        exact .refl
    | succ k ih =>
        rw [climb_succ] at hk
        obtain ⟨c, hc, hparent⟩ := Option.bind_eq_some_iff.mp hk
        exact (ih hc).tail ((hR _ _).mp hparent)

/-! ## Shortest ways -/

/-- A way on which no ancestor is met sooner meets no class twice: what lies between could be
left out. -/
theorem climb_ne {i j : Nat} (hk : t.climb k className = some ancestor)
    (hleast : ∀ k' < k, t.climb k' className ≠ some ancestor) (hij : i < j) (hjk : j ≤ k) :
    t.climb i className ≠ t.climb j className := by
  intro hsame
  refine hleast (i + (k - j)) (by omega) ?_
  rw [climb_add, hsame, ← climb_add, show j + (k - j) = k by omega, hk]

/-- A way on which no class is met twice has at most one class that was never registered,
apart from its last one. -/
theorem length_le_of_climb_ne (hk : t.climb k className = some ancestor)
    (hne : ∀ i j, i < j → j ≤ k → t.climb i className ≠ t.climb j className) :
    k ≤ t.parents.length + 1 := by
  have hsome : ∀ i ≤ k, ∃ c, t.climb i className = some c := by
    intro i hi
    have hclimb := climb_add t i (k - i) className
    rw [show i + (k - i) = k by omega, hk] at hclimb
    obtain ⟨c, hc, -⟩ := Option.bind_eq_some_iff.mp hclimb.symm
    exact ⟨c, hc⟩
  let met (i : Nat) : String := (t.climb i className).getD ""
  have hmet : ∀ i ≤ k, t.climb i className = some (met i) := by
    intro i hi
    obtain ⟨c, hc⟩ := hsome i hi
    rw [hc, show met i = c by simp [met, hc]]
  have hinj : ∀ i j, i ≤ k → j ≤ k → met i = met j → i = j := by
    intro i j hi hj h
    have hsame : t.climb i className = t.climb j className := by rw [hmet i hi, hmet j hj, h]
    rcases Nat.lt_trichotomy i j with hlt | heq | hlt
    · exact absurd hsame (hne i j hlt hj)
    · exact heq
    · exact absurd hsame.symm (hne j i hlt hi)
  let registered (i : Nat) : Prop := met i ∈ t.parents.map (·.1)
  have hregistered : ((Finset.range k).filter registered).card ≤ t.parents.length := by
    calc ((Finset.range k).filter registered).card
      _ ≤ (t.parents.map (·.1)).toFinset.card := by
        refine Finset.card_le_card_of_injOn met ?_ ?_
        · intro i hi
          exact List.mem_toFinset.mpr (Finset.mem_filter.mp hi).2
        · intro i hi j hj h
          have hi := Finset.mem_range.mp (Finset.mem_filter.mp hi).1
          have hj := Finset.mem_range.mp (Finset.mem_filter.mp hj).1
          exact hinj i j (by omega) (by omega) h
      _ ≤ (t.parents.map (·.1)).length := List.toFinset_card_le _
      _ = t.parents.length := List.length_map _
  -- Classes that were never registered have the same parent, which is met only once.
  have hparent : ∀ i, i < k → ¬ registered i → met (i + 1) = "Exception" := by
    intro i hi hno
    have hclimb := hmet (i + 1) hi
    rw [climb_succ, hmet i (by omega), Option.bind_some, parent?] at hclimb
    split at hclimb
    · cases hclimb
    · have hnone : t.parents.lookup (met i) = none := by
        rw [Option.eq_none_iff_forall_ne_some]
        intro parent hp
        exact hno (List.mem_map.mpr ⟨_, Assoc.mem_of_lookup hp, rfl⟩)
      rw [hnone] at hclimb
      exact (Option.some.inj hclimb).symm
  have hothers : ((Finset.range k).filter fun i => ¬ registered i).card ≤ 1 := by
    refine Finset.card_le_one.mpr fun i hi j hj => ?_
    obtain ⟨hi, hri⟩ := Finset.mem_filter.mp hi
    obtain ⟨hj, hrj⟩ := Finset.mem_filter.mp hj
    have hi := Finset.mem_range.mp hi
    have hj := Finset.mem_range.mp hj
    have hsame := hinj (i + 1) (j + 1) hi hj ((hparent i hi hri).trans (hparent j hj hrj).symm)
    omega
  have hcard := Finset.card_filter_add_card_filter_not (s := Finset.range k) registered
  rw [Finset.card_range] at hcard
  omega

/-- What can be reached can be reached within the bound. -/
theorem isSubclass_of_climb (h : t.climb k className = some ancestor) :
    t.isSubclass className ancestor = true := by
  classical
  have hex : ∃ k, t.climb k className = some ancestor := ⟨k, h⟩
  have hfound := Nat.find_spec hex
  have hle : Nat.find hex ≤ t.parents.length + 1 :=
    length_le_of_climb_ne hfound fun i j hij hj =>
      climb_ne hfound (fun k' hk' => Nat.find_min hex hk') hij hj
  exact reaches_iff.mpr ⟨Nat.find hex, by omega, hfound⟩

/-- However classes have been registered, one is taken for another exactly if that is met on
the way up, and following the way further would not find more. -/
theorem isSubclass_iff_reachable (registrations : List (String × String))
    (className ancestor : String) :
    ((builtIn.registerAll registrations).isSubclass className ancestor = true ↔
      Relation.ReflTransGen (ParentAfter registrations) className ancestor) ∧
    ∀ steps, (builtIn.registerAll registrations).reaches ancestor steps className = true →
      (builtIn.registerAll registrations).isSubclass className ancestor = true := by
  have hclimb (h : (builtIn.registerAll registrations).isSubclass className ancestor = true) :
      ∃ k, (builtIn.registerAll registrations).climb k className = some ancestor := by
    obtain ⟨k, -, hk⟩ := reaches_iff.mp h
    exact ⟨k, hk⟩
  refine ⟨?_, ?_⟩
  · rw [reflTransGen_iff_climb (parent?_registerAll registrations)]
    exact ⟨hclimb, fun ⟨_, hk⟩ => isSubclass_of_climb hk⟩
  · intro steps h
    obtain ⟨k, -, hk⟩ := reaches_iff.mp h
    exact isSubclass_of_climb hk

/-- A way through all registered classes and two others needs the whole bound. -/
example :
    let t := builtIn.registerAll [("Exception", "Error"), ("Error", "RuntimeException"),
      ("RuntimeException", "ArithmeticException"), ("ArithmeticException", "NullPointerException"),
      ("NullPointerException", "IllegalStateException"), ("IllegalStateException", "Last")]
    t.isSubclass "First" "Last" = true ∧
      t.reaches "Last" (t.parents.length + 1) "First" = false := by
  decide

end ClassTree

end MethodCompiler
