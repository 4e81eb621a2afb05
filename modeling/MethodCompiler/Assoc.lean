/-!
# Association lists

A finite map as a list of pairs with distinct keys, in the order in which the
keys first came. Looking up is `List.lookup`.
-/

namespace MethodCompiler.Assoc

/-- Sets the value of a key, in place if the key is there and at the end if it
is not. -/
def insert [BEq κ] (key : κ) (value : α) : List (κ × α) → List (κ × α)
  | [] => [(key, value)]
  | (k, v) :: rest => if k == key then (key, value) :: rest else (k, v) :: insert key value rest

/-- Sets the value of a key in a list that is sorted by key, so that it stays
sorted. -/
def insertSorted [BEq κ] [LT κ] [DecidableLT κ] (key : κ) (value : α) :
    List (κ × α) → List (κ × α)
  | [] => [(key, value)]
  | (k, v) :: rest =>
    if k == key then (key, value) :: rest
    else if key < k then (key, value) :: (k, v) :: rest
    else (k, v) :: insertSorted key value rest

/-! ## Lemmas -/

theorem mem_of_lookup [BEq κ] [LawfulBEq κ] {key : κ} {value : α} {l : List (κ × α)}
    (h : l.lookup key = some value) : (key, value) ∈ l := by
  induction l with
  | nil => cases h
  | cons p rest ih =>
      rw [List.lookup_cons] at h
      split at h
      · next heq =>
          obtain rfl := eq_of_beq heq
          obtain rfl := Option.some.inj h
          exact List.mem_cons_self
      · exact List.mem_cons_of_mem _ (ih h)

theorem mem_insert [BEq κ] {key : κ} {value : α} {p : κ × α} {l : List (κ × α)}
    (h : p ∈ insert key value l) : p = (key, value) ∨ p ∈ l := by
  induction l with
  | nil => exact .inl (List.mem_singleton.mp h)
  | cons q rest ih =>
      rw [insert] at h
      split at h
      · obtain rfl | h := List.mem_cons.mp h
        · exact .inl rfl
        · exact .inr (List.mem_cons_of_mem _ h)
      · obtain rfl | h := List.mem_cons.mp h
        · exact .inr List.mem_cons_self
        · exact (ih h).imp_right (List.mem_cons_of_mem _)

theorem keys_subset_insert [BEq κ] [LawfulBEq κ] (key : κ) (value : α)
    (l : List (κ × α)) : l.map (·.1) ⊆ (insert key value l).map (·.1) := by
  induction l with
  | nil => exact List.nil_subset _
  | cons q rest ih =>
      rw [insert]
      split
      · next hq =>
          rw [List.map_cons, List.map_cons, eq_of_beq hq]
          exact List.Subset.refl _
      · exact List.cons_subset_cons _ ih

end MethodCompiler.Assoc
