import MethodCompiler.Compile
import MethodCompiler.Proofs.Labels
import MethodCompiler.Proofs.OpenRegions

/-!
# Building is assembling, as long as there are labels

Pieces are built with a stack of open regions, and the rows of a try are made of the
stretches that were cut out of its regions on the way. The directives of pieces know
nothing of a stack: there the stretches are read off the pieces. Both come to the same code.

They differ when labels run short. Outside all copies, building stops as assembling does.
Inside a copy the regions it left are off the stack, and the blocks around close more
regions than there are. So it depends on where the first label that is too many, the one
with the number of the limit, is created.
-/

namespace MethodCompiler

/-! ## Runs that lack a label -/

namespace Assembler

variable {a b : Assembler} {ds es : List Directive} {n' : Nat}

/-- There are too few labels for the directives. -/
def Short (a : Assembler) (ds : List Directive) : Prop :=
  a.run ds = .error (.labelsExhausted a.maxLabels)

/-- No more labels than there may be so far, and the directives number theirs from there. -/
def Counts (a : Assembler) (ds : List Directive) (n' : Nat) : Prop :=
  a.labels.size ≤ a.maxLabels ∧ Numbered a.labels.size ds n'

theorem run_append : a.run (ds ++ es) = a.run ds >>= fun b => b.run es := by
  induction ds generalizing a with
  | nil => rfl
  | cons d ds ih =>
      rw [List.cons_append, run, run]
      cases a.apply d with
      | error e => rfl
      | ok b => exact ih

theorem run_singleton (d : Directive) : a.run [d] = a.apply d := by
  rw [run]
  cases a.apply d <;> rfl

theorem apply_error {d : Directive} {e : AssemblyError} (h : a.apply d = .error e) :
    (∃ defect, e = .defect defect) ∨ (∃ l, d = .create l) ∧ e = .labelsExhausted a.maxLabels ∧
      a.maxLabels ≤ a.labels.size := by
  cases d with
  | create l =>
      simp only [apply, createLabel] at h
      split at h
      · next hle =>
          obtain rfl := Except.error.inj h
          exact .inr ⟨⟨l, rfl⟩, rfl, hle⟩
      · cases h
  | place l =>
      simp only [apply, place] at h
      split at h <;> cases h <;> exact .inl ⟨_, rfl⟩
  | table default low high targets =>
      simp only [apply, emitTable] at h
      split at h <;> cases h
      exact .inl ⟨_, rfl⟩
  | lookup default count pairs =>
      simp only [apply, emitLookup] at h
      split at h <;> cases h
      exact .inl ⟨_, rfl⟩
  | emit i | handler start stop target catchType => cases h

theorem apply_counts {d : Directive} (h : a.apply d = .ok b) :
    b.maxLabels = a.maxLabels ∧ (a.labels.size ≤ a.maxLabels → b.labels.size ≤ b.maxLabels) ∧
      ∀ m, d.Numbers a.labels.size m → b.labels.size = m := by
  cases d with
  | create l =>
      simp only [apply, createLabel] at h
      split at h
      · cases h
      · next hlt =>
          obtain rfl := Except.ok.inj h
          refine ⟨rfl, fun _ => ?_, ?_⟩
          · rw [Array.size_push]
            simp only
            omega
          · rintro m ⟨-, rfl⟩
            exact Array.size_push _
  | place l =>
      simp only [apply, place] at h
      split at h <;> cases h
      refine ⟨rfl, fun hle => by simpa using hle, ?_⟩
      rintro m ⟨-, rfl⟩
      simp
  | emit i | handler start stop target catchType =>
      obtain rfl := Except.ok.inj h
      exact ⟨rfl, id, fun m hm => Eq.symm hm⟩
  | table default low high targets =>
      simp only [apply, emitTable] at h
      split at h <;> cases h
      exact ⟨rfl, id, fun m hm => Eq.symm hm⟩
  | lookup default count pairs =>
      simp only [apply, emitLookup] at h
      split at h <;> cases h
      exact ⟨rfl, id, fun m hm => Eq.symm hm⟩

theorem run_counts (h : a.run ds = .ok b) :
    b.maxLabels = a.maxLabels ∧ (a.labels.size ≤ a.maxLabels → b.labels.size ≤ b.maxLabels) ∧
      ∀ m, Numbered a.labels.size ds m → b.labels.size = m := by
  induction ds generalizing a with
  | nil =>
      obtain rfl := Except.ok.inj h
      exact ⟨rfl, id, fun m hm => Eq.symm hm⟩
  | cons d ds ih =>
      rw [run] at h
      cases happly : a.apply d with
      | error e =>
          rw [happly] at h
          cases h
      | ok c =>
          rw [happly] at h
          obtain ⟨hmax, hle, hsize⟩ := apply_counts happly
          obtain ⟨hmax', hle', hsize'⟩ := ih h
          refine ⟨hmax'.trans hmax, fun h => hle' (hle h), ?_⟩
          rintro m ⟨k, hd, hds⟩
          exact hsize' m (hsize k hd ▸ hds)

/-- Directives are not carried out for one of two reasons. -/
theorem run_error {e : AssemblyError} (h : a.run ds = .error e) :
    (∃ defect, e = .defect defect) ∨ e = .labelsExhausted a.maxLabels := by
  induction ds generalizing a with
  | nil => cases h
  | cons d ds ih =>
      rw [run] at h
      cases happly : a.apply d with
      | error e' =>
          rw [happly] at h
          obtain rfl := Except.error.inj h
          exact (apply_error happly).imp_right fun h => h.2.1
      | ok b =>
          rw [happly] at h
          rw [← (apply_counts happly).1]
          exact ih h

/-- Directives that lack a label create the label with the number of the limit. -/
theorem Short.lt (h : a.Short ds) (hn : Numbered a.labels.size ds n') : a.maxLabels < n' := by
  induction ds generalizing a with
  | nil => cases h
  | cons d ds ih =>
      obtain ⟨m, hd, hds⟩ := hn
      rw [Short, run] at h
      cases happly : a.apply d with
      | error e =>
          rw [happly] at h
          obtain rfl := Except.error.inj h
          obtain ⟨_, h⟩ | ⟨⟨l, rfl⟩, -, hle⟩ := apply_error happly
          · cases h
          · have := hds.le
            obtain ⟨-, rfl⟩ := hd
            omega
      | ok b =>
          rw [happly] at h
          obtain ⟨hmax, -, hsize⟩ := apply_counts happly
          rw [← hmax] at h ⊢
          exact ih h (hsize m hd ▸ hds)

/-- If directives lack a label, either the first or the last of them do. -/
theorem Short.cases (h : a.Short (ds ++ es)) :
    a.Short ds ∨ ∃ b, a.run ds = .ok b ∧ b.Short es := by
  rw [Short, run_append] at h
  cases hds : a.run ds with
  | error e =>
      rw [hds] at h
      exact .inl (hds.trans h)
  | ok b =>
      rw [hds] at h
      refine .inr ⟨b, rfl, ?_⟩
      rw [Short, (run_counts hds).1]
      exact h

end Assembler

/-- Labels are created in order, each with the next number. -/
theorem Numbered.create_mem_iff {n n' : Nat} {ds : List Directive} (h : Numbered n ds n')
    {l : Nat} : .create l ∈ ds ↔ n ≤ l ∧ l < n' := by
  induction ds generalizing n with
  | nil =>
      obtain rfl := h
      simp only [List.not_mem_nil, false_iff]
      omega
  | cons d ds ih =>
      obtain ⟨m, hd, hds⟩ := h
      have hle := hds.le
      rw [List.mem_cons, ih hds]
      cases d with
      | create k =>
          obtain ⟨rfl, rfl⟩ := hd
          have hnext : ∀ k : Nat, k + 1 ≤ n' → (l = k ∨ k + 1 ≤ l ∧ l < n' ↔ k ≤ l ∧ l < n') := by
            omega
          rw [Directive.create.injEq]
          exact hnext k hle
      | place k =>
          obtain ⟨-, rfl⟩ := hd
          simp
      | emit | table | lookup | handler =>
          obtain rfl := hd
          simp

namespace Lowering

/-! ## Where labels are created -/

/-- The labels that directives create. -/
def createdLabels (ds : List Directive) : List Label :=
  ds.filterMap fun d =>
    match d with
    | .create l => some l
    | _ => none

theorem mem_createdLabels {ds : List Directive} {l : Label} : l ∈ createdLabels ds ↔ .create l ∈ ds := by
  rw [createdLabels, List.mem_filterMap]
  constructor
  · rintro ⟨d, hd, hl⟩
    cases d <;> simp only [reduceCtorEq, Option.some.injEq] at hl
    exact hl ▸ hd
  · exact fun h => ⟨_, h, rfl⟩

mutual

/-- The labels that a piece creates inside copies on the way out of a region. -/
def Piece.copied : Piece → List Label
  | .give _ => []
  | .statement body => copied body
  | .copy _ _ body => createdLabels (layOut body)
  | .tryCatch _ block exit clauses rescue =>
    copied block ++ copied exit ++ clausesCopied clauses ++
      match rescue with
      | none => []
      | some ⟨_, _, _, body⟩ => copied body
termination_by structural p => p

/-- The labels that pieces create inside copies on the way out of a region. -/
def copied : List Piece → List Label
  | [] => []
  | p :: rest => p.copied ++ copied rest
termination_by structural ps => ps

/-- The labels that clauses create inside copies on the way out of a region. -/
def clausesCopied : List (Clause Piece) → List Label
  | [] => []
  | ⟨_, _, _, body, exit⟩ :: rest => copied body ++ copied exit ++ clausesCopied rest
termination_by structural cs => cs

end

/-! ## Steps of building -/

/-- The stack after stretches have been cut out of its regions. Regions are numbered from
the outside in. -/
def cutOut (gaps : Nat → List Stretch) : List (List Stretch) → List (List Stretch)
  | [] => []
  | own :: outside => (own ++ gaps outside.length) :: cutOut gaps outside

section CutOut

variable {g g' : Nat → List Stretch}

@[simp]
theorem length_cutOut (rs : List (List Stretch)) : (cutOut g rs).length = rs.length := by
  induction rs with
  | nil => rfl
  | cons own outside ih => rw [cutOut, List.length_cons, ih, List.length_cons]

theorem cutOut_none (rs : List (List Stretch)) : cutOut (fun _ => []) rs = rs := by
  induction rs with
  | nil => rfl
  | cons own outside ih => rw [cutOut, ih, List.append_nil]

theorem cutOut_cutOut (rs : List (List Stretch)) :
    cutOut g' (cutOut g rs) = cutOut (fun r => g r ++ g' r) rs := by
  induction rs with
  | nil => rfl
  | cons own outside ih => rw [cutOut, cutOut, cutOut, ih, length_cutOut, List.append_assoc]

theorem cutOut_congr {rs : List (List Stretch)} (h : ∀ r < rs.length, g r = g' r) :
    cutOut g rs = cutOut g' rs := by
  induction rs with
  | nil => rfl
  | cons own outside ih =>
      rw [List.length_cons] at h
      rw [cutOut, cutOut, h _ (Nat.lt_succ_self _), ih fun r hr => h r (by omega)]

/-- A stretch is cut out of the regions `left`, which stand on those that remain. -/
theorem cutOut_append {stretch : Stretch} (left rs : List (List Stretch)) :
    left.map (· ++ [stretch]) ++ cutOut g rs =
      cutOut (fun r => if rs.length ≤ r then [stretch] else g r) (left ++ rs) := by
  induction left with
  | nil => exact cutOut_congr fun r hr => by rw [if_neg (by omega)]
  | cons own left ih =>
      rw [List.map_cons, List.cons_append, List.cons_append, ih, cutOut, if_pos]
      rw [List.length_append]
      omega

end CutOut

namespace Build

variable {x : Build α} {f : α → Build β} {b b' : Builder}

theorem bind_done {a : α} (h : x b = .done a b') : (x >>= f) b = f a b' := by
  simp only [Bind.bind, h]

theorem bind_stopped {e : AssemblyError} (h : x b = .stopped e b') :
    (x >>= f) b = .stopped e b' := by
  simp only [Bind.bind, h]

theorem bind_broken {d : Defect} (h : x b = .broken d) : (x >>= f) b = .broken d := by
  simp only [Bind.bind, h]

end Build

namespace Built

/-- A step stopped for lack of labels, with `depth` regions open. -/
def StoppedAt (limit depth : Nat) : Built α → Prop
  | stopped e b => e = .labelsExhausted limit ∧ b.regions.length = depth
  | _ => False

/-- A step stopped for lack of labels, and of `depth` regions some are missing. -/
def Misses (limit depth : Nat) : Built α → Prop
  | stopped e b => e = .labelsExhausted limit ∧ b.regions.length < depth
  | broken d => d = .regionsEmptied
  | done .. => False

theorem StoppedAt.misses {limit depth depth' : Nat} {r : Built α} (h : r.StoppedAt limit depth)
    (hlt : depth < depth') : r.Misses limit depth' := by
  cases r with
  | stopped e b => exact ⟨h.1, by rw [h.2]; exact hlt⟩
  | done | broken => exact h.elim

theorem Misses.mono {limit depth depth' : Nat} {r : Built α} (h : r.Misses limit depth)
    (hle : depth ≤ depth') : r.Misses limit depth' := by
  cases r with
  | stopped e b => exact ⟨h.1, Nat.lt_of_lt_of_le h.2 hle⟩
  | done | broken => exact h

theorem StoppedAt.bind {limit depth : Nat} {x : Build α} {f : α → Build β} {b : Builder}
    (h : (x b).StoppedAt limit depth) : ((x >>= f) b).StoppedAt limit depth := by
  cases hx : x b with
  | stopped e b' =>
      rw [hx] at h
      rw [Build.bind_stopped hx]
      exact h
  | done | broken =>
      rw [hx] at h
      exact h.elim

theorem Misses.bind {limit depth : Nat} {x : Build α} {f : α → Build β} {b : Builder}
    (h : (x b).Misses limit depth) : ((x >>= f) b).Misses limit depth := by
  cases hx : x b with
  | stopped e b' =>
      rw [hx] at h
      rw [Build.bind_stopped hx]
      exact h
  | broken d =>
      rw [hx] at h
      rw [Build.bind_broken hx]
      exact h
  | done =>
      rw [hx] at h
      exact h.elim

end Built

/-- A step of building does what assembling the directives `ds` does and cuts out `gaps`.
If it lacks a label, then it matters whether this is among `inCopies`. -/
structure Follows (x : Build α) (b : Builder) (a : α) (ds : List Directive)
    (gaps : Nat → List Stretch) (inCopies : List Label) : Prop where
  created : ∀ l ∈ inCopies, .create l ∈ ds
  done : ∀ {assembler}, b.assembler.run ds = .ok assembler →
    x b = .done a ⟨assembler, cutOut gaps b.regions⟩
  broken : ∀ {d}, b.assembler.run ds = .error (.defect d) → x b = .broken d
  short : b.assembler.Short ds →
    (x b).StoppedAt b.assembler.maxLabels b.regions.length ∧
        (∀ n', b.assembler.Counts ds n' → b.assembler.maxLabels ∉ inCopies) ∨
      (x b).Misses b.assembler.maxLabels b.regions.length ∧
        ∀ n', b.assembler.Counts ds n' → b.assembler.maxLabels ∈ inCopies

section Follows

variable {b : Builder} {a : α} {ds es : List Directive} {g g' : Nat → List Stretch}
  {ls ls' : List Label} {x : Build α}

theorem Follows.congr (h : Follows x b a ds g ls) (hds : ds = es) (hg : ∀ r, g r = g' r)
    (hls : ls = ls') : Follows x b a es g' ls' := by
  obtain rfl : g = g' := funext hg
  exact hds ▸ hls ▸ h

theorem follows_pure : Follows (pure a) b a [] (fun _ => []) [] where
  created := by simp
  done h := by
    obtain rfl := Except.ok.inj h
    rw [cutOut_none]
    rfl
  broken h := by cases h
  short h := by cases h

theorem follows_direct (d : Directive) : Follows (Build.direct d) b () [d] (fun _ => []) [] where
  created := by simp
  done h := by
    rw [Assembler.run_singleton] at h
    rw [Build.direct, h, cutOut_none]
  broken h := by
    rw [Assembler.run_singleton] at h
    rw [Build.direct, h]
  short h := by
    rw [Assembler.Short, Assembler.run_singleton] at h
    rw [Build.direct, h]
    exact .inl ⟨⟨rfl, rfl⟩, by simp⟩

theorem Follows.bind {f : α → Build β} {c : β} (hx : Follows x b a ds g ls)
    (hf : ∀ b', b'.regions.length = b.regions.length → Follows (f a) b' c es g' ls') :
    Follows (x >>= f) b c (ds ++ es) (fun r => g r ++ g' r) (ls ++ ls') where
  created l hl := by
    obtain hl | hl := List.mem_append.mp hl
    · exact List.mem_append_left _ (hx.created l hl)
    · exact List.mem_append_right _ ((hf b rfl).created l hl)
  done h := by
    rw [Assembler.run_append] at h
    cases hds : b.assembler.run ds with
    | error e =>
        rw [hds] at h
        cases h
    | ok assembler =>
        rw [hds] at h
        have hdone := (hf ⟨assembler, cutOut g b.regions⟩ (length_cutOut _)).done h
        rw [cutOut_cutOut] at hdone
        rw [Build.bind_done (hx.done hds), hdone]
  broken h := by
    rw [Assembler.run_append] at h
    cases hds : b.assembler.run ds with
    | error e =>
        rw [hds] at h
        obtain rfl := Except.error.inj h
        exact Build.bind_broken (hx.broken hds)
    | ok assembler =>
        rw [hds] at h
        rw [Build.bind_done (hx.done hds), (hf ⟨assembler, cutOut g b.regions⟩ (length_cutOut _)).broken h]
  short h := by
    obtain h | ⟨assembler, hds, h⟩ := h.cases
    · -- The label is one of the first step: those of the second come after it.
      have hsplit : ∀ n', b.assembler.Counts (ds ++ es) n' → ∃ m, b.assembler.Counts ds m ∧
          (b.assembler.maxLabels ∈ ls ++ ls' ↔ b.assembler.maxLabels ∈ ls) := by
        rintro n' ⟨hle, hn⟩
        obtain ⟨m, hm, hn⟩ := numbered_append.mp hn
        refine ⟨m, ⟨hle, hm⟩, fun hl => (List.mem_append.mp hl).resolve_right fun hl => ?_,
          List.mem_append_left _⟩
        have hcreated := hn.create_mem_iff.mp ((hf b rfl).created _ hl)
        have hlt := h.lt hm
        omega
      obtain ⟨hstop, hnot⟩ | ⟨hmiss, hmem⟩ := hx.short h
      · refine .inl ⟨hstop.bind, fun n' hn => ?_⟩
        obtain ⟨m, hm, hiff⟩ := hsplit n' hn
        exact fun hl => hnot m hm (hiff.mp hl)
      · refine .inr ⟨hmiss.bind, fun n' hn => ?_⟩
        obtain ⟨m, hm, hiff⟩ := hsplit n' hn
        exact hiff.mpr (hmem m hm)
    · -- The label is one of the second step: those of the first were not too many.
      obtain ⟨hmax, hle, hsize⟩ := Assembler.run_counts hds
      have hsplit : ∀ n', b.assembler.Counts (ds ++ es) n' → assembler.Counts es n' ∧
          (b.assembler.maxLabels ∈ ls ++ ls' ↔ assembler.maxLabels ∈ ls') := by
        rintro n' ⟨hle', hn⟩
        obtain ⟨m, hm, hn⟩ := numbered_append.mp hn
        obtain rfl := hsize m hm
        refine ⟨⟨hle hle', hn⟩, ?_⟩
        rw [hmax, List.mem_append, or_iff_right fun hl => ?_]
        have hcreated := hm.create_mem_iff.mp (hx.created _ hl)
        have hfew := hle hle'
        omega
      have hshort := (hf ⟨assembler, cutOut g b.regions⟩ (length_cutOut _)).short h
      rw [length_cutOut, hmax] at hshort
      rw [Build.bind_done (hx.done hds)]
      refine hshort.imp (fun ⟨hstop, hnot⟩ => ⟨hstop, fun n' hn hl => ?_⟩)
        fun ⟨hmiss, hmem⟩ => ⟨hmiss, fun n' hn => ?_⟩
      · exact hnot n' (hsplit n' hn).1 (hmax ▸ (hsplit n' hn).2.mp hl)
      · exact (hsplit n' hn).2.mpr (hmax ▸ hmem n' (hsplit n' hn).1)

/-- A step that only answers something else. -/
theorem Follows.answer (hx : Follows x b a ds g ls) (f : α → β) :
    Follows (x >>= fun a => pure (f a)) b (f a) ds g ls :=
  (hx.bind (f := fun a => pure (f a)) fun _ _ => follows_pure).congr (List.append_nil _)
    (fun _ => List.append_nil _) (List.append_nil _)

theorem follows_directAll (ds : List Directive) :
    Follows (Build.directAll ds) b () ds (fun _ => []) [] := by
  induction ds generalizing b with
  | nil => exact follows_pure
  | cons d ds ih =>
      exact ((follows_direct d).bind fun _ _ => ih).congr rfl (fun _ => rfl) rfl

/-- Closing takes one region off, and if there is none, that is what is missing. -/
theorem guarded_of_stopped {x : Build Unit} {e : AssemblyError} {b' : Builder}
    (hx : x ⟨b.assembler, [] :: b.regions⟩ = .stopped e b') :
    Build.guarded x b = match b'.regions with
      | [] => .broken .regionsEmptied
      | _ :: outside => .stopped e ⟨b'.assembler, outside⟩ := by
  simp only [Build.guarded, hx, Build.close]
  cases b'.regions <;> rfl

/-- In a region of its own, a step gives the stretches that it cuts out of the region. -/
theorem Follows.guarded {x : Build Unit} {depth : Nat} (hdepth : b.regions.length = depth)
    (h : Follows x ⟨b.assembler, [] :: b.regions⟩ () ds g ls) :
    Follows (Build.guarded x) b (g depth) ds g ls where
  created := h.created
  done hrun := by
    rw [Build.guarded, h.done hrun, cutOut, hdepth]
    rfl
  broken hrun := by
    rw [Build.guarded, h.broken hrun]
  short hrun := by
    obtain ⟨hstop, hnot⟩ | ⟨hmiss, hmem⟩ := h.short hrun
    · refine .inl ⟨?_, hnot⟩
      cases hx : x ⟨b.assembler, [] :: b.regions⟩ with
      | done => exact (hx ▸ hstop : Built.StoppedAt _ _ (.done _ _)).elim
      | broken => exact (hx ▸ hstop : Built.StoppedAt _ _ (.broken _)).elim
      | stopped e b' =>
          obtain ⟨rfl, hlength⟩ : e = _ ∧ _ := by rwa [hx] at hstop
          rw [guarded_of_stopped hx]
          cases hb : b'.regions with
          | nil => simp [hb] at hlength
          | cons _ outside => exact ⟨rfl, by simpa [hb] using hlength⟩
    · refine .inr ⟨?_, hmem⟩
      cases hx : x ⟨b.assembler, [] :: b.regions⟩ with
      | done => exact (hx ▸ hmiss : Built.Misses _ _ (.done _ _)).elim
      | broken d =>
          rw [Build.guarded, hx]
          exact (hx ▸ hmiss : Built.Misses _ _ (.broken d))
      | stopped e b' =>
          obtain ⟨rfl, hlength⟩ : e = _ ∧ _ := by rwa [hx] at hmiss
          rw [guarded_of_stopped hx]
          cases hb : b'.regions with
          | nil => exact rfl
          | cons _ outside => exact ⟨rfl, by simpa [hb] using hlength⟩

/-- What stops inside a copy does not put back the regions that the copy left. -/
theorem Follows.leaving {y : Build Unit} {stretch : Stretch} {stillOpen : Nat}
    (hlt : stillOpen < b.regions.length)
    (h : ∀ b', b'.regions.length = stillOpen → Follows y b' () ds g ls) :
    Follows (Build.leaving stillOpen stretch y) b () ds
      (fun r => if stillOpen ≤ r then [stretch] else g r) (createdLabels ds) := by
  let left := b.regions.take (b.regions.length - stillOpen)
  let outside := b.regions.drop (b.regions.length - stillOpen)
  have hregions : b.regions = left ++ outside := (List.take_append_drop ..).symm
  have houtside : outside.length = stillOpen := by
    rw [List.length_drop]
    omega
  have hsplit : Build.splitOff stillOpen b = .done left ⟨b.assembler, outside⟩ :=
    if_neg (Nat.not_le.mpr hlt)
  have hy := h ⟨b.assembler, outside⟩ houtside
  refine ⟨fun l => mem_createdLabels.mp, fun hrun => ?_, fun hrun => ?_, fun hrun => .inr ⟨?_, ?_⟩⟩
  · rw [Build.leaving, Build.bind_done hsplit, Build.bind_done (hy.done hrun), Build.rejoin,
      if_pos ((length_cutOut _).trans houtside), cutOut_append, ← hregions, houtside]
  · rw [Build.leaving, Build.bind_done hsplit, Build.bind_broken (hy.broken hrun)]
  · rw [Build.leaving, Build.bind_done hsplit]
    refine Built.Misses.bind ?_
    rw [← houtside] at hlt
    obtain ⟨hstop, -⟩ | ⟨hmiss, -⟩ := hy.short hrun
    · exact hstop.misses hlt
    · exact hmiss.mono (Nat.le_of_lt hlt)
  · rintro n' ⟨hle, hn⟩
    exact mem_createdLabels.mpr (hn.create_mem_iff.mpr ⟨hle, hrun.lt hn⟩)

end Follows

/-! ## Pieces -/

/-- The stretches that were cut out of the bodies of catch clauses: if the try has no
finally body, these bodies are not in a region of their own. -/
def bodyGaps (rescued : Bool) (depth : Nat) (clauses : List (Clause Piece)) : List (List Stretch) :=
  clauses.map fun c => if rescued then gaps depth c.body else []

theorem catchRows_bodyGaps (handler : Label) (depth : Nat) (clauses : List (Clause Piece)) :
    catchRows handler clauses (bodyGaps true depth clauses) =
      clauses.flatMap fun c => rows handler none c.stretch.1 c.stretch.2 (gaps depth c.body) := by
  induction clauses with
  | nil => rfl
  | cons c rest ih =>
      rw [List.flatMap_cons, ← ih]
      rfl

mutual

theorem follows_piece (p : Piece) {b : Builder} (hn : p.Nested b.regions.length) :
    Follows p.build b () p.directives (fun r => p.gaps r) p.copied := by
  match p with
  | .give d => exact follows_direct d
  | .statement body => exact follows_pieces body hn
  | .copy stretch stillOpen body =>
      obtain ⟨hlt, hbody⟩ := hn
      rw [Piece.build]
      refine ((follows_directAll _).bind fun b₁ h₁ => Follows.leaving (h₁ ▸ hlt) fun b₂ h₂ =>
        (follows_direct _).bind fun b₃ h₃ =>
        (follows_pieces body (by rw [h₃, h₂]; exact hbody)).bind fun _ _ =>
        follows_direct _).congr ?_ (fun r => ?_) ?_
      · simp [Piece.directives]
      · simp [Piece.gaps]
      · simp [Piece.copied, createdLabels]
  | .tryCatch t block exit codes none =>
      obtain ⟨hdepth, hblock, hexit, hcodes, -⟩ := nested_tryCatch.mp hn
      rw [Piece.build]
      refine ((follows_directAll _).bind fun b₁ h₁ => (follows_direct _).bind fun b₂ h₂ =>
        (Follows.guarded ((h₂.trans h₁).trans hdepth.symm) (follows_pieces block ?_)).bind fun b₃ h₃ =>
        (follows_direct _).bind fun b₄ h₄ => (follows_pieces exit ?_).bind fun b₅ h₅ =>
        (follows_direct _).bind fun b₆ h₆ =>
        (follows_clauses codes t.depth false t.done ?_ ?_).bind fun b₇ h₇ =>
        (follows_directAll _).bind fun _ _ => follows_direct _).congr ?_ (fun r => ?_) ?_
      · rw [List.length_cons, h₂, h₁]
        exact hblock
      · rw [h₄, h₃, h₂, h₁]
        exact hexit
      · omega
      · rw [hdepth]
        exact hcodes
      · simp [Piece.directives, TryFrame.clauseRows]
      · simp [Piece.gaps]
      · simp [Piece.copied]
  | .tryCatch t block exit codes (some ⟨handler, stored, slot, body⟩) =>
      obtain ⟨hdepth, hblock, hexit, hcodes, hbody⟩ := nested_tryCatch.mp hn
      rw [Piece.build]
      refine ((follows_directAll _).bind fun b₁ h₁ => (follows_direct _).bind fun b₂ h₂ =>
        (Follows.guarded ((h₂.trans h₁).trans hdepth.symm) (follows_pieces block ?_)).bind fun b₃ h₃ =>
        (follows_direct _).bind fun b₄ h₄ => (follows_pieces exit ?_).bind fun b₅ h₅ =>
        (follows_direct _).bind fun b₆ h₆ =>
        (follows_clauses codes t.depth true t.done ?_ ?_).bind fun b₇ h₇ =>
        (follows_directAll _).bind fun b₈ h₈ => (follows_directAll _).bind fun b₉ h₉ =>
        (follows_pieces body ?_).bind fun _ _ => (follows_directAll _).bind fun _ _ =>
        (follows_directAll _).bind fun _ _ => (follows_directAll _).bind fun _ _ =>
        (follows_direct _).bind fun _ _ => follows_direct _).congr ?_ (fun r => ?_) ?_
      · rw [List.length_cons, h₂, h₁]
        exact hblock
      · rw [h₄, h₃, h₂, h₁]
        exact hexit
      · omega
      · rw [hdepth]
        exact hcodes
      · rw [h₉, h₈, h₇, h₆, h₅, h₄, h₃, h₂, h₁]
        exact hbody _ rfl
      · simp [Piece.directives, TryFrame.clauseRows, TryFrame.rescueRows, catchRows_bodyGaps]
      · simp [Piece.gaps]
      · simp [Piece.copied]
termination_by structural p

theorem follows_pieces (ps : List Piece) {b : Builder} (hn : Nested b.regions.length ps) :
    Follows (build ps) b () (layOut ps) (fun r => gaps r ps) (copied ps) := by
  match ps with
  | [] => exact follows_pure
  | p :: rest =>
      exact (follows_piece p hn.1).bind fun b' hb' => follows_pieces rest (hb' ▸ hn.2)
termination_by structural ps

theorem follows_clauses (codes : List (Clause Piece)) {b : Builder} (depth : Nat) (rescued : Bool)
    (done : Label) (hdepth : b.regions.length = depth)
    (hn : ClausesNested (depth + rescued.toNat) depth codes) :
    Follows (buildClauses done rescued codes) b (bodyGaps rescued depth codes)
      (layOutClauses done codes) (fun r => clauseGaps r codes) (clausesCopied codes) := by
  match codes with
  | [] => exact follows_pure
  | ⟨_, stretch, slot, body, exit⟩ :: rest =>
      obtain ⟨hbody, hexit, hrest⟩ := hn
      have hguarded : ∀ b' : Builder, b'.regions.length = depth →
          Follows (Build.guardedIf rescued (build body)) b'
            (if rescued then gaps depth body else []) (layOut body) (fun r => gaps r body)
            (copied body) := by
        intro b' hb'
        cases rescued with
        | true =>
            refine Follows.guarded hb' (follows_pieces body ?_)
            rw [List.length_cons, hb']
            exact hbody
        | false =>
            refine (follows_pieces body ?_).answer fun _ => []
            rw [hb']
            exact hbody
      rw [buildClauses]
      refine ((follows_directAll _).bind fun b₁ h₁ =>
        (hguarded b₁ (h₁.trans hdepth)).bind fun b₂ h₂ => (follows_direct _).bind fun b₃ h₃ =>
        (follows_pieces exit ?_).bind fun b₄ h₄ => (follows_direct _).bind fun b₅ h₅ =>
        (follows_clauses rest depth rescued done ?_ hrest).answer fun others => _ :: others).congr ?_
          (fun r => ?_) ?_
      · rw [h₃, h₂, h₁, hdepth]
        exact hexit
      · omega
      · simp [layOutClauses]
      · simp [clauseGaps]
      · simp [clausesCopied]
termination_by structural codes

end

/-! ## Whole bodies -/

section Whole

variable {maxLabels maxLocals n' : Nat} {ps : List Piece}

/-- If there are enough labels, pieces are built by assembling their directives. -/
theorem buildCode_eq (hn : Nested 0 ps)
    (h : ¬ Assembler.Short { maxLabels := maxLabels } (layOut ps)) :
    buildCode maxLabels maxLocals ps = assemble maxLabels maxLocals (layOut ps) := by
  have hfollows := follows_pieces ps (b := ⟨{ maxLabels := maxLabels }, []⟩) hn
  rw [buildCode, assemble]
  cases hrun : Assembler.run { maxLabels := maxLabels } (layOut ps) with
  | ok assembler =>
      rw [hfollows.done hrun]
      rfl
  | error e =>
      obtain ⟨d, rfl⟩ | rfl := Assembler.run_error hrun
      · rw [hfollows.broken hrun]
        rfl
      · exact absurd hrun h

/-- If labels run short, what comes of it depends on where the first one that is too many
is created. -/
theorem buildCode_short (maxLocals : Nat) (hn : Nested 0 ps)
    (h : Assembler.Short { maxLabels := maxLabels } (layOut ps)) :
    buildCode maxLabels maxLocals ps = .error (.labelsExhausted maxLabels) ∧
        (∀ n', Numbered 0 (layOut ps) n' → maxLabels ∉ copied ps) ∨
      buildCode maxLabels maxLocals ps = .error (.defect .regionsEmptied) ∧
        ∀ n', Numbered 0 (layOut ps) n' → maxLabels ∈ copied ps := by
  have hcounts : ∀ n', Numbered 0 (layOut ps) n' →
      Assembler.Counts { maxLabels := maxLabels } (layOut ps) n' := fun n' hn' =>
    ⟨Nat.zero_le _, hn'⟩
  have hfollows := follows_pieces ps (b := ⟨{ maxLabels := maxLabels }, []⟩) hn
  rw [buildCode]
  refine (hfollows.short h).imp (fun ⟨hstop, hnot⟩ => ⟨?_, fun n' hn' => hnot n' (hcounts n' hn')⟩)
    fun ⟨hmiss, hmem⟩ => ⟨?_, fun n' hn' => hmem n' (hcounts n' hn')⟩
  · cases hx : build ps ⟨{ maxLabels := maxLabels }, []⟩ with
    | stopped e b =>
        rw [hx] at hstop
        obtain ⟨rfl, -⟩ := hstop
        rfl
    | done | broken =>
        rw [hx] at hstop
        exact hstop.elim
  · cases hx : build ps ⟨{ maxLabels := maxLabels }, []⟩ with
    | broken d =>
        rw [hx] at hmiss
        obtain rfl := hmiss
        rfl
    | stopped e b =>
        rw [hx] at hmiss
        exact absurd hmiss.2 (Nat.not_lt_zero _)
    | done =>
        rw [hx] at hmiss
        exact hmiss.elim

theorem lt_of_mem_copied (hn : Nested 0 ps) (h : Numbered 0 (layOut ps) n') {l : Nat}
    (hl : l ∈ copied ps) : l < n' := by
  have hfollows := follows_pieces ps (b := ⟨{ maxLabels := 0 }, []⟩) hn
  exact (h.create_mem_iff.mp (hfollows.created l hl)).2

/-- Code that is built is what the directives of the pieces put together. -/
theorem buildCode_ok {code : Code} (hn : Nested 0 ps)
    (h : buildCode maxLabels maxLocals ps = .ok code) :
    assemble maxLabels maxLocals (layOut ps) = .ok code := by
  have hshort : ¬ Assembler.Short { maxLabels := maxLabels } (layOut ps) := by
    intro hshort
    obtain ⟨herror, -⟩ | ⟨herror, -⟩ := buildCode_short maxLocals hn hshort <;>
      · rw [herror] at h
        cases h
  rw [← buildCode_eq hn hshort, h]

end Whole

end Lowering

open Lowering

variable {p : Annotated.Program} {maxLabels : Nat}

theorem generate_eq {ps : List Piece} {n' : Nat} (h : (program p).Yields 0 () ps n') :
    generate maxLabels p = (buildCode maxLabels p.maxSlots ps).mapError .ofAssembly := by
  rw [generate, show program p 0 = _ from h]

/-- The code of a tree is what its directives put together. -/
theorem generate_assembles {code : Code} (h : generate maxLabels p = .ok code) :
    ∃ ps n', (program p).Yields 0 () ps n' ∧
      assemble maxLabels p.maxSlots (layOut ps) = .ok code := by
  cases hprogram : program p 0 with
  | error d =>
      rw [generate, hprogram] at h
      cases h
  | ok emission =>
      have hyields : (program p).Yields 0 () emission.pieces emission.next := hprogram
      rw [generate_eq hyields] at h
      cases hbuild : buildCode maxLabels p.maxSlots emission.pieces with
      | error e =>
          rw [hbuild] at h
          cases h
      | ok code' =>
          rw [hbuild] at h
          obtain rfl := Except.ok.inj h
          exact ⟨_, _, hyields, buildCode_ok (nested_program hyields) hbuild⟩

theorem generate_ok {code : Code} (h : generate maxLabels p = .ok code) :
    ∃ ds, directives p = .ok ds ∧ Assembled ds code ∧ code.maxLocals = p.maxSlots := by
  obtain ⟨ps, n', hyields, hassemble⟩ := generate_assembles h
  exact ⟨_, directives_eq_ok_iff.mpr ⟨ps, n', hyields, rfl⟩, assemble_ok hassemble⟩

end MethodCompiler
