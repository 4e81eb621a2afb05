import Mathlib.Data.List.Forall2
import MethodCompiler.Proofs.Checking
import MethodCompiler.Proofs.Subtrees

/-!
# Where jumps lead

A statement stands inside the innermost loop or switch whose body contains it. That is a matter
of the text alone, and `within` lists the statements of a body with it, as it lists those of a
tree with the frames of the tree's constructs. The two lists go along with each other: a break
becomes a jump to the frame it stands inside, and so does a continue, if that is a loop.

Which jumps there are is also known to the constructs. A frame is marked by a jump to it and by
nothing else, so that the marks a construct ends with are exactly the jumps in its tree.
-/

namespace MethodCompiler

/-- What kind of construct a frame stands for. -/
def Frame.kind : Frame → ConstructKind
  | loop f => f.kind
  | switch _ => .switch

/-! ## Statements and what they stand inside -/

namespace Source

/-- The kind of construct that a statement is. -/
def Stmt.kind? : Stmt → Option ConstructKind
  | .whileLoop .. => some .whileLoop
  | .doLoop .. => some .doLoop
  | .forLoop .. => some .forLoop
  | .switch .. => some .switch
  | _ => none

mutual

/-- The statements of a statement, each with the construct that it stands inside. The first and
last part of a for loop stand outside the loop. -/
def Stmt.within (inner : Option ConstructKind) (s : Stmt) : List (Option ConstructKind × Stmt) :=
  (inner, s) :: match s with
  | .block ⟨_, body⟩ => Stmt.allWithin inner body
  | .ifElse _ _ s none => s.within inner
  | .ifElse _ _ s (some t) => s.within inner ++ t.within inner
  | .whileLoop _ _ body => body.within (some .whileLoop)
  | .doLoop _ body _ => body.within (some .doLoop)
  | .forLoop _ init _ update body =>
    Stmt.allWithin inner init ++ Stmt.allWithin inner update ++ body.within (some .forLoop)
  | .switch _ _ groups => Stmt.groupsWithin (some .switch) groups
  | .tryCatch _ ⟨_, body⟩ catches none =>
    Stmt.allWithin inner body ++ Stmt.clausesWithin inner catches
  | .tryCatch _ ⟨_, body⟩ catches (some ⟨_, last⟩) =>
    Stmt.allWithin inner body ++ Stmt.clausesWithin inner catches ++ Stmt.allWithin inner last
  | .localDecl .. | .expression .. | .breakJump _ | .continueJump _ | .throw .. | .empty => []
termination_by structural s

def Stmt.allWithin (inner : Option ConstructKind) (body : List Stmt) :
    List (Option ConstructKind × Stmt) :=
  match body with
  | [] => []
  | s :: rest => s.within inner ++ Stmt.allWithin inner rest
termination_by structural body

def Stmt.groupsWithin (inner : Option ConstructKind) (groups : List (Group Stmt)) :
    List (Option ConstructKind × Stmt) :=
  match groups with
  | [] => []
  | ⟨_, body⟩ :: rest => Stmt.allWithin inner body ++ Stmt.groupsWithin inner rest
termination_by structural groups

def Stmt.clausesWithin (inner : Option ConstructKind) (clauses : List (CatchClause Stmt)) :
    List (Option ConstructKind × Stmt) :=
  match clauses with
  | [] => []
  | ⟨_, _, _, ⟨_, body⟩⟩ :: rest => Stmt.allWithin inner body ++ Stmt.clausesWithin inner rest
termination_by structural clauses

end

end Source

namespace Annotated

/-- The number of the construct that a jump names. -/
def Stmt.target? : Stmt → Option Nat
  | .breakJump id | .continueJump id => some id
  | _ => none

mutual

/-- The statements of a statement of a tree, each with the construct that it stands inside. -/
def Stmt.within (inner : Option Frame) (s : Stmt) : List (Option Frame × Stmt) :=
  (inner, s) :: match s with
  | .block body => Stmt.allWithin inner body
  | .ifElse _ s none => s.within inner
  | .ifElse _ s (some t) => s.within inner ++ t.within inner
  | .whileLoop j _ body => body.within (some (j.frame .whileLoop))
  | .doLoop j body _ => body.within (some (j.frame .doLoop))
  | .forLoop j init _ update body =>
    Stmt.allWithin inner init ++ Stmt.allWithin inner update ++
      body.within (some (j.frame .forLoop))
  | .switch id hasBreak _ groups _ => Stmt.groupsWithin (some (.switch ⟨id, hasBreak⟩)) groups
  | .tryCatch body catches none => Stmt.allWithin inner body ++ Stmt.clausesWithin inner catches
  | .tryCatch body catches (some ⟨_, last⟩) =>
    Stmt.allWithin inner body ++ Stmt.clausesWithin inner catches ++ Stmt.allWithin inner last
  | .localInit .. | .expression .. | .breakJump _ | .continueJump _ | .throw _ | .empty => []
termination_by structural s

def Stmt.allWithin (inner : Option Frame) (body : List Stmt) : List (Option Frame × Stmt) :=
  match body with
  | [] => []
  | s :: rest => s.within inner ++ Stmt.allWithin inner rest
termination_by structural body

def Stmt.groupsWithin (inner : Option Frame) (groups : List (List Stmt)) :
    List (Option Frame × Stmt) :=
  match groups with
  | [] => []
  | body :: rest => Stmt.allWithin inner body ++ Stmt.groupsWithin inner rest
termination_by structural groups

def Stmt.clausesWithin (inner : Option Frame) (clauses : List (Catch Stmt)) :
    List (Option Frame × Stmt) :=
  match clauses with
  | [] => []
  | ⟨_, _, body⟩ :: rest => Stmt.allWithin inner body ++ Stmt.clausesWithin inner rest
termination_by structural clauses

end

/-- The frames of the constructs among statements. -/
def constructs (ts : List (Option Frame × Stmt)) : List Frame :=
  ts.filterMap (·.2.frame?)

@[simp] theorem constructs_nil : constructs [] = [] :=
  rfl

@[simp] theorem constructs_append (ts us : List (Option Frame × Stmt)) :
    constructs (ts ++ us) = constructs ts ++ constructs us :=
  List.filterMap_append

/-! ## Numbers and targets in a sound tree -/

/-- Statements right inside `inner`, and inside each other, whose constructs have different numbers
from `lo` up to `hi`. A jump names the construct it stands inside. -/
structure Orderly (inner : Option Frame) (lo : Nat) (ts : List (Option Frame × Stmt)) (hi : Nat) :
    Prop where
  le : lo ≤ hi
  numbered : ∀ f ∈ constructs ts, lo ≤ f.id ∧ f.id < hi
  nodup : ((constructs ts).map Frame.id).Nodup
  inside : ∀ p ∈ ts, p.1 = inner ∨ ∃ f ∈ constructs ts, p.1 = some f
  breaks : ∀ g id, (g, Stmt.breakJump id) ∈ ts → ∃ f ∈ g, f.id = id ∧ f.hasBreak
  continues : ∀ g id, (g, Stmt.continueJump id) ∈ ts → ∃ f ∈ g, f.id = id ∧ f.hasContinue

namespace Orderly

variable {inner : Option Frame} {lo m hi : Nat} {t : Stmt} {f : Frame}
  {ts us : List (Option Frame × Stmt)}

theorem nil : Orderly inner lo [] lo where
  le := Nat.le_refl lo
  numbered := by simp
  nodup := by simp
  inside := by simp
  breaks := by simp
  continues := by simp

theorem append (ht : Orderly inner lo ts m) (hu : Orderly inner m us hi) :
    Orderly inner lo (ts ++ us) hi where
  le := Nat.le_trans ht.le hu.le
  numbered := by
    intro f hf
    have hle := ht.le
    have hle' := hu.le
    rw [constructs_append, List.mem_append] at hf
    obtain hf | hf := hf
    · have := ht.numbered f hf
      omega
    · have := hu.numbered f hf
      omega
  nodup := by
    rw [constructs_append, List.map_append]
    refine ht.nodup.append hu.nodup ?_
    intro id hid hid'
    obtain ⟨f, hf, rfl⟩ := List.mem_map.mp hid
    obtain ⟨g, hg, hfg⟩ := List.mem_map.mp hid'
    have := ht.numbered f hf
    have := hu.numbered g hg
    omega
  inside := by
    intro p hp
    rw [constructs_append]
    obtain hp | hp := List.mem_append.mp hp
    · exact (ht.inside p hp).imp_right fun ⟨f, hf, h⟩ => ⟨f, List.mem_append_left _ hf, h⟩
    · exact (hu.inside p hp).imp_right fun ⟨f, hf, h⟩ => ⟨f, List.mem_append_right _ hf, h⟩
  breaks := fun g id hmem => (List.mem_append.mp hmem).elim (ht.breaks g id) (hu.breaks g id)
  continues := fun g id hmem =>
    (List.mem_append.mp hmem).elim (ht.continues g id) (hu.continues g id)

/-- A statement that is neither a construct nor a jump. -/
theorem plain (hframe : t.frame? = none) (htarget : t.target? = none) :
    Orderly inner lo [(inner, t)] lo where
  le := Nat.le_refl lo
  numbered := by simp [constructs, hframe]
  nodup := by simp [constructs, hframe]
  inside := by simp
  breaks := by
    intro g id hmem
    obtain rfl := (Prod.mk.inj (List.mem_singleton.mp hmem)).2
    cases htarget
  continues := by
    intro g id hmem
    obtain rfl := (Prod.mk.inj (List.mem_singleton.mp hmem)).2
    cases htarget

theorem breakJump (h : f.hasBreak) :
    Orderly (some f) lo [(some f, .breakJump f.id)] lo where
  le := Nat.le_refl lo
  numbered := by simp [constructs, Stmt.frame?]
  nodup := by simp [constructs, Stmt.frame?]
  inside := by simp
  breaks := by simp [h]
  continues := by simp

theorem continueJump (h : f.hasContinue) :
    Orderly (some f) lo [(some f, .continueJump f.id)] lo where
  le := Nat.le_refl lo
  numbered := by simp [constructs, Stmt.frame?]
  nodup := by simp [constructs, Stmt.frame?]
  inside := by simp
  breaks := by simp
  continues := by simp [h]

/-- A construct: what stands before its body is numbered below it, and its body above it. -/
theorem construct (ht : Orderly inner lo ts f.id) (hu : Orderly (some f) (f.id + 1) us hi)
    (hframe : t.frame? = some f) : Orderly inner lo ((inner, t) :: (ts ++ us)) hi := by
  have hframes : constructs ((inner, t) :: (ts ++ us)) = f :: (constructs ts ++ constructs us) := by
    rw [← constructs_append]
    exact List.filterMap_cons_some hframe
  have hle := ht.le
  have hle' := hu.le
  have hbelow : ∀ g ∈ constructs ts, lo ≤ g.id ∧ g.id < f.id := ht.numbered
  have habove : ∀ g ∈ constructs us, f.id < g.id ∧ g.id < hi := hu.numbered
  constructor
  case le => omega
  case numbered =>
    intro g hg
    rw [hframes, List.mem_cons, List.mem_append] at hg
    obtain rfl | hg | hg := hg
    · omega
    · have := hbelow g hg
      omega
    · have := habove g hg
      omega
  case nodup =>
    rw [hframes, List.map_cons, List.map_append, List.nodup_cons]
    refine ⟨?_, ht.nodup.append hu.nodup ?_⟩
    · rw [List.mem_append, List.mem_map, List.mem_map]
      rintro (⟨g, hg, hid⟩ | ⟨g, hg, hid⟩)
      · have := hbelow g hg
        omega
      · have := habove g hg
        omega
    · intro id hid hid'
      obtain ⟨g, hg, rfl⟩ := List.mem_map.mp hid
      obtain ⟨g', hg', hgg⟩ := List.mem_map.mp hid'
      have := hbelow g hg
      have := habove g' hg'
      omega
  case inside =>
    intro p hp
    rw [hframes]
    obtain rfl | hp := List.mem_cons.mp hp
    · exact .inl rfl
    · obtain hp | hp := List.mem_append.mp hp
      · refine (ht.inside p hp).imp_right fun ⟨g, hg, h⟩ => ⟨g, ?_, h⟩
        exact List.mem_cons_of_mem _ (List.mem_append_left _ hg)
      · refine .inr ?_
        obtain h | ⟨g, hg, h⟩ := hu.inside p hp
        · exact ⟨f, List.mem_cons_self, h⟩
        · exact ⟨g, List.mem_cons_of_mem _ (List.mem_append_right _ hg), h⟩
  case breaks =>
    intro g id hmem
    obtain heq | hmem := List.mem_cons.mp hmem
    · obtain rfl := (Prod.mk.inj heq).2
      cases hframe
    · exact (List.mem_append.mp hmem).elim (ht.breaks g id) (hu.breaks g id)
  case continues =>
    intro g id hmem
    obtain heq | hmem := List.mem_cons.mp hmem
    · obtain rfl := (Prod.mk.inj heq).2
      cases hframe
    · exact (List.mem_append.mp hmem).elim (ht.continues g id) (hu.continues g id)

end Orderly

mutual

theorem Stmt.Sound.orderly {inner : Option Frame} {lo hi : Nat} {t : Stmt}
    (h : t.Sound inner lo hi) : Orderly inner lo (t.within inner) hi := by
  match t with
  | .block body => exact (Orderly.plain rfl rfl).append (Stmt.AllSound.orderly h)
  | .localInit .. | .throw _ =>
      obtain ⟨-, rfl⟩ := h
      exact .plain rfl rfl
  | .expression .. =>
      obtain ⟨-, -, rfl⟩ := h
      exact .plain rfl rfl
  | .empty =>
      obtain rfl := h
      exact .plain rfl rfl
  | .ifElse _ s none => exact (Orderly.plain rfl rfl).append (Stmt.Sound.orderly h.2)
  | .ifElse _ s (some t) =>
      obtain ⟨-, m, hs, ht⟩ := h
      have hparts := (Stmt.Sound.orderly hs).append (Stmt.Sound.orderly ht)
      exact (Orderly.plain rfl rfl).append hparts
  | .whileLoop j _ body =>
      obtain ⟨-, rfl, hbody⟩ := h
      exact Orderly.nil.construct (f := j.frame .whileLoop) (Stmt.Sound.orderly hbody) rfl
  | .doLoop j body _ =>
      obtain ⟨-, rfl, hbody⟩ := h
      exact Orderly.nil.construct (f := j.frame .doLoop) (Stmt.Sound.orderly hbody) rfl
  | .forLoop j init _ update body =>
      obtain ⟨-, m, hinit, hupdate, hbody⟩ := h
      have hparts := (Stmt.AllSound.orderly hinit).append (Stmt.AllSound.orderly hupdate)
      exact hparts.construct (f := j.frame .forLoop) (Stmt.Sound.orderly hbody) rfl
  | .switch id hasBreak _ groups _ =>
      obtain ⟨-, -, rfl, hgroups⟩ := h
      exact Orderly.nil.construct (f := .switch ⟨id, hasBreak⟩) (Stmt.GroupsSound.orderly hgroups) rfl
  | .tryCatch body catches none =>
      obtain ⟨m, hbody, hcatches⟩ := h
      have hparts := (Stmt.AllSound.orderly hbody).append (Stmt.ClausesSound.orderly hcatches)
      exact (Orderly.plain rfl rfl).append hparts
  | .tryCatch body catches (some ⟨_, last⟩) =>
      obtain ⟨m, m', hbody, hcatches, hlast⟩ := h
      have hparts := (Stmt.AllSound.orderly hbody).append (Stmt.ClausesSound.orderly hcatches)
      exact (Orderly.plain rfl rfl).append (hparts.append (Stmt.AllSound.orderly hlast))
  | .breakJump id =>
      obtain ⟨⟨f, hf, rfl, hb⟩, rfl⟩ := h
      obtain rfl := Option.mem_def.mp hf
      exact .breakJump hb
  | .continueJump id =>
      obtain ⟨⟨f, hf, rfl, hc⟩, rfl⟩ := h
      obtain rfl := Option.mem_def.mp hf
      exact .continueJump hc
termination_by structural t

theorem Stmt.AllSound.orderly {inner : Option Frame} {lo hi : Nat} {ts : List Stmt}
    (h : Stmt.AllSound inner lo ts hi) : Orderly inner lo (Stmt.allWithin inner ts) hi := by
  match ts with
  | [] =>
      obtain rfl := h
      exact .nil
  | t :: rest =>
      obtain ⟨m, ht, hrest⟩ := h
      exact (Stmt.Sound.orderly ht).append (Stmt.AllSound.orderly hrest)
termination_by structural ts

theorem Stmt.GroupsSound.orderly {inner : Option Frame} {lo hi : Nat} {groups : List (List Stmt)}
    (h : Stmt.GroupsSound inner lo groups hi) :
    Orderly inner lo (Stmt.groupsWithin inner groups) hi := by
  match groups with
  | [] =>
      obtain rfl := h
      exact .nil
  | body :: rest =>
      obtain ⟨m, hbody, hrest⟩ := h
      exact (Stmt.AllSound.orderly hbody).append (Stmt.GroupsSound.orderly hrest)
termination_by structural groups

theorem Stmt.ClausesSound.orderly {inner : Option Frame} {lo hi : Nat} {clauses : List (Catch Stmt)}
    (h : Stmt.ClausesSound inner lo clauses hi) :
    Orderly inner lo (Stmt.clausesWithin inner clauses) hi := by
  match clauses with
  | [] =>
      obtain rfl := h
      exact .nil
  | ⟨_, _, body⟩ :: rest =>
      obtain ⟨m, hbody, hrest⟩ := h
      exact (Stmt.AllSound.orderly hbody).append (Stmt.ClausesSound.orderly hrest)
termination_by structural clauses

end

end Annotated

/-! ## Marks -/

open Annotated (Stmt Catch constructs)

/-- There is a jump for each mark that `g` has and `f` has not. -/
structure Frame.MarkedBy (ts : List (Option Frame × Stmt)) (f g : Frame) : Prop where
  grows : f.Grows g
  breaks : g.hasBreak → f.hasBreak ∨ Stmt.breakJump f.id ∈ ts.map (·.2)
  continues : g.hasContinue → f.hasContinue ∨ Stmt.continueJump f.id ∈ ts.map (·.2)

/-- The innermost frame may have got marks by jumps, and the others are as they were. -/
inductive MarkedBy (ts : List (Option Frame × Stmt)) : List Frame → List Frame → Prop
  | nil : MarkedBy ts [] []
  | cons {f g : Frame} {rest : List Frame} (h : f.MarkedBy ts g) :
      MarkedBy ts (f :: rest) (g :: rest)

/-- The construct right around a step, whatever its marks. -/
inductive Around : List Frame → Option Frame → Prop
  | nil : Around [] none
  | loop {f g : LoopFrame} {rest : List Frame} (hid : g.id = f.id) (hkind : g.kind = f.kind)
      (hloop : g.kind ≠ .switch) : Around (.loop f :: rest) (some (.loop g))
  | switch {f g : SwitchFrame} {rest : List Frame} (hid : g.id = f.id) :
      Around (.switch f :: rest) (some (.switch g))

namespace MarkedBy

variable {ts us : List (Option Frame × Stmt)} {fs gs hs : List Frame}

theorem refl (ts : List (Option Frame × Stmt)) (fs : List Frame) : MarkedBy ts fs fs := by
  cases fs with
  | nil => exact .nil
  | cons f rest => exact .cons ⟨.refl f, .inl, .inl⟩

theorem trans (h : MarkedBy ts fs gs) (h' : MarkedBy us gs hs) : MarkedBy (ts ++ us) fs hs := by
  cases h with
  | nil =>
      cases h'
      exact .nil
  | cons hfg =>
      cases h' with
      | cons hgh =>
          refine .cons ⟨hfg.grows.trans hgh.grows, fun hb => ?_, fun hc => ?_⟩
          · rw [List.map_append, List.mem_append, ← or_assoc]
            obtain hb | hjump := hgh.breaks hb
            · exact .inl (hfg.breaks hb)
            · exact .inr (by rwa [← hfg.grows.id_eq])
          · rw [List.map_append, List.mem_append, ← or_assoc]
            obtain hc | hjump := hgh.continues hc
            · exact .inl (hfg.continues hc)
            · exact .inr (by rwa [← hfg.grows.id_eq])

theorem mono (h : MarkedBy ts fs gs) (hsub : ts ⊆ us) : MarkedBy us fs gs := by
  cases h with
  | nil => exact .nil
  | cons hfg =>
      have hmap := List.map_subset (·.2) hsub
      exact .cons ⟨hfg.grows, fun hb => (hfg.breaks hb).imp_right (hmap ·),
        fun hc => (hfg.continues hc).imp_right (hmap ·)⟩

theorem around {inner : Option Frame} (h : MarkedBy ts fs gs) (hinner : Around fs inner) :
    Around gs inner := by
  cases h with
  | nil => exact hinner
  | cons hfg =>
      next g _ =>
      have hgrows := hfg.grows
      cases hinner with
      | loop hid hkind hloop =>
          cases g with
          | loop g => exact .loop (hid.trans hgrows.1.symm) (hkind.trans hgrows.2.1.symm) hloop
          | switch g => exact hgrows.elim
      | switch hid =>
          cases g with
          | loop g => exact hgrows.elim
          | switch g => exact .switch (hid.trans hgrows.1.symm)

end MarkedBy

/-! ## Statements and their trees -/

/-- A statement and where it stands, and what has become of it. A jump names the construct around
it. But a continue right inside a switch is left out, where that is the policy. -/
def Resolved (policy : ContinuePolicy) (place : Option ConstructKind × Source.Stmt)
    (place' : Option Frame × Stmt) : Prop :=
  place'.1.map Frame.kind = place.1 ∧
    match place.2 with
    | .breakJump _ => ∃ f ∈ place'.1, place'.2 = .breakJump f.id
    | .continueJump _ => ∃ f ∈ place'.1, if place.1 = some .switch
        then policy = .ignore ∧ place'.2 = .empty else place'.2 = .continueJump f.id
    | s => place'.2.target? = none ∧ place'.2.frame?.map Frame.kind = s.kind?

/-- Statements and their trees. What the constructs among them are marked with are jumps among
them. -/
structure Resolution (policy : ContinuePolicy) (ss : List (Option ConstructKind × Source.Stmt))
    (ts : List (Option Frame × Stmt)) (fs gs : List Frame) : Prop where
  resolved : List.Forall₂ (Resolved policy) ss ts
  marked : MarkedBy ts fs gs
  breaks : ∀ f ∈ constructs ts, f.hasBreak → Stmt.breakJump f.id ∈ ts.map (·.2)
  continues : ∀ f ∈ constructs ts, f.hasContinue → Stmt.continueJump f.id ∈ ts.map (·.2)

namespace Resolution

variable {policy : ContinuePolicy} {ss ss' : List (Option ConstructKind × Source.Stmt)}
  {ts us : List (Option Frame × Stmt)} {fs gs hs : List Frame} {inner : Option Frame}
  {s : Source.Stmt} {t : Stmt} {f : Frame}

theorem nil : Resolution policy [] [] fs fs :=
  ⟨.nil, .refl _ _, by simp, by simp⟩

theorem append (h : Resolution policy ss ts fs gs) (h' : Resolution policy ss' us gs hs) :
    Resolution policy (ss ++ ss') (ts ++ us) fs hs where
  resolved := List.rel_append h.resolved h'.resolved
  marked := h.marked.trans h'.marked
  breaks := by
    intro f hf hb
    rw [Annotated.constructs_append, List.mem_append] at hf
    rw [List.map_append, List.mem_append]
    exact hf.imp (h.breaks f · hb) (h'.breaks f · hb)
  continues := by
    intro f hf hc
    rw [Annotated.constructs_append, List.mem_append] at hf
    rw [List.map_append, List.mem_append]
    exact hf.imp (h.continues f · hc) (h'.continues f · hc)

/-- A statement that is no construct. -/
theorem single (h : Resolved policy (inner.map Frame.kind, s) (inner, t)) (hframe : t.frame? = none)
    (hmarked : MarkedBy [(inner, t)] fs gs) :
    Resolution policy [(inner.map Frame.kind, s)] [(inner, t)] fs gs := by
  refine ⟨.cons h .nil, hmarked, ?_, ?_⟩ <;> simp [constructs, hframe]

/-- A statement that is neither a construct nor a jump, with what stands inside it. -/
theorem node (h : Resolution policy ss ts fs gs)
    (hresolved : Resolved policy (inner.map Frame.kind, s) (inner, t)) (hframe : t.frame? = none) :
    Resolution policy ((inner.map Frame.kind, s) :: ss) ((inner, t) :: ts) fs gs :=
  (single hresolved hframe (.refl _ fs)).append h

/-- A construct, which starts without marks. What stands before its body may mark the one around
it, and its body marks it. -/
theorem construct {f₀ : Frame} (h : Resolution policy ss ts fs gs)
    (h' : Resolution policy ss' us (f₀ :: gs) (f :: hs)) (hframe : t.frame? = some f)
    (hbreak : f₀.hasBreak = false) (hcontinue : f₀.hasContinue = false)
    (hresolved : Resolved policy (inner.map Frame.kind, s) (inner, t)) :
    Resolution policy ((inner.map Frame.kind, s) :: (ss ++ ss')) ((inner, t) :: (ts ++ us)) fs hs := by
  have hframes : constructs ((inner, t) :: (ts ++ us)) = f :: (constructs ts ++ constructs us) := by
    rw [← Annotated.constructs_append]
    exact List.filterMap_cons_some hframe
  have hts : ts ⊆ (inner, t) :: (ts ++ us) := fun p hp =>
    List.mem_cons_of_mem _ (List.mem_append_left us hp)
  have hus : us ⊆ (inner, t) :: (ts ++ us) := fun p hp =>
    List.mem_cons_of_mem _ (List.mem_append_right ts hp)
  cases h'.marked with
  | cons hmarked =>
      refine ⟨.cons hresolved (List.rel_append h.resolved h'.resolved), h.marked.mono hts, ?_, ?_⟩
      · intro g hg hb
        rw [hframes, List.mem_cons, List.mem_append] at hg
        obtain rfl | hg | hg := hg
        · have hjump := hmarked.breaks hb
          rw [hbreak, ← hmarked.grows.id_eq] at hjump
          exact List.map_subset (·.2) hus (hjump.resolve_left Bool.false_ne_true)
        · exact List.map_subset (·.2) hts (h.breaks g hg hb)
        · exact List.map_subset (·.2) hus (h'.breaks g hg hb)
      · intro g hg hc
        rw [hframes, List.mem_cons, List.mem_append] at hg
        obtain rfl | hg | hg := hg
        · have hjump := hmarked.continues hc
          rw [hcontinue, ← hmarked.grows.id_eq] at hjump
          exact List.map_subset (·.2) hus (hjump.resolve_left Bool.false_ne_true)
        · exact List.map_subset (·.2) hts (h.continues g hg hc)
        · exact List.map_subset (·.2) hus (h'.continues g hg hc)

end Resolution

/-! ## Checking -/

namespace Analysis

variable {policy : ContinuePolicy}

/-- Statements are resolved in whatever construct is around them. -/
def Resolves (policy : ContinuePolicy)
    (ss : Option ConstructKind → List (Option ConstructKind × Source.Stmt))
    (ts : Option Frame → List (Option Frame × Stmt)) (fs gs : List Frame) : Prop :=
  ∀ inner, Around fs inner → Resolution policy (ss (inner.map Frame.kind)) (ts inner) fs gs

theorem resolves_breakJump {line : UInt32} {id : Nat} {e e' : Enclosing}
    (h : e.resolveBreak = .ok (id, e')) :
    Resolves policy (fun k => (Source.Stmt.breakJump line).within k)
      (fun g => (Stmt.breakJump id).within g) e.frames e'.frames := by
  obtain ⟨frames, nextId⟩ := e
  intro inner hinner
  cases hinner with
  | nil => cases h
  | loop hid hkind hloop =>
      obtain ⟨rfl, rfl⟩ := Prod.mk.inj (Except.ok.inj h)
      refine .single ⟨rfl, _, rfl, congrArg _ hid.symm⟩ rfl (.cons ⟨?_, fun _ => ?_, .inl⟩)
      · exact ⟨rfl, rfl, fun _ => rfl, fun h => h⟩
      · exact .inr (List.mem_singleton_self _)
  | switch hid =>
      obtain ⟨rfl, rfl⟩ := Prod.mk.inj (Except.ok.inj h)
      refine .single ⟨rfl, _, rfl, congrArg _ hid.symm⟩ rfl (.cons ⟨?_, fun _ => ?_, .inl⟩)
      · exact ⟨rfl, fun _ => rfl⟩
      · exact .inr (List.mem_singleton_self _)

theorem resolves_continueJump {line : UInt32} {target : ContinueTarget} {t : Stmt} {e e' : Enclosing}
    (ht : match target with
      | .loop id => t = .continueJump id
      | .switch _ => policy = .ignore ∧ t = .empty)
    (h : e.resolveContinue = .ok (target, e')) :
    Resolves policy (fun k => (Source.Stmt.continueJump line).within k) (fun g => t.within g)
      e.frames e'.frames := by
  obtain ⟨frames, nextId⟩ := e
  intro inner hinner
  cases hinner with
  | nil => cases h
  | loop hid hkind hloop =>
      obtain ⟨rfl, rfl⟩ := Prod.mk.inj (Except.ok.inj h)
      obtain rfl := ht
      refine .single ⟨rfl, _, rfl, ?_⟩ rfl (.cons ⟨?_, .inl, fun _ => ?_⟩)
      · rw [if_neg (by simpa [Frame.kind] using hloop)]
        exact congrArg _ hid.symm
      · exact ⟨rfl, rfl, id, fun _ => rfl⟩
      · exact .inr (List.mem_singleton_self _)
  | switch hid =>
      obtain ⟨rfl, rfl⟩ := Prod.mk.inj (Except.ok.inj h)
      obtain ⟨hpolicy, rfl⟩ := ht
      exact .single ⟨rfl, _, rfl, by simp [Frame.kind, hpolicy]⟩ rfl (.refl _ _)

mutual

/-- A statement becomes one with the jumps in it resolved. -/
theorem Becomes.resolves (s : Source.Stmt) {st st' : Progress} {t : Stmt}
    (h : Becomes policy s st t st') :
    Resolves policy (fun k => s.within k) (fun g => t.within g) st.enclosing.frames
      st'.enclosing.frames := by
  match s with
  | .block ⟨_, body⟩ =>
      obtain ⟨ts, st₁, hts, rfl, rfl⟩ := h
      intro inner hinner
      exact (AllBecome.resolves body hts inner hinner).node ⟨rfl, rfl, rfl⟩ rfl
  | .localDecl _ name ty none =>
      obtain ⟨-, rfl, slot, sc, -, rfl⟩ := h
      exact fun inner hinner => .single ⟨rfl, rfl, rfl⟩ rfl (.refl _ _)
  | .localDecl _ name ty (some e) =>
      obtain ⟨-, v, slot, sc, -, -, -, rfl, rfl⟩ := h
      exact fun inner hinner => .single ⟨rfl, rfl, rfl⟩ rfl (.refl _ _)
  | .expression _ e =>
      obtain ⟨v, -, rfl, rfl⟩ := h
      exact fun inner hinner => .single ⟨rfl, rfl, rfl⟩ rfl (.refl _ _)
  | .ifElse _ c s none =>
      obtain ⟨v, t₁, -, ht₁, rfl⟩ := h
      intro inner hinner
      exact (Becomes.resolves s ht₁ inner hinner).node ⟨rfl, rfl, rfl⟩ rfl
  | .ifElse _ c s (some s') =>
      obtain ⟨v, t₁, st₁, t₂, -, ht₁, ht₂, rfl⟩ := h
      intro inner hinner
      have h₁ := Becomes.resolves s ht₁ inner hinner
      have h₂ := Becomes.resolves s' ht₂ inner (h₁.marked.around hinner)
      exact (h₁.append h₂).node ⟨rfl, rfl, rfl⟩ rfl
  | .whileLoop _ c body =>
      obtain ⟨j, v, t₁, -, -, ht₁, rfl⟩ := h
      intro inner hinner
      have hbody := Becomes.resolves body ht₁ (j.frame .whileLoop) (.loop rfl rfl nofun)
      exact Resolution.nil.construct hbody rfl rfl rfl ⟨rfl, rfl, rfl⟩
  | .doLoop _ body c =>
      obtain ⟨j, v, t₁, -, ht₁, -, rfl⟩ := h
      intro inner hinner
      have hbody := Becomes.resolves body ht₁ (j.frame .doLoop) (.loop rfl rfl nofun)
      exact Resolution.nil.construct hbody rfl rfl rfl ⟨rfl, rfl, rfl⟩
  | .forLoop _ init c update body =>
      obtain ⟨j, v, ts₁, st₁, ts₂, st₂, t₁, st₃, hts₁, -, hts₂, -, ht₁, rfl, rfl⟩ := h
      intro inner hinner
      have h₁ := AllBecome.resolves init hts₁ inner hinner
      have h₂ := h₁.append (AllBecome.resolves update hts₂ inner (h₁.marked.around hinner))
      have hbody := Becomes.resolves body ht₁ (j.frame .forLoop) (.loop rfl rfl nofun)
      exact h₂.construct hbody rfl rfl rfl ⟨rfl, rfl, rfl⟩
  | .switch _ selector groups =>
      obtain ⟨id, hasBreak, v, labels, bodies, d, -, -, -, -, hbodies, -, rfl⟩ := h
      intro inner hinner
      have hgroups := GroupsBecome.resolves groups hbodies (some (.switch ⟨id, hasBreak⟩)) (.switch rfl)
      exact Resolution.nil.construct hgroups rfl rfl rfl ⟨rfl, rfl, rfl⟩
  | .breakJump line =>
      obtain ⟨id, enclosing, hresolve, rfl, rfl⟩ := h
      exact resolves_breakJump hresolve
  | .continueJump line =>
      obtain ⟨target, enclosing, hresolve, rfl, ht⟩ := h
      exact resolves_continueJump ht hresolve
  | .tryCatch _ ⟨_, body⟩ catches none =>
      obtain ⟨ts, st₁, cs, hts, hcs, rfl⟩ := h
      intro inner hinner
      have h₁ := AllBecome.resolves body hts inner hinner
      have h₂ := ClausesBecome.resolves catches hcs inner (h₁.marked.around hinner)
      exact (h₁.append h₂).node ⟨rfl, rfl, rfl⟩ rfl
  | .tryCatch _ ⟨_, body⟩ catches (some ⟨_, last⟩) =>
      obtain ⟨ts, st₁, cs, st₂, slot, sc, ts', st₃, hts, hcs, -, hts', rfl, rfl⟩ := h
      intro inner hinner
      have h₁ := AllBecome.resolves body hts inner hinner
      have h₂ := h₁.append (ClausesBecome.resolves catches hcs inner (h₁.marked.around hinner))
      have h₃ := h₂.append (AllBecome.resolves last hts' inner (h₂.marked.around hinner))
      exact h₃.node ⟨rfl, rfl, rfl⟩ rfl
  | .throw _ e =>
      obtain ⟨v, -, -, rfl, rfl⟩ := h
      exact fun inner hinner => .single ⟨rfl, rfl, rfl⟩ rfl (.refl _ _)
  | .empty =>
      obtain ⟨rfl, rfl⟩ := h
      exact fun inner hinner => .single ⟨rfl, rfl, rfl⟩ rfl (.refl _ _)
termination_by structural s

theorem AllBecome.resolves (body : List Source.Stmt) {st st' : Progress} {ts : List Stmt}
    (h : AllBecome policy body st ts st') :
    Resolves policy (fun k => Source.Stmt.allWithin k body) (fun g => Stmt.allWithin g ts)
      st.enclosing.frames st'.enclosing.frames := by
  match body with
  | [] =>
      obtain ⟨rfl, rfl⟩ := h
      exact fun inner hinner => .nil
  | s :: rest =>
      obtain ⟨t, st₁, ts', ht, hts', rfl⟩ := h
      intro inner hinner
      have h₁ := Becomes.resolves s ht inner hinner
      exact h₁.append (AllBecome.resolves rest hts' inner (h₁.marked.around hinner))
termination_by structural body

theorem GroupsBecome.resolves (groups : List (Source.Group Source.Stmt)) {st st' : Progress}
    {bodies : List (List Stmt)} (h : GroupsBecome policy groups st bodies st') :
    Resolves policy (fun k => Source.Stmt.groupsWithin k groups) (fun g => Stmt.groupsWithin g bodies)
      st.enclosing.frames st'.enclosing.frames := by
  match groups with
  | [] =>
      obtain ⟨rfl, rfl⟩ := h
      exact fun inner hinner => .nil
  | ⟨_, body⟩ :: rest =>
      obtain ⟨ts, st₁, bodies', hts, hbodies', rfl⟩ := h
      intro inner hinner
      have h₁ := AllBecome.resolves body hts inner hinner
      exact h₁.append (GroupsBecome.resolves rest hbodies' inner (h₁.marked.around hinner))
termination_by structural groups

theorem ClausesBecome.resolves (clauses : List (Source.CatchClause Source.Stmt)) {st st' : Progress}
    {cs : List (Catch Stmt)} (h : ClausesBecome policy clauses st cs st') :
    Resolves policy (fun k => Source.Stmt.clausesWithin k clauses) (fun g => Stmt.clausesWithin g cs)
      st.enclosing.frames st'.enclosing.frames := by
  match clauses with
  | [] =>
      obtain ⟨rfl, rfl⟩ := h
      exact fun inner hinner => .nil
  | ⟨_, exceptionType, param, ⟨_, body⟩⟩ :: rest =>
      obtain ⟨slot, sc, ts, st₁, cs', -, hts, hcs', rfl⟩ := h
      intro inner hinner
      have h₁ := AllBecome.resolves body hts inner hinner
      exact h₁.append (ClausesBecome.resolves rest hcs' inner (h₁.marked.around hinner))
termination_by structural clauses

end

end Analysis

/-- Jumps lead to the construct they stand inside. In the tree of a body that is accepted, loops and
switches have different numbers, a break names the innermost of them around it, a continue
too and that is a loop, and a construct is marked by exactly the jumps that name it. A statement
of the body stands where its tree does. It becomes a jump only if it is one, and under a policy
that allows it a continue right inside a switch becomes the empty statement. -/
theorem jumps_lead_inside {settings : Settings} {p : Source.Program} {h : Annotated.Program}
    (hcheck : check settings p = .ok h) :
    let tree := Stmt.allWithin none h.body
    ((constructs tree).map Frame.id).Nodup ∧
      (∀ inner id, (inner, Stmt.breakJump id) ∈ tree →
        ∃ f ∈ constructs tree, inner = some f ∧ f.id = id) ∧
      (∀ inner id, (inner, Stmt.continueJump id) ∈ tree →
        ∃ f, .loop f ∈ constructs tree ∧ inner = some (.loop f) ∧ f.id = id) ∧
      (∀ f ∈ constructs tree,
        (f.hasBreak ↔ Stmt.breakJump f.id ∈ tree.map (·.2)) ∧
        (f.hasContinue ↔ Stmt.continueJump f.id ∈ tree.map (·.2))) ∧
      List.Forall₂ (Resolved settings.continueInSwitch) (Source.Stmt.allWithin none p.body) tree := by
  intro tree
  obtain ⟨hi, hsound⟩ := check_sound hcheck
  have horderly : Annotated.Orderly none 0 tree hi := hsound.orderly
  obtain ⟨s, hbecomes, -⟩ := check_becomes hcheck
  have hresolution : Resolution settings.continueInSwitch (Source.Stmt.allWithin none p.body) tree
      [] s.enclosing.frames := Analysis.AllBecome.resolves p.body hbecomes none .nil
  have hinside : ∀ f t, (some f, t) ∈ tree → f ∈ constructs tree := by
    intro f t hmem
    obtain hnone | ⟨g, hg, heq⟩ := horderly.inside _ hmem
    · cases hnone
    · obtain rfl := Option.some.inj heq
      exact hg
  refine ⟨horderly.nodup, ?_, ?_, ?_, hresolution.resolved⟩
  · intro inner id hmem
    obtain ⟨f, hf, hid, -⟩ := horderly.breaks inner id hmem
    obtain rfl := Option.mem_def.mp hf
    exact ⟨f, hinside f _ hmem, rfl, hid⟩
  · intro inner id hmem
    obtain ⟨f, hf, hid, hc⟩ := horderly.continues inner id hmem
    obtain rfl := Option.mem_def.mp hf
    cases f with
    | loop f => exact ⟨f, hinside _ _ hmem, rfl, hid⟩
    | switch f => cases hc
  · -- a jump names the construct it stands inside, and no other has that number
    intro f hf
    have hsame := List.inj_on_of_nodup_map horderly.nodup
    refine ⟨⟨hresolution.breaks f hf, fun hmem => ?_⟩, ⟨hresolution.continues f hf, fun hmem => ?_⟩⟩
    · obtain ⟨⟨inner, _⟩, hmem, rfl⟩ := List.mem_map.mp hmem
      obtain ⟨g, hg, hid, hb⟩ := horderly.breaks inner f.id hmem
      obtain rfl := Option.mem_def.mp hg
      rwa [hsame hf (hinside g _ hmem) hid.symm]
    · obtain ⟨⟨inner, _⟩, hmem, rfl⟩ := List.mem_map.mp hmem
      obtain ⟨g, hg, hid, hc⟩ := horderly.continues inner f.id hmem
      obtain rfl := Option.mem_def.mp hg
      rwa [hsame hf (hinside g _ hmem) hid.symm]

/-- Jumps in the first and last part of a for loop, and a continue inside a switch. -/
def strayJumps : Source.Program :=
  ⟨[.whileLoop 1 (.literal 1 (.boolean true)) (.block ⟨1,
    [.forLoop 2 [.breakJump 2] none [.continueJump 2] (.breakJump 3),
      .switch 4 (.literal 4 (.int 0)) [⟨[.default], [.continueJump 5, .breakJump 6]⟩]]⟩)]⟩

/-- Their tree: the for loop is not left by the jumps beside its body. -/
def strayJumpsTree : Annotated.Program :=
  ⟨[.whileLoop ⟨0, true, true⟩ (.bool .boolean true) (.block
    [.forLoop ⟨1, true, false⟩ [.breakJump 0] none [.continueJump 0] (.breakJump 1),
      .switch 2 true (.int .int 0) [[.empty, .breakJump 2]] ⟨0, 0, 0, [], some 0, .lookup⟩])], 0⟩

theorem jumps_lead_inside_stray :
    check { continueInSwitch := .ignore } strayJumps = .ok strayJumpsTree ∧
      ((constructs (Stmt.allWithin none strayJumpsTree.body)).map Frame.id).Nodup ∧
      List.Forall₂ (Resolved .ignore) (Source.Stmt.allWithin none strayJumps.body)
        (Stmt.allWithin none strayJumpsTree.body) := by
  have hcheck : check { continueInSwitch := .ignore } strayJumps = .ok strayJumpsTree := by cbv
  obtain ⟨hnodup, -, -, -, hresolved⟩ := jumps_lead_inside hcheck
  exact ⟨hcheck, hnodup, hresolved⟩

end MethodCompiler
