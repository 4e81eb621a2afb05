import MethodCompiler.Assembly

/-!
# Assembled code

What assembly makes of directives, apart from the order in which it goes about it.
Each directive has its place in the code: an instruction stands there, a label has
that position. `Laid` says so of directives one after another, and it splits where
the directives do, which lets a proof look at one part of the code at a time.

Rows of the exception table are handed on with positions for labels. Those that
cover nothing are left out, which makes no difference to what covers an
instruction.
-/

namespace MethodCompiler

/-- Carries out directives in order. -/
def Assembler.run (a : Assembler) : List Directive → Except AssemblyError Assembler
  | [] => .ok a
  | d :: rest => a.apply d >>= fun a => run a rest

/-- The code that directives put together, with at most `maxLabels` labels. -/
def assemble (maxLabels maxLocals : Nat) (directives : List Directive) :
    Except AssemblyError Code := do
  let a ← Assembler.run { maxLabels := maxLabels } directives
  a.finish maxLocals

namespace Directive

/-- The instruction a directive emits. -/
def instruction? : Directive → Option Instruction
  | emit i => some i
  | table default low high targets =>
    some ⟨.tableSwitch, some (.table ⟨default, low, high, targets.toArray⟩)⟩
  | lookup default _ pairs => some ⟨.lookupSwitch, some (.lookup ⟨default, pairs.toArray⟩)⟩
  | create _ | place _ | handler .. => none

/-- The row a directive adds to the exception table. -/
def row? : Directive → Option PendingHandler
  | handler start stop target catchType => some ⟨start, stop, target, catchType⟩
  | _ => none

/-- The number of instructions a directive emits. -/
def width (d : Directive) : Nat :=
  if d.instruction?.isSome then 1 else 0

/-- The directive has its place in the code at a position. -/
def LaidAt (code : Code) (pc : Nat) : Directive → Prop
  | place l => code.position l = some pc
  | d => ∀ i, d.instruction? = some i → code.instructions[pc]? = some i

@[simp]
theorem width_emit (i : Instruction) : (emit i).width = 1 := rfl

@[simp]
theorem width_create (l : Label) : (create l).width = 0 := rfl

@[simp]
theorem width_place (l : Label) : (place l).width = 0 := rfl

@[simp]
theorem laidAt_place {code : Code} {pc : Nat} {l : Label} :
    (place l).LaidAt code pc ↔ code.position l = some pc := Iff.rfl

@[simp]
theorem laidAt_emit {code : Code} {pc : Nat} {i : Instruction} :
    (emit i).LaidAt code pc ↔ code.instructions[pc]? = some i :=
  ⟨fun h => h i rfl, fun h _ hi => by rw [← Option.some.inj hi, h]⟩

end Directive

/-- The number of instructions that directives emit. -/
def size : List Directive → Nat
  | [] => 0
  | d :: rest => d.width + size rest

/-- The directives have their places in the code from a position on. -/
def Laid (code : Code) : Nat → List Directive → Prop
  | _, [] => True
  | pc, d :: rest => d.LaidAt code pc ∧ Laid code (pc + d.width) rest

/-- The rows that directives add to the exception table. -/
def pendingRows (ds : List Directive) : List PendingHandler :=
  ds.filterMap Directive.row?

@[simp]
theorem size_nil : size [] = 0 := rfl

@[simp]
theorem size_cons (d : Directive) (ds : List Directive) : size (d :: ds) = d.width + size ds := rfl

@[simp]
theorem size_append (ds es : List Directive) : size (ds ++ es) = size ds + size es := by
  induction ds with
  | nil => simp
  | cons d ds ih => simp only [List.cons_append, size_cons, ih, Nat.add_assoc]

theorem size_eq_length (ds : List Directive) :
    size ds = (ds.filterMap Directive.instruction?).length := by
  induction ds with
  | nil => rfl
  | cons d ds ih =>
      rw [size_cons, ih, Directive.width]
      cases hd : d.instruction? with
      | none => simp [hd]
      | some i =>
          simp [hd]
          omega

@[simp]
theorem laid_nil {code : Code} {pc : Nat} : Laid code pc [] := trivial

theorem laid_cons {code : Code} {pc : Nat} {d : Directive} {ds : List Directive} :
    Laid code pc (d :: ds) ↔ d.LaidAt code pc ∧ Laid code (pc + d.width) ds := Iff.rfl

theorem laid_append {code : Code} {pc : Nat} {ds es : List Directive} :
    Laid code pc (ds ++ es) ↔ Laid code pc ds ∧ Laid code (pc + size ds) es := by
  induction ds generalizing pc with
  | nil => simp
  | cons d ds ih =>
      simp only [List.cons_append, laid_cons, ih, size_cons, Nat.add_assoc, and_assoc]

@[simp]
theorem pendingRows_append (ds es : List Directive) :
    pendingRows (ds ++ es) = pendingRows ds ++ pendingRows es :=
  List.filterMap_append

/-! ## Carrying out directives -/

namespace Assembler

/-- The position a label has so far. -/
def position? (a : Assembler) (l : Label) : Option Nat :=
  (a.labels[l]?).join

/-- What one directive does to code that is being put together. -/
structure Grows (a : Assembler) (ds : List Directive) (a' : Assembler) : Prop where
  instructions : a'.instructions.toList =
    a.instructions.toList ++ ds.filterMap Directive.instruction?
  handlers : a'.handlers.toList = a.handlers.toList ++ pendingRows ds
  position : ∀ l pc, a.position? l = some pc → a'.position? l = some pc

theorem Grows.trans {a b c : Assembler} {ds es : List Directive} (h₁ : a.Grows ds b)
    (h₂ : b.Grows es c) : a.Grows (ds ++ es) c where
  instructions := by
    rw [h₂.instructions, h₁.instructions, List.filterMap_append, List.append_assoc]
  handlers := by
    rw [h₂.handlers, h₁.handlers, pendingRows_append, List.append_assoc]
  position := fun l pc h => h₂.position l pc (h₁.position l pc h)

theorem Grows.size {a b : Assembler} {ds : List Directive} (h : a.Grows ds b) :
    b.instructions.size = a.instructions.size + MethodCompiler.size ds := by
  rw [size_eq_length, ← Array.length_toList, h.instructions, List.length_append,
    Array.length_toList]

theorem grows_emit (a : Assembler) (d : Directive) (i : Instruction)
    (hd : d.instruction? = some i) (hrow : d.row? = none) : a.Grows [d] (a.emit i) where
  instructions := by simp [emit, hd]
  handlers := by simp [emit, pendingRows, hrow]
  position := fun _ _ h => h

theorem apply_grows {a a' : Assembler} {d : Directive} (h : a.apply d = .ok a') :
    a.Grows [d] a' := by
  cases d with
  | create l =>
      simp only [apply, createLabel] at h
      split at h
      · simp [Except.map] at h
      · obtain rfl := Except.ok.inj h
        refine ⟨by simp [Directive.instruction?], by simp [pendingRows, Directive.row?], ?_⟩
        intro l pc hl
        simp only [position?, Array.getElem?_push] at hl ⊢
        split
        · next heq => simp [heq] at hl
        · exact hl
  | place l =>
      simp only [apply, place] at h
      split at h
      · simp at h
      · simp at h
      · next hnone =>
          obtain rfl := Except.ok.inj h
          refine ⟨by simp [Directive.instruction?], by simp [pendingRows, Directive.row?], ?_⟩
          intro l' pc hl
          have hne : l ≠ l' := by
            rintro rfl
            simp [position?, hnone] at hl
          rw [position?] at hl ⊢
          rw [Array.getElem?_setIfInBounds_ne hne]
          exact hl
  | emit i =>
      obtain rfl := Except.ok.inj h
      exact grows_emit a _ i rfl rfl
  | table default low high targets =>
      simp only [apply, emitTable] at h
      split at h
      · obtain rfl := Except.ok.inj h
        exact grows_emit a _ _ rfl rfl
      · simp at h
  | lookup default count pairs =>
      simp only [apply, emitLookup] at h
      split at h
      · obtain rfl := Except.ok.inj h
        exact grows_emit a _ _ rfl rfl
      · simp at h
  | handler start stop target catchType =>
      obtain rfl := Except.ok.inj h
      exact ⟨by simp [addHandler, Directive.instruction?],
        by simp [addHandler, pendingRows, Directive.row?], fun _ _ h => h⟩

theorem run_cons {a a' : Assembler} {d : Directive} {ds : List Directive}
    (h : a.run (d :: ds) = .ok a') : ∃ b, a.apply d = .ok b ∧ b.run ds = .ok a' := by
  rw [run] at h
  cases hd : a.apply d with
  | error e => simp [hd, bind, Except.bind] at h
  | ok b =>
      rw [hd] at h
      exact ⟨b, rfl, h⟩

theorem run_grows {a a' : Assembler} {ds : List Directive} (h : a.run ds = .ok a') :
    a.Grows ds a' := by
  induction ds generalizing a with
  | nil =>
      obtain rfl := Except.ok.inj h
      exact ⟨by simp, by simp [pendingRows], fun _ _ h => h⟩
  | cons d ds ih =>
      obtain ⟨b, hd, hrun⟩ := run_cons h
      exact (apply_grows hd).trans (ih hrun)

theorem apply_place {a a' : Assembler} {l : Label} (h : a.apply (.place l) = .ok a') :
    a'.position? l = some a.instructions.size := by
  simp only [apply, place] at h
  split at h
  · simp at h
  · simp at h
  · next hnone =>
      obtain rfl := Except.ok.inj h
      obtain ⟨hlt, -⟩ := Array.getElem?_eq_some_iff.mp hnone
      simp [position?, hlt]

/-- Carried out directives have their places in the code that comes of them. -/
theorem run_laid {a a' : Assembler} {ds : List Directive} (h : a.run ds = .ok a') {code : Code}
    (hinstr : code.instructions = a'.instructions)
    (hpos : ∀ l pc, a'.position? l = some pc → code.position l = some pc) :
    Laid code a.instructions.size ds := by
  induction ds generalizing a with
  | nil => trivial
  | cons d ds ih =>
      obtain ⟨b, hd, hrun⟩ := run_cons h
      have hb := (apply_grows hd).size
      have hlaid := ih hrun
      rw [hb] at hlaid
      refine ⟨?_, by simpa using hlaid⟩
      have hemit : ∀ i, d.instruction? = some i →
          code.instructions[a.instructions.size]? = some i := by
        intro i hi
        rw [hinstr, ← Array.getElem?_toList, (run_grows hrun).instructions,
          (apply_grows hd).instructions]
        simp [hi]
      cases d with
      | place l => exact hpos l _ ((run_grows hrun).position l _ (apply_place hd))
      | create _ | emit _ | table _ _ _ _ | lookup _ _ _ | handler _ _ _ _ => exact hemit

end Assembler

/-! ## Sealed code -/

namespace Code

/-- The position of a label that has one. -/
def offset (code : Code) (l : Label) : Nat :=
  (code.position l).getD 0

theorem offset_eq {code : Code} {l : Label} {pc : Nat} (h : code.position l = some pc) :
    code.offset l = pc := by
  rw [offset, h, Option.getD_some]

/-- A row with positions for labels. -/
def resolved (code : Code) (p : PendingHandler) : Handler :=
  ⟨code.offset p.start, code.offset p.stop, code.offset p.handler, p.catchType⟩

end Code

/-- The code that directives put together. -/
structure Assembled (ds : List Directive) (code : Code) : Prop where
  instructions : code.instructions.toList = ds.filterMap Directive.instruction?
  laid : Laid code 0 ds
  /-- every label that is jumped to has a position -/
  targets : ∀ i ∈ code.instructions, ∀ l ∈ i.targets, ∃ pc, code.position l = some pc
  /-- so has every label of a row -/
  rows : ∀ p ∈ pendingRows ds, (∃ pc, code.position p.start = some pc) ∧
    (∃ pc, code.position p.stop = some pc) ∧ ∃ pc, code.position p.handler = some pc
  handlers : code.handlers =
    ((pendingRows ds).map code.resolved).filter fun h => h.start < h.stop

namespace Assembler

theorem position_ok {a : Assembler} {l : Label} {pc : Nat} (h : a.position l = .ok pc) :
    a.position? l = some pc := by
  rw [position] at h
  split at h
  · next hpc =>
      obtain rfl := Except.ok.inj h
      exact hpc
  · simp at h

theorem resolve_ok {a : Assembler} {p : PendingHandler} {row : Handler}
    (h : a.resolve p = .ok row) : a.position? p.start = some row.start ∧
      a.position? p.stop = some row.stop ∧ a.position? p.handler = some row.handler ∧
      row.catchType = p.catchType := by
  simp only [resolve, bind, Except.bind] at h
  split at h
  · simp at h
  · next start hstart =>
      split at h
      · simp at h
      · next stop hstop =>
          split at h
          · simp at h
          · next handler hhandler =>
              obtain rfl := Except.ok.inj h
              exact ⟨position_ok hstart, position_ok hstop, position_ok hhandler, rfl⟩

theorem mapM_resolve_ok {a : Assembler} {code : Code} (hpos : ∀ l, code.position l = a.position? l)
    {ps : List PendingHandler} {hs : List Handler} (h : ps.mapM a.resolve = .ok hs) :
    hs = ps.map code.resolved ∧ ∀ p ∈ ps, (∃ pc, code.position p.start = some pc) ∧
      (∃ pc, code.position p.stop = some pc) ∧ ∃ pc, code.position p.handler = some pc := by
  induction ps generalizing hs with
  | nil =>
      obtain rfl := Except.ok.inj h
      simp
  | cons p ps ih =>
      rw [List.mapM_cons] at h
      cases hp : a.resolve p with
      | error e => simp [hp, bind, Except.bind] at h
      | ok row =>
          cases hps : ps.mapM a.resolve with
          | error e => simp [hp, hps, bind, Except.bind] at h
          | ok rest =>
              rw [hp, hps] at h
              obtain rfl := Except.ok.inj h
              obtain ⟨rfl, hrest⟩ := ih hps
              obtain ⟨hstart, hstop, hhandler, htype⟩ := resolve_ok hp
              rw [← hpos] at hstart hstop hhandler
              refine ⟨?_, ?_⟩
              · rw [List.map_cons, Code.resolved, Code.offset_eq hstart, Code.offset_eq hstop,
                  Code.offset_eq hhandler, ← htype]
              · intro q hq
                obtain rfl | hq := List.mem_cons.mp hq
                · exact ⟨⟨_, hstart⟩, ⟨_, hstop⟩, ⟨_, hhandler⟩⟩
                · exact hrest q hq

theorem targets_of_unplacedTarget {a : Assembler} (h : a.unplacedTarget? = none) :
    ∀ i ∈ a.instructions, ∀ l ∈ i.targets, ∃ pc, a.position? l = some pc := by
  intro i hi l hl
  rw [unplacedTarget?, List.find?_eq_none] at h
  have hsome := h l (List.mem_flatMap.mpr ⟨i, Array.mem_toList_iff.mpr hi, hl⟩)
  rw [position?]
  cases hp : (a.labels[l]?).join with
  | none => simp [hp] at hsome
  | some pc => exact ⟨pc, rfl⟩

end Assembler

theorem assemble_ok {maxLabels maxLocals : Nat} {ds : List Directive} {code : Code}
    (h : assemble maxLabels maxLocals ds = .ok code) :
    Assembled ds code ∧ code.maxLocals = maxLocals := by
  simp only [assemble, bind, Except.bind] at h
  split at h
  · simp at h
  · next a hrun =>
      rw [Assembler.finish] at h
      split at h
      · simp at h
      · next htargets =>
          simp only [bind, Except.bind] at h
          split at h
          · simp at h
          · next hs hhandlers =>
              obtain rfl := Except.ok.inj h
              have hgrows := Assembler.run_grows hrun
              have hrows : a.handlers.toList = pendingRows ds := by simpa using hgrows.handlers
              rw [hrows] at hhandlers
              have hpos : ∀ l, Code.position ⟨a.instructions, a.labels, [], maxLocals⟩ l =
                  a.position? l := fun _ => rfl
              obtain ⟨rfl, hpending⟩ := Assembler.mapM_resolve_ok hpos hhandlers
              refine ⟨⟨by simpa using hgrows.instructions, ?_,
                Assembler.targets_of_unplacedTarget htargets, hpending, rfl⟩, rfl⟩
              exact Assembler.run_laid (a := { maxLabels := maxLabels }) hrun rfl fun _ _ h => h

end MethodCompiler
