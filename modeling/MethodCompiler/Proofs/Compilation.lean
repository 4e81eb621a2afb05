import MethodCompiler.Proofs.Building
import MethodCompiler.Proofs.Checking
import MethodCompiler.Proofs.Generation
import MethodCompiler.Proofs.StatementLabels

/-!
# Compilation comes upon one defect

A method body either has code, or there is something to complain about, or one of
the limits of the settings was too small. The three parts have been dealt with one by
one: checking accepts sound trees only, sound trees have pieces of code, and the labels
of these pieces are in order. What the code refers to then has a place inside it.

There is one thing more that can become of a method body. If the first label that is
too many is one inside a copy of a finally body, the stack of open regions gives out.
-/

namespace MethodCompiler

open Lowering

/-- All that the code refers to is inside it. -/
structure Code.Closed (code : Code) : Prop where
  targets : ∀ i ∈ code.instructions, ∀ l ∈ i.targets,
    ∃ pc < code.instructions.size, code.position l = some pc
  rows : ∀ row ∈ code.handlers,
    row.start < row.stop ∧ row.stop < code.instructions.size ∧
      row.handler < code.instructions.size

/-- A label that is placed has a position among the directives. -/
theorem Laid.position {code : Code} {pc : Nat} {ds : List Directive} (h : Laid code pc ds)
    {l : Label} (hl : .place l ∈ ds) :
    ∃ k, code.position l = some k ∧ pc ≤ k ∧ k ≤ pc + size ds := by
  obtain ⟨front, back, rfl⟩ := List.append_of_mem hl
  have hplaced : code.position l = some (pc + size front) := (laid_append.mp h).2.1
  exact ⟨_, hplaced, by omega, by rw [size_append]; omega⟩

variable {p : Annotated.Program} {hi : Nat}

/-- A method body with a sound tree has tidy pieces, and the last instruction is a halt. -/
theorem pieces_of_sound (hs : Annotated.Stmt.AllSound none 0 p.body hi) :
    ∃ ps ds n', (program p).Yields 0 () ps n' ∧ layOut ps = ds ++ [.emit ⟨.halt, none⟩] ∧
      Tidy [] (fun _ => False) 0 (layOut ps) n' := by
  obtain ⟨u, ps, n', hbody⟩ := succeeds_stmts p.body hs Fits.initially 0
  refine ⟨_, layOut ps, n', yields_program.mpr ⟨ps, hbody, rfl⟩, layOut_append .., ?_⟩
  rw [layOut_append]
  exact (keeps_stmts p.body hs Fits.initially hbody).thenEmit _ rfl

/-- A method body with a sound tree has tidy directives. -/
theorem directives_of_sound (hs : Annotated.Stmt.AllSound none 0 p.body hi) :
    ∃ ds n', directives p = .ok (ds ++ [.emit ⟨.halt, none⟩]) ∧
      Tidy [] (fun _ => False) 0 (ds ++ [.emit ⟨.halt, none⟩]) n' := by
  obtain ⟨ps, ds, n', hyields, hds, htidy⟩ := pieces_of_sound hs
  exact ⟨ds, n', directives_eq_ok_iff.mpr ⟨ps, n', hyields, hds.symm⟩, hds ▸ htidy⟩

/-- Tidy pieces are built if there are enough labels. If not, it depends on where the first
one that is too many is created. -/
theorem Lowering.Tidy.buildCode {ps : List Piece} {n' : Nat}
    (h : Tidy [] (fun _ => False) 0 (layOut ps) n') (hn : Nested 0 ps) (maxLabels maxLocals : Nat) :
    maxLabels < n' ∧ buildCode maxLabels maxLocals ps = .error
        (if maxLabels ∈ copied ps then .defect .regionsEmptied else .labelsExhausted maxLabels) ∨
      n' ≤ maxLabels ∧ ∃ code, buildCode maxLabels maxLocals ps = .ok code ∧
        code.labels.size = n' := by
  have hplaced := assemble_of_numbered maxLabels maxLocals h.numbered
    (fun l => h.after l (Nat.zero_le l)) h.sized fun d hd l hl => (h.refs d hd l hl).resolve_right id
  obtain ⟨limit, herror⟩ | ⟨a, code, hrun, hcode, hlabels⟩ := hplaced
  · have hshort : Assembler.Short { maxLabels := maxLabels } (layOut ps) := by
      obtain ⟨d, hd⟩ | heq := Assembler.run_error herror
      · cases hd
      · rw [Assembler.Short, herror, heq]
    refine .inl ⟨hshort.lt h.numbered, ?_⟩
    obtain ⟨hbuild, hnot⟩ | ⟨hbuild, hmem⟩ := buildCode_short maxLocals hn hshort
    · rw [hbuild, if_neg (hnot n' h.numbered)]
    · rw [hbuild, if_pos (hmem n' h.numbered)]
  · obtain ⟨hmax, hle, hsize⟩ := Assembler.run_counts hrun
    have hsize : a.labels.size = n' := hsize n' h.numbered
    have hfew : a.labels.size ≤ a.maxLabels := hle (Nat.zero_le _)
    rw [hmax] at hfew
    refine .inr ⟨hsize ▸ hfew, code, ?_, by rw [hlabels, hsize]⟩
    rw [buildCode_eq hn fun hshort => ?_, hcode]
    rw [Assembler.Short, hrun] at hshort
    cases hshort

/-- Code made of tidy directives that end with an instruction is closed. -/
theorem Assembled.closed {ds : List Directive} {code : Code} {i : Instruction} {n' : Nat}
    (h : Assembled (ds ++ [.emit i]) code)
    (ht : Tidy [] (fun _ => False) 0 (ds ++ [.emit i]) n') : code.Closed := by
  have hsize : code.instructions.size = size ds + 1 := by
    rw [← Array.length_toList, h.instructions, ← size_eq_length, size_append]
    rfl
  -- Each label that is referred to is placed, and there is an instruction behind it.
  have hinside : ∀ d ∈ ds ++ [.emit i], ∀ l ∈ d.refs,
      ∃ pc < code.instructions.size, code.position l = some pc := by
    intro d hd l hl
    have hplace : Directive.place l ∈ ds := by
      have := (ht.refs d hd l hl).resolve_right id
      simpa using this
    obtain ⟨pc, hpc, -, hle⟩ := (laid_append.mp h.laid).1.position hplace
    exact ⟨pc, by omega, hpc⟩
  constructor
  · intro i' hi' l hl
    rw [← Array.mem_toList_iff, h.instructions] at hi'
    obtain ⟨d, hd, hdi⟩ := List.mem_filterMap.mp hi'
    exact hinside d hd l (Directive.mem_refs_of_instruction hdi hl)
  · intro row hrow
    rw [h.handlers, List.mem_filter, List.mem_map] at hrow
    obtain ⟨⟨pending, hpending, rfl⟩, hlt⟩ := hrow
    obtain ⟨d, hd, hrow⟩ := List.mem_filterMap.mp hpending
    have hoffset : ∀ l ∈ [pending.start, pending.stop, pending.handler],
        code.offset l < code.instructions.size := by
      intro l hl
      obtain ⟨pc, hpc, hpos⟩ := hinside d hd l (Directive.mem_refs_of_row hrow hl)
      rwa [Code.offset_eq hpos]
    exact ⟨by simpa using hlt, hoffset _ (by simp), hoffset _ (by simp)⟩

/-- A break leaves a try whose finally body has a label of its own. -/
def breakThroughIf : Source.Program :=
  ⟨[.whileLoop 1 (.literal 1 (.boolean true)) (.tryCatch 1 ⟨1, [.breakJump 1]⟩ []
    (some ⟨1, [.ifElse 1 (.literal 1 (.boolean true)) .empty none]⟩))]⟩

end MethodCompiler
