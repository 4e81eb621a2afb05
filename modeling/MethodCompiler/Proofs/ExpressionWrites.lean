import MethodCompiler.Proofs.Effects
import MethodCompiler.Proofs.Slots
import MethodCompiler.Proofs.StatementCode

/-!
# The slots that the code of expressions writes

The instructions in the code of an expression write the slots that the expression writes
and no others.
-/

namespace MethodCompiler.Lowering

open Annotated (Expr Stmt)

/-- Pieces that give directives one after another, which write slots as said. -/
def Plain (P : Nat → Prop) (ps : List Piece) : Prop :=
  Given (fun d => ∀ i ∈ d.instruction?, ∀ slot ∈ i.writes, P slot) ps

section Plain

variable {P : Nat → Prop} {ps qs : List Piece}

theorem Plain.append (hp : Plain P ps) (hq : Plain P qs) : Plain P (ps ++ qs) :=
  Given.append hp hq

theorem plain_give {d : Directive} (h : ∀ i ∈ d.instruction?, ∀ slot ∈ i.writes, P slot) :
    Plain P [.give d] :=
  given_give h

theorem plain_emit {i : Instruction} (h : i.writes = none) : Plain P [.give (.emit i)] := by
  refine plain_give fun j hj slot hslot => ?_
  obtain rfl := Option.some.inj hj
  rw [h] at hslot
  cases hslot

theorem writes_of_label (op : Opcode) (l : Label) :
    Instruction.writes ⟨op, some (.label l)⟩ = none := by
  cases op <;> rfl

theorem plain_jump (op : Opcode) (l : Label) : Plain P [.give (.emit ⟨op, some (.label l)⟩)] :=
  plain_emit (writes_of_label op l)

end Plain

/-! ## Expressions -/

/-- What names no slot writes none. -/
theorem writes_of_shaped {i : Instruction} (h : i.Shaped 0) : i.writes = none := by
  obtain ⟨opcode, operand⟩ := i
  cases opcode
  case store | inc =>
    obtain ⟨_, hslot, _⟩ := h
    exact absurd hslot (Nat.not_lt_zero _)
  all_goals rfl

theorem basic_writes (P : Nat → Prop) :
    Basic fun d => ∀ i ∈ d.instruction?, ∀ slot ∈ i.writes, P slot where
  create := nofun
  place := nofun
  emit i hi := by
    intro j hj slot hslot
    obtain rfl := Option.some.inj hj
    rw [writes_of_shaped hi] at hslot
    cases hslot

/-- The instructions for the slot that an expression names write only what the expression
does. -/
theorem writes_slotCode {e : Expr} {i : Instruction} (hi : i ∈ e.slotCode) {slot : Nat}
    (hslot : i.writes = some slot) : e.writes = some slot := by
  match e with
  | .slot _ k =>
      obtain rfl := List.mem_singleton.mp hi
      cases hslot
  | .assign _ (.slot k) _ _ =>
      obtain rfl := List.mem_singleton.mp hi
      exact hslot
  | .increment _ op (.slot k) _ =>
      obtain rfl | hi := List.mem_cons.mp hi
      · cases hslot
      · obtain rfl := List.mem_singleton.mp hi
        exact hslot
  | .int .. | .long .. | .double .. | .bool .. | .null _ | .new .. | .error _ | .field ..
  | .widen .. | .assign _ (.field ..) _ _ | .binary .. | .unary .. | .increment _ _ (.field ..) _
  | .call .. => cases hi

/-- What a flat statement has by itself writes the slots that the statement does. -/
theorem own_writes {P : Nat → Prop} {s : Stmt} (h : s.WritesOnly P) :
    OwnDirectives (fun d => ∀ i ∈ d.instruction?, ∀ slot ∈ i.writes, P slot) s where
  toBasic := basic_writes P
  dispatch d default cases := by
    rw [dispatchDirective]
    split <;> rintro _ ⟨⟩ _ ⟨⟩
  exprs e he part hpart i hi := by
    rintro _ ⟨⟩ slot hslot
    exact h.2 e he part hpart slot (writes_slotCode hi hslot)
  store slot e hs := by
    rintro _ ⟨⟩ slot' hslot
    obtain rfl := Option.some.inj hslot
    subst hs
    exact h.1 slot (List.mem_singleton_self slot)

end MethodCompiler.Lowering
