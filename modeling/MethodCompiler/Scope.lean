import MethodCompiler.Defect

/-!
# Scopes and slots

The locals in view are one list, newest first, each tagged with the depth of the
scope it was declared in; the slot handed out next is a counter that closing a
scope winds back. So a scope's slots are free again after it, and the largest
number of slots in use at once is remembered.
-/

namespace MethodCompiler

/-- A declared local. -/
structure Local where
  name : String
  depth : Nat
  slot : Nat
  ty : Ty
deriving DecidableEq, Repr

/-- The open scopes of a method body. -/
structure Scope where
  /-- the locals in view, newest first -/
  locals : List Local := []
  /-- how many scopes are open inside the method body -/
  depth : Nat := 0
  /-- the slot handed out next -/
  nextSlot : Nat := 0
  /-- the next slot at the opening of each open scope, innermost first -/
  saved : List Nat := []
  /-- the largest number of slots in use so far -/
  maxSlots : Nat := 0
  /-- how many slots there may be -/
  limit : Nat
deriving DecidableEq, Repr

/-- Why a slot was refused. -/
inductive SlotRefusal where
  /-- the innermost scope has a local of that name -/
  | duplicate (name : String)
  /-- every slot is in use -/
  | exhausted
deriving DecidableEq, Repr

namespace Scope

/-- Opens a scope. -/
def enter (s : Scope) : Scope :=
  { s with depth := s.depth + 1, saved := s.nextSlot :: s.saved }

/-- Closes the innermost scope: its locals are dropped and its slots are free
again. Closing the method body itself drops its locals too and is a defect. -/
def leave (s : Scope) : Except Defect Unit × Scope :=
  (if s.depth = 0 then .error (.overflow .subtract) else .ok (),
    { s with
      locals := s.locals.dropWhile fun l => l.depth = s.depth
      nextSlot := s.saved.headD s.nextSlot
      saved := s.saved.drop 1
      depth := s.depth - 1 })

/-- Hands out a slot without a name. -/
def reserve (s : Scope) : Except SlotRefusal (Nat × Scope) :=
  if s.limit ≤ s.nextSlot then .error .exhausted
  else .ok (s.nextSlot,
    { s with nextSlot := s.nextSlot + 1, maxSlots := max s.maxSlots (s.nextSlot + 1) })

/-- Whether the innermost scope has a local of this name. -/
def declares (s : Scope) (name : String) : Bool :=
  (s.locals.takeWhile fun l => l.depth = s.depth).any fun l => l.name = name

/-- Declares a local in the innermost scope and hands out its slot. -/
def declare (s : Scope) (name : String) (ty : Ty) : Except SlotRefusal (Nat × Scope) :=
  if s.declares name then .error (.duplicate name)
  else do
    let (slot, s) ← s.reserve
    .ok (slot, { s with locals := ⟨name, s.depth, slot, ty⟩ :: s.locals })

/-- The innermost local of a name. -/
def resolve? (s : Scope) (name : String) : Option Local :=
  s.locals.find? fun l => l.name = name

end Scope

end MethodCompiler
