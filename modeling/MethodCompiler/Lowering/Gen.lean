import MethodCompiler.Assembly

/-!
# Generating code

Generation is a function of the number of the next fresh label. It gives pieces of
code in order and the next fresh label after them. Nothing it gives depends on
what was generated before, except through the number of the first fresh label.

Pieces keep the structure they were generated in: which of them make up a
statement, which stand in the block or in a clause of a try, and which are copies
of finally bodies on the way out of a try. Directives are read off the pieces, and
so are the rows of the exception table: a copy on the way out of a region is a gap
in the rows of that region and of all regions inside it.
-/

namespace MethodCompiler.Lowering

/-- A stretch of code between two labels. -/
abbrev Stretch := Label × Label

/-- The code of a catch clause. -/
structure Clause (π : Type) where
  exceptionType : String
  /-- around the store of the caught object and the body -/
  stretch : Stretch
  /-- holds the caught object -/
  slot : Nat
  body : List π
  /-- a copy of the finally body, after the clause -/
  exit : List π

/-- The handler that runs a finally body while an object is in flight. -/
structure Rescue (π : Type) where
  handler : Label
  /-- after the store of the object in flight -/
  stored : Label
  /-- holds the object in flight -/
  slot : Nat
  /-- a copy of the finally body -/
  body : List π

/-- The labels of a try, and the number of open regions around it. -/
structure TryFrame where
  depth : Nat
  /-- around the block -/
  stretch : Stretch
  done : Label
deriving DecidableEq, Repr

/-- A piece of code. -/
inductive Piece where
  | give (d : Directive)
  /-- the code of a statement -/
  | statement (body : List Piece)
  /-- a copy of a finally body before a jump that leaves its region: only the
  outermost `stillOpen` regions are open around it -/
  | copy (stretch : Stretch) (stillOpen : Nat) (body : List Piece)
  /-- a try: its block, a copy of the finally body after it, the clauses, and, if
  there is a finally body, the handler that runs it -/
  | tryCatch (frame : TryFrame) (block exit : List Piece) (clauses : List (Clause Piece))
      (rescue : Option (Rescue Piece))

/-! ## Gaps

Regions are numbered from the outside in. -/

mutual

/-- The stretches that a piece inside a region cuts out of it, in order. -/
def Piece.gaps (region : Nat) : Piece → List Stretch
  | .give _ => []
  | .statement body => gaps region body
  | .copy stretch stillOpen body => if stillOpen ≤ region then [stretch] else gaps region body
  | .tryCatch _ block exit clauses rescue =>
    gaps region block ++ gaps region exit ++ clauseGaps region clauses ++
      match rescue with
      | none => []
      | some ⟨_, _, _, body⟩ => gaps region body
termination_by structural p => p

/-- The stretches that pieces cut out of a region around them. -/
def gaps (region : Nat) : List Piece → List Stretch
  | [] => []
  | p :: rest => p.gaps region ++ gaps region rest
termination_by structural ps => ps

/-- The stretches that catch clauses cut out of a region around them. -/
def clauseGaps (region : Nat) : List (Clause Piece) → List Stretch
  | [] => []
  | ⟨_, _, _, body, exit⟩ :: rest =>
    gaps region body ++ gaps region exit ++ clauseGaps region rest
termination_by structural cs => cs

end

/-! ## Directives -/

/-- The rows for a stretch without the gaps inside it, which are in order. -/
def rows (handler : Label) (catchType : Option String) (start stop : Label) :
    List Stretch → List Directive
  | [] => [.handler start stop handler catchType]
  | gap :: rest =>
    .handler start gap.1 handler catchType :: rows handler catchType gap.2 stop rest

namespace TryFrame

/-- The rows that lead from the block to the catch clauses. -/
def clauseRows (t : TryFrame) (block : List Piece) (clauses : List (Clause Piece)) :
    List Directive :=
  clauses.flatMap fun c =>
    rows c.stretch.1 (some c.exceptionType) t.stretch.1 t.stretch.2 (gaps t.depth block)

/-- The rows that lead to the handler: from the block, from the catch clauses, and
from the store of the object in flight. -/
def rescueRows (t : TryFrame) (handler stored : Label) (block : List Piece)
    (clauses : List (Clause Piece)) : List Directive :=
  rows handler none t.stretch.1 t.stretch.2 (gaps t.depth block) ++
    (clauses.flatMap fun c =>
      rows handler none c.stretch.1 c.stretch.2 (gaps t.depth c.body)) ++
    [.handler handler stored handler none]

/-- What a try creates first: the labels of its block and clauses. -/
def creates (t : TryFrame) (clauses : List (Clause Piece)) : List Directive :=
  [.create t.stretch.1, .create t.stretch.2, .create t.done] ++
    clauses.flatMap fun c => [.create c.stretch.1, .create c.stretch.2]

end TryFrame

mutual

/-- The directives of a piece. -/
def Piece.directives : Piece → List Directive
  | .give d => [d]
  | .statement body => layOut body
  | .copy stretch _ body =>
    [.create stretch.1, .create stretch.2, .place stretch.1] ++ layOut body ++
      [.place stretch.2]
  | .tryCatch t block exit clauses rescue =>
    t.creates clauses ++ [.place t.stretch.1] ++ layOut block ++ [.place t.stretch.2] ++
      layOut exit ++ [.emit ⟨.goto, some (.label t.done)⟩] ++
      layOutClauses t.done clauses ++ t.clauseRows block clauses ++
      (match rescue with
        | none => []
        | some ⟨handler, stored, slot, body⟩ =>
          [.create handler, .create stored, .place handler, .emit ⟨.store, some (.slot slot)⟩,
            .place stored] ++
            layOut body ++ [.emit ⟨.load, some (.slot slot)⟩, .emit ⟨.throw, none⟩] ++
            t.rescueRows handler stored block clauses) ++
      [.place t.done]
termination_by structural p => p

/-- The directives of pieces one after another. -/
def layOut : List Piece → List Directive
  | [] => []
  | p :: rest => p.directives ++ layOut rest
termination_by structural ps => ps

/-- The directives of catch clauses, after which the code goes on at `done`. -/
def layOutClauses (done : Label) : List (Clause Piece) → List Directive
  | [] => []
  | ⟨_, stretch, slot, body, exit⟩ :: rest =>
    [.place stretch.1, .emit ⟨.store, some (.slot slot)⟩] ++ layOut body ++
      [.place stretch.2] ++ layOut exit ++ [.emit ⟨.goto, some (.label done)⟩] ++
      layOutClauses done rest
termination_by structural cs => cs

end

/-! ## Steps of generation -/

/-- What a step of generation gives. -/
structure Emission (α : Type) where
  value : α
  pieces : List Piece
  next : Label

/-- A step of generation, given the next fresh label. -/
def Gen (α : Type) := Label → Except Defect (Emission α)

namespace Gen

instance : Monad Gen where
  pure a := fun next => .ok ⟨a, [], next⟩
  bind x f := fun next =>
    match x next with
    | .error d => .error d
    | .ok a =>
      match f a.value a.next with
      | .error d => .error d
      | .ok b => .ok ⟨b.value, a.pieces ++ b.pieces, b.next⟩

/-- Stops at a defect. -/
def fail (d : Defect) : Gen α :=
  fun _ => .error d

/-- Gives a piece. -/
def piece (p : Piece) : Gen Unit :=
  fun next => .ok ⟨(), [p], next⟩

/-- Gives a directive. -/
def give (d : Directive) : Gen Unit :=
  piece (.give d)

/-- The number of a fresh label, which some piece is going to create. -/
def label : Gen Label :=
  fun next => .ok ⟨next, [], next + 1⟩

/-- A fresh label, created on the spot. -/
def fresh : Gen Label := do
  let l ← label
  give (.create l)
  return l

/-- Places a label. -/
def place (l : Label) : Gen Unit :=
  give (.place l)

/-- Places a label that something refers to; one that nothing refers to stays
without a position. -/
def placeIf (used : Bool) (l : Label) : Gen Unit :=
  if used then place l else pure ()

/-- Emits an instruction without operand. -/
def emit (opcode : Opcode) : Gen Unit :=
  give (.emit ⟨opcode, none⟩)

/-- Emits an instruction with an operand. -/
def emitWith (opcode : Opcode) (operand : Operand) : Gen Unit :=
  give (.emit ⟨opcode, some operand⟩)

/-- Emits an instruction if it is wanted. -/
def emitIf (wanted : Bool) (i : Instruction) : Gen Unit :=
  if wanted then give (.emit i) else pure ()

/-- Emits a jump. -/
def jump (opcode : Opcode) (target : Label) : Gen Unit :=
  emitWith opcode (.label target)

/-- The pieces that something generates, held back for use in a larger piece. -/
def hold (x : Gen Unit) : Gen (List Piece) := fun next =>
  match x next with
  | .error d => .error d
  | .ok a => .ok ⟨a.pieces, [], a.next⟩

/-- Gives what something generates as the code of a statement. -/
def statement (x : Gen Unit) : Gen Unit := do
  piece (.statement (← hold x))

end Gen

end MethodCompiler.Lowering
