import MethodCompiler.Lowering.Gen

/-!
# Building code

Pieces are carried out one after another. Meanwhile the regions that are open stand on
a stack, each with the stretches that have been cut out of it so far. The block of a
try, and the body of a clause whose try has a finally body, open a region and close it
when they are done, and only then the rows of the try are known. A copy on the way out
takes the regions that it leaves off the stack, is built in the others, and puts them
back with one more stretch cut out of each.

Labels may run short in the middle of this. Building then stops where it is, and each
region around is closed all the same. A copy that is cut short does not put the regions
it left back, so there are fewer regions to close than there should be, and the stack
is empty too early.
-/

namespace MethodCompiler.Lowering

/-- Code that is being built. -/
structure Builder where
  assembler : Assembler
  /-- the stretches cut out of the open regions, innermost region first -/
  regions : List (List Stretch)

/-- What became of a step of building. -/
inductive Built (α : Type) where
  | done (a : α) (b : Builder)
  /-- the step stopped half-way -/
  | stopped (e : AssemblyError) (b : Builder)
  | broken (d : Defect)

/-- A step of building. -/
def Build (α : Type) := Builder → Built α

namespace Build

instance : Monad Build where
  pure a := fun b => .done a b
  bind x f := fun b =>
    match x b with
    | .done a b => f a b
    | .stopped e b => .stopped e b
    | .broken d => .broken d

/-- Carries out a directive. -/
def direct (d : Directive) : Build Unit := fun b =>
  match b.assembler.apply d with
  | .ok assembler => .done () { b with assembler := assembler }
  | .error (.defect d) => .broken d
  | .error e => .stopped e b

/-- Carries out directives in order. -/
def directAll : List Directive → Build Unit
  | [] => pure ()
  | d :: rest => do
    direct d
    directAll rest

/-- Closes the innermost region: the stretches cut out of it. -/
def close : Build (List Stretch) := fun b =>
  match b.regions with
  | [] => .broken .regionsEmptied
  | gaps :: outside => .done gaps { b with regions := outside }

/-- Builds something in a region of its own, which is closed even if that stops
half-way: the stretches cut out of the region. -/
def guarded (x : Build Unit) : Build (List Stretch) := fun b =>
  match x { b with regions := [] :: b.regions } with
  | .done () b => close b
  | .stopped e b =>
    match close b with
    | .done _ b => .stopped e b
    | failed => failed
  | .broken d => .broken d

/-- Builds something in a region of its own if it is guarded at all. -/
def guardedIf (wanted : Bool) (x : Build Unit) : Build (List Stretch) :=
  if wanted then guarded x
  else do
    x
    return []

/-- Takes all but the outermost `stillOpen` regions off the stack. -/
def splitOff (stillOpen : Nat) : Build (List (List Stretch)) := fun b =>
  let left := b.regions.length - stillOpen
  if b.regions.length ≤ stillOpen then .broken (.outOfBounds b.regions.length stillOpen)
  else .done (b.regions.take left) { b with regions := b.regions.drop left }

/-- Puts regions back on the outermost `stillOpen` ones, with one more stretch cut out
of each. -/
def rejoin (stillOpen : Nat) (left : List (List Stretch)) (stretch : Stretch) : Build Unit :=
  fun b =>
    if b.regions.length = stillOpen then
      .done () { b with regions := left.map (· ++ [stretch]) ++ b.regions }
    else .broken (.regionsLeaked b.regions.length stillOpen)

/-- Builds a copy in the outermost `stillOpen` regions, and cuts its stretch out of the
others. -/
def leaving (stillOpen : Nat) (stretch : Stretch) (x : Build Unit) : Build Unit := do
  let left ← splitOff stillOpen
  x
  rejoin stillOpen left stretch

end Build

open Build

/-- The rows that lead from the bodies of catch clauses, out of each of which stretches
are cut, to a handler. -/
def catchRows (handler : Label) (clauses : List (Clause Piece)) (gaps : List (List Stretch)) :
    List Directive :=
  (clauses.zip gaps).flatMap fun (c, gaps) => rows handler none c.stretch.1 c.stretch.2 gaps

mutual

/-- Builds a piece. -/
def Piece.build : Piece → Build Unit
  | .give d => direct d
  | .statement body => build body
  | .copy stretch stillOpen body => do
    directAll [.create stretch.1, .create stretch.2]
    leaving stillOpen stretch do
      direct (.place stretch.1)
      build body
      direct (.place stretch.2)
  | .tryCatch t block exit clauses rescue => do
    directAll (t.creates clauses)
    direct (.place t.stretch.1)
    let blockGaps ← guarded (build block)
    direct (.place t.stretch.2)
    build exit
    direct (.emit ⟨.goto, some (.label t.done)⟩)
    let bodyGaps ← buildClauses t.done rescue.isSome clauses
    directAll (clauses.flatMap fun c =>
      rows c.stretch.1 (some c.exceptionType) t.stretch.1 t.stretch.2 blockGaps)
    match rescue with
    | none => pure ()
    | some ⟨handler, stored, slot, body⟩ => do
      directAll [.create handler, .create stored, .place handler,
        .emit ⟨.store, some (.slot slot)⟩, .place stored]
      build body
      directAll [.emit ⟨.load, some (.slot slot)⟩, .emit ⟨.throw, none⟩]
      directAll (rows handler none t.stretch.1 t.stretch.2 blockGaps)
      directAll (catchRows handler clauses bodyGaps)
      direct (.handler handler stored handler none)
    direct (.place t.done)
termination_by structural p => p

/-- Builds pieces one after another. -/
def build : List Piece → Build Unit
  | [] => pure ()
  | p :: rest => do
    p.build
    build rest
termination_by structural ps => ps

/-- Builds catch clauses, after which the code goes on at `done`: the stretches cut out
of each body. -/
def buildClauses (done : Label) (rescued : Bool) :
    List (Clause Piece) → Build (List (List Stretch))
  | [] => pure []
  | ⟨_, stretch, slot, body, exit⟩ :: rest => do
    directAll [.place stretch.1, .emit ⟨.store, some (.slot slot)⟩]
    let gaps ← guardedIf rescued (build body)
    direct (.place stretch.2)
    build exit
    direct (.emit ⟨.goto, some (.label done)⟩)
    return gaps :: (← buildClauses done rescued rest)
termination_by structural cs => cs

end

/-- The code that pieces build, with at most `maxLabels` labels. -/
def buildCode (maxLabels maxLocals : Nat) (ps : List Piece) : Except AssemblyError Code :=
  match build ps ⟨{ maxLabels := maxLabels }, []⟩ with
  | .done () b =>
    if b.regions.isEmpty then b.assembler.finish maxLocals else .error (.defect .regionsLeft)
  | .stopped e _ => .error e
  | .broken d => .error (.defect d)

end MethodCompiler.Lowering
