import MethodCompiler.Defect

/-!
# The constructs around a statement

Loops and switches push a frame before their bodies are checked and pop it
afterwards. A jump resolves to the frame on top at that moment, whatever its
kind, and marks it; the marks of a popped frame tell which of its labels some
jump needs.

Popping a frame that is not on top, and resolving a jump where nothing is open,
are defects. A pop that fails has still taken the top frame off.
-/

namespace MethodCompiler

/-- The open constructs, innermost first, and the number of the next one. -/
structure Enclosing where
  frames : List Frame := []
  nextId : Nat := 0
deriving DecidableEq, Repr, Inhabited

/-- Where a continue leads: to a loop, or nowhere because the innermost construct
is a switch. -/
inductive ContinueTarget where
  | loop (id : Nat)
  | switch (id : Nat)
deriving DecidableEq, Repr

namespace Enclosing

/-- Opens a loop. -/
def pushLoop (e : Enclosing) (kind : ConstructKind) : Except Defect (Nat × Enclosing) :=
  if kind = .switch then .error .switchAsLoop
  else .ok (e.nextId, ⟨.loop ⟨e.nextId, kind, false, false⟩ :: e.frames, e.nextId + 1⟩)

/-- Opens a switch. -/
def pushSwitch (e : Enclosing) : Nat × Enclosing :=
  (e.nextId, ⟨.switch ⟨e.nextId, false⟩ :: e.frames, e.nextId + 1⟩)

/-- The constructs outside the innermost one. -/
def tail (e : Enclosing) : Enclosing :=
  { e with frames := e.frames.drop 1 }

/-- Closes a loop. -/
def popLoop (e : Enclosing) (id : Nat) : Except Defect LoopFrame × Enclosing :=
  let result := match e.frames with
    | .loop frame :: _ =>
      if frame.id = id then .ok frame else .error (.notInnermostLoop id (some (.loop frame)))
    | frames => .error (.notInnermostLoop id frames.head?)
  (result, e.tail)

/-- Closes a switch. -/
def popSwitch (e : Enclosing) (id : Nat) : Except Defect SwitchFrame × Enclosing :=
  let result := match e.frames with
    | .switch frame :: _ =>
      if frame.id = id then .ok frame else .error (.notInnermostSwitch id (some (.switch frame)))
    | frames => .error (.notInnermostSwitch id frames.head?)
  (result, e.tail)

/-- Resolves a break to the innermost construct. -/
def resolveBreak (e : Enclosing) : Except Defect (Nat × Enclosing) :=
  match e.frames with
  | [] => .error .breakNowhere
  | .loop frame :: rest =>
    .ok (frame.id, { e with frames := .loop { frame with hasBreak := true } :: rest })
  | .switch frame :: rest =>
    .ok (frame.id, { e with frames := .switch { frame with hasBreak := true } :: rest })

/-- Resolves a continue to the innermost construct, marking it only if it is a
loop. -/
def resolveContinue (e : Enclosing) : Except Defect (ContinueTarget × Enclosing) :=
  match e.frames with
  | [] => .error .continueNowhere
  | .loop frame :: rest =>
    .ok (.loop frame.id, { e with frames := .loop { frame with hasContinue := true } :: rest })
  | .switch frame :: _ => .ok (.switch frame.id, e)

end Enclosing

end MethodCompiler
