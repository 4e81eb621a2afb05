/-!
# Constructs a jump can leave

Loops and switches are numbered in the order in which their bodies are met. A
frame stands for a construct whose body is being checked, and remembers whether
some jump inside has named it.
-/

namespace MethodCompiler

/-- The kinds of construct. -/
inductive ConstructKind where
  | forLoop | whileLoop | doLoop | switch
deriving DecidableEq, Repr, Inhabited

/-- The name of a kind. -/
def ConstructKind.name : ConstructKind → String
  | forLoop => "For"
  | whileLoop => "While"
  | doLoop => "Do"
  | switch => "Switch"

/-- Every kind of construct. -/
def ConstructKind.all : List ConstructKind :=
  [forLoop, whileLoop, doLoop, switch]

/-- The kind of a name. -/
def ConstructKind.ofName? (s : String) : Option ConstructKind :=
  all.find? fun kind => kind.name == s

/-- The number of a construct as messages show it. -/
def constructText (id : Nat) : String :=
  s!"#{id}"

/-- A loop whose body is being checked. -/
structure LoopFrame where
  id : Nat
  kind : ConstructKind
  hasBreak : Bool := false
  hasContinue : Bool := false
deriving DecidableEq, Repr

/-- A switch whose groups are being checked. -/
structure SwitchFrame where
  id : Nat
  hasBreak : Bool := false
deriving DecidableEq, Repr

/-- A construct whose body is being checked. -/
inductive Frame where
  | loop (frame : LoopFrame)
  | switch (frame : SwitchFrame)
deriving DecidableEq, Repr

namespace Frame

/-- The number of the construct. -/
def id : Frame → Nat
  | loop f => f.id
  | switch f => f.id

/-- A frame spelled out with all its fields. -/
def inspect : Frame → String
  | loop f =>
    s!"Loop(LoopFrame \x7b id: ConstructId({f.id}), kind: {f.kind.name}, " ++
      s!"has_break: {f.hasBreak}, has_continue: {f.hasContinue} \x7d)"
  | switch f =>
    s!"Switch(SwitchFrame \x7b id: ConstructId({f.id}), has_break: {f.hasBreak} \x7d)"

end Frame

end MethodCompiler
