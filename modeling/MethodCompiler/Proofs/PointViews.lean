import MethodCompiler.Proofs.Sites
import MethodCompiler.Proofs.StackDiscipline
import MethodCompiler.Proofs.TypedTrees

/-!
# Views at the points of compiled code

Every instruction of a method body is given a view: what is known of a machine that meets it.
The views are read off the tree in the order in which code is generated for it. The code of an
expression works on top of a stack that it does not look at. The code of a statement starts and
ends with an empty stack, and what is known of the locals grows with each declaration. A jump
that leaves tries runs copies of their finally bodies, and these know what was known at the try
they belong to, not what is known where the jump is.

`Threads` says that views fit the code: each instruction leads to what the views say of the
places where it may go on, be it the next instruction, the labels it jumps to, or the handlers
around it. As with heights, labels may be taken to have views (`want`) and are found to have
them (`mine`).
-/

namespace MethodCompiler

/-! ## Expressions -/

namespace Annotated

/-- What the code of an expression leaves on the stack: its value, unless it is a void call. -/
def Expr.kinds (e : Expr) : List Kind :=
  e.ty.kind?.toList

/-- The stack after the code of arguments. -/
def Expr.pushAll (S : List Kind) : List Expr → List Kind
  | [] => S
  | e :: rest => Expr.pushAll (e.kinds ++ S) rest

/-- A view before an instruction that is emitted if it is wanted. -/
def shownIf (wanted : Bool) (v : View) : List View :=
  if wanted then [v] else []

/-- The views in the two codes of an expression, given the stack that is there already. -/
structure ExprViews where
  value : List Kind → List View
  branch : List Kind → Bool → List View

namespace ExprViews

/-- The views of an expression that has a value. -/
def ofValue (L : Locals) (result : List Kind) (value : List Kind → List View) : ExprViews where
  value := value
  branch S _ := value S ++ [⟨L, result ++ S⟩]

/-- The views of an expression that jumps. -/
def ofBranch (L : Locals) (branch : List Kind → Bool → List View) : ExprViews where
  value S := branch S false ++ [⟨L, S⟩, ⟨L, .int :: S⟩, ⟨L, S⟩]
  branch := branch

end ExprViews

/-- The views in a jump on a comparison; there is a second jump if doubles fail to compare. -/
def compareViews (L : Locals) (left right : Expr) (leftViews rightViews : ExprViews)
    (S : List Kind) (onTrue : Bool) : List View :=
  leftViews.value S ++ rightViews.value (left.kinds ++ S) ++
    [⟨L, right.kinds ++ (left.kinds ++ S)⟩] ++ shownIf (!onTrue && left.ty = .double) ⟨L, S⟩

/-- The views of what is done to an operand. -/
def unaryViews (L : Locals) (op : UnaryOp) (operand : List Kind) (S : List Kind) : List View :=
  match op with
  | .minus => [⟨L, operand ++ S⟩]
  | .bitwiseNot => [⟨L, operand ++ S⟩, ⟨L, operand ++ (operand ++ S)⟩]
  | .plus | .logicalNot => []

/-- The views in the step of a local. -/
def incrementSlotViews (L : Locals) (op : UpdateOp) (result : List Kind) (used : Bool)
    (S : List Kind) : List View :=
  shownIf (used && op.givesOldValue) ⟨L, S⟩ ++
    [⟨L, if used && op.givesOldValue then result ++ S else S⟩] ++
    shownIf (used && !op.givesOldValue) ⟨L, S⟩

/-- The views in the step of a field, after the object. What the expression gives lies below the
object and the number to be stored. -/
def incrementFieldViews (L : Locals) (op : UpdateOp) (result : List Kind) (used : Bool)
    (S : List Kind) : List View :=
  let before := if used && op.givesOldValue then result ++ S else S
  let after := if used then result ++ S else S
  [⟨L, .reference :: S⟩, ⟨L, .reference :: .reference :: S⟩] ++
    shownIf (used && op.givesOldValue) ⟨L, result ++ .reference :: S⟩ ++
    [⟨L, result ++ .reference :: before⟩, ⟨L, result ++ (result ++ .reference :: before)⟩] ++
    shownIf (used && !op.givesOldValue) ⟨L, result ++ .reference :: S⟩ ++
    [⟨L, result ++ .reference :: after⟩]

mutual

/-- The views in the codes of an expression. -/
def Expr.views (L : Locals) : Expr → ExprViews
  | .int ty _ | .long ty _ | .double ty _ | .null ty | .slot ty _ | .new ty _ =>
    .ofValue L ty.kind?.toList fun S => [⟨L, S⟩]
  | .bool _ v =>
    { value := fun S => [⟨L, S⟩]
      branch := fun S onTrue => shownIf (v == onTrue) ⟨L, S⟩ }
  | .field ty target _ => .ofValue L ty.kind?.toList fun S =>
    (target.views L).value S ++ [⟨L, .reference :: S⟩]
  | .widen ty inner => .ofValue L ty.kind?.toList fun S =>
    (inner.views L).value S ++ [⟨L, inner.kinds ++ S⟩]
  | .assign ty (.slot _) value used => .ofValue L ty.kind?.toList fun S =>
    (value.views L).value S ++ shownIf used ⟨L, value.kinds ++ S⟩ ++
      [⟨L, value.kinds ++ if used then value.kinds ++ S else S⟩]
  | .assign ty (.field target _) value used => .ofValue L ty.kind?.toList fun S =>
    (target.views L).value S ++ (value.views L).value (.reference :: S) ++
      shownIf used ⟨L, value.kinds ++ .reference :: S⟩ ++
      [⟨L, value.kinds ++ .reference :: if used then value.kinds ++ S else S⟩]
  | .binary ty op left right =>
    match op with
    | .logicalAnd => .ofBranch L fun S onTrue =>
      (left.views L).branch S false ++ (right.views L).branch S onTrue
    | .logicalOr => .ofBranch L fun S onTrue =>
      (left.views L).branch S true ++ (right.views L).branch S onTrue
    | .add | .subtract | .multiply | .divide | .modulo => .ofValue L ty.kind?.toList fun S =>
      (left.views L).value S ++ (right.views L).value (left.kinds ++ S) ++
        [⟨L, right.kinds ++ (left.kinds ++ S)⟩]
    | .equal | .notEqual | .lessThan | .lessThanEqual | .greaterThan | .greaterThanEqual =>
      .ofBranch L (compareViews L left right (left.views L) (right.views L))
  | .unary ty op operand =>
    if op = .logicalNot then .ofBranch L fun S onTrue => (operand.views L).branch S (!onTrue)
    else .ofValue L ty.kind?.toList fun S =>
      (operand.views L).value S ++ unaryViews L op operand.kinds S
  | .increment ty op (.slot _) used =>
    .ofValue L ty.kind?.toList (incrementSlotViews L op ty.kind?.toList used)
  | .increment ty op (.field target _) used => .ofValue L ty.kind?.toList fun S =>
    (target.views L).value S ++ incrementFieldViews L op ty.kind?.toList used S
  | .call ty _ args => .ofValue L ty.kind?.toList fun S =>
    Expr.allViews L S args ++ [⟨L, Expr.pushAll S args⟩]
  | .error _ => .ofValue L [] fun _ => []
termination_by structural e => e

/-- The views in the code of arguments. -/
def Expr.allViews (L : Locals) (S : List Kind) : List Expr → List View
  | [] => []
  | e :: rest => (e.views L).value S ++ Expr.allViews L (e.kinds ++ S) rest
termination_by structural es => es

end

/-! ## Statements -/

/-- A finally body as it is copied: what is known of the locals at its try, and the views in a
copy. -/
structure Copy where
  locals : Locals
  views : List View

/-- What the views in a statement depend on: inside how many open regions the constructs around
it are, and, for each region open around it, innermost first, its finally body if there is
one. -/
structure Outlook where
  landings : List (Nat × Nat) := []
  copies : List (Option Copy) := []

namespace Outlook

/-- Inside a construct. -/
def enter (O : Outlook) (id : Nat) : Outlook :=
  { O with landings := (id, O.copies.length) :: O.landings }

/-- Inside a region. -/
def within (O : Outlook) (copy : Option Copy) : Outlook :=
  { O with copies := copy :: O.copies }

/-- The views in copies that run one after the other. -/
def copyViews (copies : List (Option Copy)) : List View :=
  copies.flatMap (·.elim [] Copy.views)

/-- What is known of the locals after them. A copy has slots of its own behind those that are
known at its try. -/
def knownAfter (L : Locals) : List (Option Copy) → Locals
  | [] => L
  | none :: copies => knownAfter L copies
  | some copy :: copies => knownAfter copy.locals copies

/-- The views in a jump to a construct: copies of finally bodies, and then the jump. Where it
leaves no try with a finally body, all is known that is known at the statement. Otherwise it is
what is known at the outermost of them. -/
def jump (O : Outlook) (L : Locals) (id : Nat) : List View :=
  match O.landings.lookup id with
  | none => []
  | some depth =>
    let copies := O.copies.take (O.copies.length - depth)
    copyViews copies ++ [⟨knownAfter L copies, []⟩]

end Outlook

mutual

/-- The views in the code of a statement. -/
def Stmt.views (O : Outlook) (L : Locals) : Stmt → List View
  | .block body => Stmt.allViews O L body
  | .localInit _ e => (e.views L).value [] ++ [⟨L, e.kinds⟩]
  | .expression e discard => (e.views L).value [] ++ shownIf discard ⟨L, e.kinds⟩
  | .ifElse c s none => (c.views L).branch [] false ++ s.views O L
  | .ifElse c s (some t) =>
    (c.views L).branch [] false ++ s.views O L ++ [⟨L, []⟩] ++ t.views O L
  | .whileLoop j c body =>
    (c.views L).branch [] false ++ body.views (O.enter j.id) L ++ [⟨L, []⟩]
  | .doLoop j body c => body.views (O.enter j.id) L ++ (c.views L).branch [] true
  | .forLoop j init c update body =>
    let L' := Stmt.declareAll L init
    Stmt.allViews O L init ++ c.elim [] (fun e => (e.views L').branch [] false) ++
      body.views (O.enter j.id) L' ++ Stmt.allViews O L' update ++ [⟨L', []⟩]
  | .switch id _ e groups _ =>
    (e.views L).value [] ++ [⟨L, e.kinds⟩] ++ Stmt.groupViews (O.enter id) L groups
  | .tryCatch guarded clauses none => Stmt.allViews (O.within none) L guarded ++ [⟨L, []⟩] ++
      Stmt.clauseViews O L [] clauses
  | .tryCatch guarded clauses (some ⟨_, last⟩) =>
    let copy := Stmt.allViews O (L ++ [none]) last
    Stmt.allViews (O.within (some ⟨L, copy⟩)) L guarded ++ copy ++ [⟨L, []⟩] ++
      Stmt.clauseViews (O.within (some ⟨L, copy⟩)) L copy clauses ++ [⟨L, [.reference]⟩] ++
      Stmt.allViews O (L ++ [some .reference]) last ++
      [⟨L ++ [some .reference], []⟩, ⟨L ++ [some .reference], [.reference]⟩]
  | .breakJump id | .continueJump id => O.jump L id
  | .throw e => (e.views L).value [] ++ [⟨L, e.kinds⟩]
  | .empty => []
termination_by structural s => s

/-- The views in the code of statements one after another. -/
def Stmt.allViews (O : Outlook) (L : Locals) : List Stmt → List View
  | [] => []
  | s :: rest => s.views O L ++ Stmt.allViews O (s.declare L) rest
termination_by structural body => body

/-- The views in the code of the groups of a switch. -/
def Stmt.groupViews (O : Outlook) (L : Locals) : List (List Stmt) → List View
  | [] => []
  | body :: rest => Stmt.allViews O L body ++ Stmt.groupViews O L rest
termination_by structural groups => groups

/-- The views in the code of catch clauses, each of which ends with a copy of the finally
body and a jump. -/
def Stmt.clauseViews (O : Outlook) (L : Locals) (copy : List View) : List (Catch Stmt) → List View
  | [] => []
  | ⟨_, _, body⟩ :: rest => [⟨L, [.reference]⟩] ++
      Stmt.allViews O (L ++ [some .reference]) body ++ copy ++ [⟨L, []⟩] ++
      Stmt.clauseViews O L copy rest
termination_by structural clauses => clauses

end

/-- The views in the code of a method body, the last one before the halt. -/
def Program.views (p : Program) : List View :=
  Stmt.allViews {} [] p.body ++ [⟨Stmt.declareAll [] p.body, []⟩]

end Annotated

/-! ## Views that fit the code -/

namespace Lowering

/-- The view at a position asks for no more than is known in `v`. -/
def Admits (G : Nat → Option View) (pc : Nat) (v : View) : Prop :=
  ∃ w, G pc = some w ∧ w.Below v

theorem Admits.mono {G : Nat → Option View} {pc : Nat} {v w : View} (h : Admits G pc v)
    (hv : v.Below w) : Admits G pc w := by
  obtain ⟨u, hu, hle⟩ := h
  exact ⟨u, hu, hle.trans hv⟩

/-- The same at a label, if it has a position. -/
def AdmitsAt (code : Code) (G : Nat → Option View) (l : Label) (v : View) : Prop :=
  ∀ pc, code.position l = some pc → Admits G pc v

/-- The label is wanted to ask for no more than is known in `v`. -/
def Wants (want : Label → View → Prop) (l : Label) (v : View) : Prop :=
  ∃ w, want l w ∧ w.Below v

theorem Wants.mono {want : Label → View → Prop} {l : Label} {v w : View} (h : Wants want l v)
    (hv : v.Below w) : Wants want l w := by
  obtain ⟨u, hu, hle⟩ := h
  exact ⟨u, hu, hle.trans hv⟩

theorem Wants.of {want : Label → View → Prop} {l : Label} {v : View} (h : want l v) :
    Wants want l v :=
  ⟨v, h, .refl v⟩

theorem Wants.imp {want want' : Label → View → Prop} {l : Label} {v : View} (h : Wants want l v)
    (hwant : ∀ l v, want l v → want' l v) : Wants want' l v := by
  obtain ⟨w, hw, hle⟩ := h
  exact ⟨w, hwant l w hw, hle⟩

theorem Wants.admits {want : Label → View → Prop} {code : Code} {G : Nat → Option View}
    {l : Label} {v : View} (h : Wants want l v) (hG : ∀ l v, want l v → AdmitsAt code G l v) :
    AdmitsAt code G l v := by
  obtain ⟨w, hw, hle⟩ := h
  exact fun pc hpc => (hG l w hw pc hpc).mono hle

/-- These are the views from `pc` on. -/
def Shown (G : Nat → Option View) (pc : Nat) (vs : List View) : Prop :=
  ∀ (k : Nat) (v : View), vs[k]? = some v → G (pc + k) = some v

theorem Shown.append {G : Nat → Option View} {pc : Nat} {vs ws : List View}
    (h : Shown G pc (vs ++ ws)) : Shown G pc vs ∧ Shown G (pc + vs.length) ws := by
  constructor
  · intro k v hk
    obtain ⟨hlt, -⟩ := List.getElem?_eq_some_iff.mp hk
    exact h k v (by rwa [List.getElem?_append_left hlt])
  · intro k v hk
    rw [Nat.add_assoc]
    refine h _ v ?_
    rwa [List.getElem?_append_right (by omega), Nat.add_sub_cancel_left]

/-- Behind a call for a value, what lies on top of the stack is represented as a call of that name
declares it. -/
def Declared (sig : Signature) (i : Instruction) (next : Option View) : Prop :=
  ∀ name argc, i = ⟨.invoke, some (.call name argc true)⟩ →
    ∃ w ∈ next, ∃ k ∈ w.stack.head?, sig.returns name k

theorem declared_of_ne {sig : Signature} {i : Instruction} {next : Option View}
    (hi : i.opcode ≠ .invoke) : Declared sig i next := by
  rintro name argc rfl
  exact absurd rfl hi

theorem declared_jump {sig : Signature} {opcode : Opcode} {l : Label} {next : Option View} :
    Declared sig ⟨opcode, some (.label l)⟩ next := by
  rintro name argc ⟨⟩

/-- Whatever the instruction at a position leads to is known where it goes on. -/
def LeadsOn (code : Code) (sig : Signature) (G : Nat → Option View) (q : Nat) : Prop :=
  ∀ i v, code.instructions[q]? = some i → G q = some v → ∃ next target,
    i.Leads code sig.field code.maxLocals v next target ∧ Declared sig i next ∧
      (∀ w ∈ next, Admits G (q + 1) w) ∧ ∀ l ∈ i.targets, AdmitsAt code G l target

/-- The views fit the code from `pc` on, and the handlers around its instructions. A jump that
leaves regions stands inside them but knows less than they ask for, and throws nothing. -/
structure Fitting (code : Code) (sig : Signature) (G : Nat → Option View) (pc : Nat)
    (ss : List Site) (vs : List View) : Prop where
  steps : ∀ q, pc ≤ q → q < pc + vs.length → LeadsOn code sig G q
  guards : List.Forall₂ (fun (s : Site) (v : View) => s.instruction.opcode ≠ .goto →
    ∀ g ∈ s.guards, AdmitsAt code G g.2 ⟨v.locals, [.reference]⟩) ss vs

theorem Fitting.append {code : Code} {sig : Signature} {G : Nat → Option View} {pc : Nat}
    {ss ts : List Site} {vs ws : List View} (h : Fitting code sig G pc ss vs)
    (h' : Fitting code sig G (pc + vs.length) ts ws) :
    Fitting code sig G pc (ss ++ ts) (vs ++ ws) where
  steps := by
    intro q hlo hhi
    rw [List.length_append] at hhi
    by_cases hq : q < pc + vs.length
    · exact h.steps q hlo hq
    · exact h'.steps q (by omega) (by omega)
  guards := List.rel_append h.guards h'.guards

/-- The pieces are laid out with the views `vs`, one for each instruction, from what is known in
`v` to what is known in `v'`. The instructions stand at the sites `ss`. -/
structure Threads (code : Code) (sig : Signature) (mine : List (Nat × View))
    (want : Label → View → Prop) (v : View) (ps : List Piece) (ss : List Site) (vs : List View)
    (v' : View) : Prop where
  length : vs.length = size (layOut ps)
  fits : ∀ pc G, Laid code pc (layOut ps) → Shown G pc vs → Admits G (pc + vs.length) v' →
    Admits G pc v ∧ (∀ l w, (l, w) ∈ mine → AdmitsAt code G l w) ∧
      ((∀ l w, want l w → AdmitsAt code G l w) → Fitting code sig G pc ss vs)

namespace Threads

variable {code : Code} {sig : Signature} {mine mine' : List (Nat × View)}
  {want want' : Label → View → Prop} {u v w v' : View} {ps qs : List Piece} {ss ts : List Site}
  {vs ws : List View}

theorem nil : Threads code sig [] want v [] [] [] v := by
  refine ⟨rfl, fun pc G _ _ hend => ⟨hend, by simp, fun _ => ⟨?_, .nil⟩⟩⟩
  intro q hlo hhi
  simp only [List.length_nil] at hhi
  omega

theorem append (hp : Threads code sig mine want v ps ss vs w)
    (hq : Threads code sig mine' want w qs ts ws v') :
    Threads code sig (mine ++ mine') want v (ps ++ qs) (ss ++ ts) (vs ++ ws) v' := by
  refine ⟨by rw [List.length_append, hp.length, hq.length, layOut_append, size_append], ?_⟩
  intro pc G hlaid hshown hend
  rw [layOut_append] at hlaid
  obtain ⟨hlp, hlq⟩ := laid_append.mp hlaid
  rw [← hp.length] at hlq
  obtain ⟨hsp, hsq⟩ := hshown.append
  rw [List.length_append, ← Nat.add_assoc] at hend
  obtain ⟨hmid, hmine', hfit'⟩ := hq.fits _ G hlq hsq hend
  obtain ⟨hstart, hmine, hfit⟩ := hp.fits pc G hlp hsp hmid
  refine ⟨hstart, fun l x hmem => ?_, fun hwant => (hfit hwant).append (hfit' hwant)⟩
  exact (List.mem_append.mp hmem).elim (hmine l x) (hmine' l x)

/-- What is known in the beginning may be more. -/
theorem start (hp : Threads code sig mine want v ps ss vs v') (hv : v.Below w) :
    Threads code sig mine want w ps ss vs v' := by
  refine ⟨hp.length, fun pc G hlaid hshown hend => ?_⟩
  obtain ⟨hstart, hrest⟩ := hp.fits pc G hlaid hshown hend
  exact ⟨hstart.mono hv, hrest⟩

/-- What is known in the end may be less. -/
theorem stop (hp : Threads code sig mine want v ps ss vs v') (hv : w.Below v') :
    Threads code sig mine want v ps ss vs w :=
  ⟨hp.length, fun pc G hlaid hshown hend => hp.fits pc G hlaid hshown (hend.mono hv)⟩

theorem mono (hp : Threads code sig mine want v ps ss vs v')
    (hwant : ∀ l x, want l x → want' l x) : Threads code sig mine want' v ps ss vs v' := by
  refine ⟨hp.length, fun pc G hlaid hshown hend => ?_⟩
  obtain ⟨hstart, hmine, hfit⟩ := hp.fits pc G hlaid hshown hend
  exact ⟨hstart, hmine, fun hw => hfit fun l x hlx => hw l x (hwant l x hlx)⟩

/-- Labels whose views are found need not be wanted. -/
theorem close (hp : Threads code sig mine want' v ps ss vs v')
    (hwant : ∀ l x, want' l x → want l x ∨ (l, x) ∈ mine) :
    Threads code sig [] want v ps ss vs v' := by
  refine ⟨hp.length, fun pc G hlaid hshown hend => ?_⟩
  obtain ⟨hstart, hmine, hfit⟩ := hp.fits pc G hlaid hshown hend
  refine ⟨hstart, by simp, fun hw => hfit fun l x hlx => ?_⟩
  exact (hwant l x hlx).elim (hw l x) (hmine l x)

/-- Pieces that come to the same directives. -/
theorem of_eq (hp : Threads code sig mine want v ps ss vs v') (hds : layOut ps = layOut qs) :
    Threads code sig mine want v qs ss vs v' := by
  obtain ⟨hlength, hfits⟩ := hp
  rw [hds] at hlength hfits
  exact ⟨hlength, hfits⟩

/-- A piece without instructions. -/
theorem still {d : Directive} (hd : d.instruction? = none) :
    Threads code sig [] want v [.give d] [] [] v := by
  refine ⟨by simp [layOut, Piece.directives, Directive.width, hd], fun pc G _ _ hend => ?_⟩
  refine ⟨hend, by simp, fun _ => ⟨fun q hlo hhi => ?_, .nil⟩⟩
  simp only [List.length_nil] at hhi
  omega

theorem stills {ds : List Directive} (hds : ∀ d ∈ ds, d.instruction? = none) :
    Threads code sig [] want v (ds.map .give) [] [] v := by
  induction ds with
  | nil => exact nil
  | cons d ds ih =>
      exact (still (hds d List.mem_cons_self)).append
        (ih fun d hd => hds d (List.mem_cons_of_mem _ hd))

/-- A label has the view of the place where it stands. -/
theorem place (l : Nat) : Threads code sig [(l, v)] want v [.give (.place l)] [] [] v := by
  obtain ⟨hlength, hfits⟩ : Threads code sig [] want v [.give (.place l)] [] [] v := still rfl
  refine ⟨hlength, fun pc G hlaid hshown hend => ?_⟩
  have hpos : code.position l = some pc := hlaid.1
  obtain ⟨hstart, -, hfit⟩ := hfits pc G hlaid hshown hend
  refine ⟨hstart, fun l' x hmem pc' hpc' => ?_, hfit⟩
  obtain ⟨rfl, rfl⟩ : l' = l ∧ x = v := by simpa using hmem
  obtain rfl := Option.some.inj (hpos.symm.trans hpc')
  exact hstart

/-- An instruction, after which something is known if the next one may follow. -/
theorem instruction {d : Directive} {i : Instruction} {s : Site} {next : Option View}
    {target : View} (hd : d.instruction? = some i)
    (hi : i.Leads code sig.field code.maxLocals v next target) (hcalls : Declared sig i next)
    (hnext : ∀ w ∈ next, v'.Below w) (htargets : ∀ l ∈ i.targets, Wants want l target)
    (hguards : s.instruction.opcode ≠ .goto →
      ∀ g ∈ s.guards, Wants want g.2 ⟨v.locals, [.reference]⟩) :
    Threads code sig [] want v [.give d] [s] [v] v' := by
  refine ⟨by simp [layOut, Piece.directives, Directive.width, hd], ?_⟩
  intro pc G hlaid hshown hend
  have hat : code.instructions[pc]? = some i := by
    cases d <;> first | exact hlaid.1 i hd | simp [Directive.instruction?] at hd
  have hpc : G pc = some v := hshown 0 v rfl
  refine ⟨⟨v, hpc, .refl v⟩, by simp, fun hw => ⟨fun q hlo hhi => ?_, .cons ?_ .nil⟩⟩
  · obtain rfl : q = pc := by
      simp only [List.length_singleton] at hhi
      omega
    intro i' v₁ hi' hv₁
    obtain rfl := Option.some.inj (hat.symm.trans hi')
    obtain rfl := Option.some.inj (hpc.symm.trans hv₁)
    exact ⟨next, target, hi, hcalls, fun w hmem => hend.mono (hnext w hmem),
      fun l hl => (htargets l hl).admits hw⟩
  · exact fun hne g hg => (hguards hne g hg).admits hw

end Threads

/-! ## Pieces in regions -/

/-- The handlers of the regions around ask for no more than is known of the locals, and the
object that was thrown. -/
def Guarded (want : Label → View → Prop) (around : List Guard) (L : Locals) : Prop :=
  ∀ g ∈ around.flatten, Wants want g.2 ⟨L, [.reference]⟩

theorem Guarded.mono {want : Label → View → Prop} {around : List Guard} {L L' : Locals}
    (h : Guarded want around L) (hL : Locals.Below L L') : Guarded want around L' :=
  fun g hg => (h g hg).mono ⟨hL, rfl⟩

theorem Guarded.imp {want want' : Label → View → Prop} {around : List Guard} {L : Locals}
    (h : Guarded want around L) (hwant : ∀ l v, want l v → want' l v) :
    Guarded want' around L :=
  fun g hg => (h g hg).imp hwant

/-- Views in pieces that stand in the regions `around`. -/
abbrev Flows (code : Code) (sig : Signature) (around : List Guard)
    (mine : List (Nat × View)) (want : Label → View → Prop) (v : View) (ps : List Piece)
    (vs : List View) (v' : View) : Prop :=
  Threads code sig mine want v ps (sites around ps) vs v'

namespace Flows

variable {code : Code} {sig : Signature} {around : List Guard}
  {mine mine' : List (Nat × View)} {want : Label → View → Prop} {v w v' : View}
  {ps qs : List Piece} {vs ws : List View}

theorem append (hp : Flows code sig around mine want v ps vs w)
    (hq : Flows code sig around mine' want w qs ws v') :
    Flows code sig around (mine ++ mine') want v (ps ++ qs) (vs ++ ws) v' := by
  rw [Flows, sites_append]
  exact Threads.append hp hq

theorem statement (hp : Flows code sig around mine want v ps vs v') :
    Flows code sig around mine want v [.statement ps] vs v' := by
  have hsites : sites around [.statement ps] = sites around ps := by
    simp [sites, Piece.sites]
  rw [Flows, hsites]
  exact Threads.of_eq hp (by simp [layOut, Piece.directives])

theorem place (l : Nat) : Flows code sig around [(l, v)] want v [.give (.place l)] [] v :=
  Threads.place l

theorem create (l : Nat) : Flows code sig around [] want v [.give (.create l)] [] v :=
  Threads.still rfl

theorem creates (n k : Nat) : Flows code sig around [] want v (created n k) [] v := by
  induction k generalizing n with
  | zero => exact Threads.nil
  | succ k ih => exact (create n).append (ih (n + 1))

theorem places (ls : List Nat) :
    Flows code sig around (ls.map (·, v)) want v (placed ls) [] v := by
  induction ls with
  | nil => exact Threads.nil
  | cons l ls ih => exact (place l).append ih

theorem placeIf (used : Bool) (l : Nat) :
    Flows code sig around (if used then [(l, v)] else []) want v (Gen.placedIf used l) [] v := by
  cases used
  · exact Threads.nil
  · exact place l

/-- An instruction after which the next one follows. -/
theorem emit {i : Instruction} {target : View}
    (hi : i.Leads code sig.field code.maxLocals v (some v') target)
    (hcalls : Declared sig i (some v')) (htargets : ∀ l ∈ i.targets, Wants want l target)
    (hg : Guarded want around v.locals) :
    Flows code sig around [] want v [.give (.emit i)] [v] v' := by
  refine Threads.instruction rfl hi hcalls ?_ htargets fun _ => hg
  rintro w ⟨⟩
  exact .refl v'

/-- A jump after which the next instruction does not follow. -/
theorem goto {l : Label} (hl : Wants want l v) (v' : View) :
    Flows code sig around [] want v [.give (.emit ⟨.goto, some (.label l)⟩)] [v] v' := by
  refine Threads.instruction rfl Instruction.leads_goto declared_jump ?_ ?_ fun hne => absurd rfl hne
  · rintro w ⟨⟩
  · simpa [Instruction.targets] using hl

theorem throw {L : Locals} {S : List Kind} (hg : Guarded want around L) (v' : View) :
    Flows code sig around [] want ⟨L, .reference :: S⟩ [.give (.emit ⟨.throw, none⟩)]
      [⟨L, .reference :: S⟩] v' := by
  have hthrow : Instruction.Leads code sig.field code.maxLocals ⟨.throw, none⟩ ⟨L, .reference :: S⟩
      none v' := Instruction.leads_throw
  refine Threads.instruction rfl hthrow (declared_of_ne (by decide)) ?_ ?_ fun _ => hg
  · rintro w ⟨⟩
  · simp [Instruction.targets]

end Flows

/-! ## Code for expressions -/

open Annotated (Expr ExprViews)

namespace Gen

/-- Whatever the step gives has the views `vs`, from what is known in `v` to what is known in
`v'`. -/
def Carries (code : Code) (sig : Signature) (around : List Guard)
    (want : Label → View → Prop) (v : View) (x : Gen Unit) (vs : List View) (v' : View) : Prop :=
  ∀ ⦃n n' : Nat⦄ ⦃u : Unit⦄ ⦃ps : List Piece⦄, x.Yields n u ps n' →
    Flows code sig around [] want v ps vs v'

variable {code : Code} {sig : Signature} {around : List Guard}
  {want : Label → View → Prop} {v w v' : View} {vs ws : List View} {L : Locals} {S : List Kind}
  {k : Kind}

theorem carries_pure : (pure () : Gen Unit).Carries code sig around want v [] v := by
  intro n n' u ps hy
  obtain ⟨-, rfl, -⟩ := yields_pure.mp hy
  exact Threads.nil

theorem Carries.as {x : Gen Unit} (h : x.Carries code sig around want v vs v') (hvs : vs = ws) :
    x.Carries code sig around want v ws v' :=
  hvs ▸ h

theorem Carries.imp {want' : Label → View → Prop} {x : Gen Unit}
    (h : x.Carries code sig around want v vs v') (hwant : ∀ l v, want l v → want' l v) :
    x.Carries code sig around want' v vs v' :=
  fun _ _ _ _ hy => Threads.mono (h hy) hwant

theorem carries_bind {x : Gen Unit} {f : Unit → Gen Unit}
    (hx : x.Carries code sig around want v vs w)
    (hf : (f ()).Carries code sig around want w ws v') :
    (x >>= f).Carries code sig around want v (vs ++ ws) v' := by
  intro n n' u ps hy
  obtain ⟨p, m, q, hp, rfl, hq⟩ := yields_unit_bind.mp hy
  exact (hx hp).append (hf hq)

theorem carries_give {d : Directive} (hd : Flows code sig around [] want v [.give d] vs v') :
    (give d).Carries code sig around want v vs v' := by
  intro n n' u ps hy
  obtain ⟨rfl, -⟩ := yields_give.mp hy
  exact hd

/-- An instruction that neither jumps nor calls. -/
def isPlain (i : Instruction) : Bool :=
  i.targets.isEmpty && i.opcode != .invoke

/-- An instruction that goes on with the next one. -/
theorem carries_emit {i : Instruction} (hplain : isPlain i)
    (hi : i.Leads code sig.field code.maxLocals v (some v') v) (hg : Guarded want around v.locals) :
    (give (.emit i)).Carries code sig around want v [v] v' := by
  obtain ⟨htargets, hcall⟩ := Bool.and_eq_true_iff.mp hplain
  rw [List.isEmpty_iff] at htargets
  refine carries_give (Flows.emit hi (declared_of_ne (bne_iff_ne.mp hcall)) ?_ hg)
  simp [htargets]

theorem carries_constant {i : Instruction} {value : Value} (hplain : isPlain i)
    (hi : ∀ {σ : Type} (host : Host σ) (m : Machine σ), m.step host code i = m.push value)
    (hvalue : ∀ n, value.Is n k) (hg : Guarded want around L) :
    (give (.emit i)).Carries code sig around want ⟨L, S⟩ [⟨L, S⟩] ⟨L, k :: S⟩ :=
  carries_emit hplain (Instruction.leads_constant hi hvalue) hg

end Gen

open Gen

/-- The codes of an expression whose value is represented as `k`: one adds the value to the
stack, the other leaves the stack as it is on both ways. -/
structure ExprCode.Carries (code : Code) (sig : Signature) (L : Locals) (k : Kind)
    (c : ExprCode) (views : ExprViews) : Prop where
  value : ∀ around want S, Guarded want around L →
    c.value.Carries code sig around want ⟨L, S⟩ (views.value S) ⟨L, k :: S⟩
  branch : ∀ around want S target onTrue, Guarded want around L → Wants want target ⟨L, S⟩ →
    (c.branch target onTrue).Carries code sig around want ⟨L, S⟩ (views.branch S onTrue) ⟨L, S⟩

section Codes

variable {code : Code} {sig : Signature} {around : List Guard}
  {want : Label → View → Prop} {L : Locals} {S : List Kind} {k k' : Kind}

theorem carries_jumpIf {target : Label} (onTrue : Bool) (hg : Guarded want around L)
    (ht : Wants want target ⟨L, S⟩) :
    (Gen.jump (if onTrue then .ifNe else .ifEq) target).Carries code sig around want
      ⟨L, k :: S⟩ [⟨L, k :: S⟩] ⟨L, S⟩ := by
  refine carries_give (Flows.emit ?_ declared_jump (by simpa [Instruction.targets] using ht) hg)
  cases onTrue
  · exact Instruction.leads_branchIfZero fun _ _ => rfl
  · exact Instruction.leads_branchIfZero fun _ _ => rfl

theorem carries_ofValue {value : Gen Unit} {views : List Kind → List View} {result : List Kind}
    (hresult : result = [k])
    (hv : ∀ around want S, Guarded want around L →
      value.Carries code sig around want ⟨L, S⟩ (views S) ⟨L, k :: S⟩) :
    (ExprCode.ofValue value).Carries code sig L k (.ofValue L result views) := by
  subst hresult
  refine ⟨hv, fun around want S target onTrue hg ht => ?_⟩
  exact carries_bind (hv around want S hg) (carries_jumpIf onTrue hg ht)

/-- Some labels more, all with one view. -/
abbrev AlsoAt (want : Label → View → Prop) (ls : List Nat) (v : View) : Label → View → Prop :=
  fun l w => want l w ∨ (l ∈ ls ∧ w = v)

theorem Guarded.also (h : Guarded want around L) (ls : List Nat) (v : View) :
    Guarded (AlsoAt want ls v) around L :=
  h.imp fun _ _ => .inl

theorem Wants.also {l : Label} {w : View} (h : Wants want l w) (ls : List Nat) (v : View) :
    Wants (AlsoAt want ls v) l w :=
  h.imp fun _ _ => .inl

theorem Wants.own {l : Nat} {ls : List Nat} {v : View} (h : l ∈ ls) :
    Wants (AlsoAt want ls v) l v :=
  .of (.inr ⟨h, rfl⟩)

theorem Flows.pushInt (v : Int32) (hg : Guarded want around L) :
    Flows code sig around [] want ⟨L, S⟩ [.give (.emit ⟨.push, some (.int v)⟩)] [⟨L, S⟩]
      ⟨L, .int :: S⟩ := by
  have hpush : Instruction.Leads code sig.field code.maxLocals ⟨.push, some (.int v)⟩ ⟨L, S⟩
      (some ⟨L, .int :: S⟩) ⟨L, S⟩ :=
    Instruction.leads_constant (fun _ _ => rfl) fun _ => ⟨v, rfl⟩
  exact Flows.emit hpush (declared_of_ne (by simp)) (by simp [Instruction.targets]) hg

theorem carries_ofBranch {branch : Label → Bool → Gen Unit} {views : List Kind → Bool → List View}
    (hb : ∀ around want S target onTrue, Guarded want around L → Wants want target ⟨L, S⟩ →
      (branch target onTrue).Carries code sig around want ⟨L, S⟩ (views S onTrue) ⟨L, S⟩) :
    (ExprCode.ofBranch branch).Carries code sig L .int (.ofBranch L views) := by
  refine ⟨fun around want S hg n n' u ps hy => ?_, hb⟩
  obtain ⟨test, htest, rfl⟩ := yields_ofBranch_value hy
  have hfalse : Wants (AlsoAt want [n] ⟨L, S⟩) n ⟨L, S⟩ := Wants.own (List.mem_singleton_self _)
  have hfalse := hfalse.also [n + 1] ⟨L, .int :: S⟩
  have hdone : Wants (AlsoAt (AlsoAt want [n] ⟨L, S⟩) [n + 1] ⟨L, .int :: S⟩) (n + 1)
      ⟨L, .int :: S⟩ := Wants.own (List.mem_singleton_self _)
  have hg := (hg.also [n] ⟨L, S⟩).also [n + 1] ⟨L, .int :: S⟩
  -- Both ways push: the one that goes on jumps over the other.
  have hall := ((Flows.creates n 2).append (hb around _ S n false hg hfalse htest)).append
    ((Flows.pushInt 1 hg).append ((Flows.goto hdone ⟨L, S⟩).append ((Flows.place n).append
      ((Flows.pushInt 0 hg).append (Flows.place (n + 1))))))
  refine Threads.close hall fun l x hw => ?_
  obtain (hw | ⟨hl, rfl⟩) | ⟨hl, rfl⟩ := hw
  · exact .inl hw
  · obtain rfl := List.mem_singleton.mp hl
    exact .inr (by simp)
  · obtain rfl := List.mem_singleton.mp hl
    exact .inr (by simp)

/-- A label that the first of two parts may jump to is placed behind the second. -/
theorem flows_skipping {n : Nat} {p q : List Piece} {vs ws : List View} {v : View}
    (hp : Flows code sig around [] (AlsoAt want [n] v) v p vs v)
    (hq : Flows code sig around [] (AlsoAt want [n] v) v q ws v) :
    Flows code sig around [] want v (created n 1 ++ p ++ q ++ [.give (.place n)]) (vs ++ ws)
      v := by
  have hall := (((Flows.creates n 1).append hp).append hq).append (Flows.place n)
  simp only [List.nil_append, List.append_nil] at hall
  refine Threads.close hall ?_
  rintro l x (hw | ⟨hl, rfl⟩)
  · exact .inl hw
  · obtain rfl := List.mem_singleton.mp hl
    exact .inr (by simp)

theorem carries_shortCircuit {decisive : Bool} {left right : ExprCode}
    {leftViews rightViews : ExprViews} (hl : left.Carries code sig L k leftViews)
    (hr : right.Carries code sig L k' rightViews) (around : List Guard)
    (want : Label → View → Prop) (S : List Kind) (target : Label) (onTrue : Bool)
    (hg : Guarded want around L) (ht : Wants want target ⟨L, S⟩) :
    (shortCircuit decisive left right target onTrue).Carries code sig around want ⟨L, S⟩
      (leftViews.branch S decisive ++ rightViews.branch S onTrue) ⟨L, S⟩ := by
  intro n n' u ps hy
  obtain rfl | hne := Decidable.em (onTrue = decisive)
  · obtain ⟨p, m, q, hp, hq, rfl⟩ := yields_shortCircuit_direct hy
    exact (hl.branch _ _ S _ _ hg ht hp).append (hr.branch _ _ S _ _ hg ht hq)
  · obtain ⟨p, m, q, hp, hq, rfl⟩ := yields_shortCircuit_skipping hne hy
    exact flows_skipping
      (hl.branch _ _ S _ _ (hg.also _ _) (Wants.own (List.mem_singleton_self n)) hp)
      (hr.branch _ _ S _ _ (hg.also _ _) (ht.also _ _) hq)

/-- A comparison of values that are represented alike. -/
theorem leads_comparison {op : BinaryOp} {opcode : Opcode} {l : Label}
    (hop : comparison? op = some opcode) (hk : op.isRelational → k ≠ .reference) :
    Instruction.Leads code sig.field code.maxLocals ⟨opcode, some (.label l)⟩ ⟨L, k :: k :: S⟩
      (some ⟨L, S⟩) ⟨L, S⟩ := by
  cases op <;> simp only [comparison?, Option.some.injEq, reduceCtorEq] at hop <;> subst hop
  · exact Instruction.leads_branchIf (fun _ _ => rfl) fun _ => .inl rfl
  · exact Instruction.leads_branchIf (fun _ _ => rfl) fun _ => .inr rfl
  all_goals exact Instruction.leads_branchIf (fun _ _ => rfl) fun hr => absurd hr (hk rfl)

/-- The opposite of a comparison compares the same values. -/
theorem leads_opposite {op : BinaryOp} {opcode opposite : Opcode} {l : Label}
    (hop : comparison? op = some opcode) (hneg : opcode.negate? = some opposite)
    (hk : op.isRelational → k ≠ .reference) :
    Instruction.Leads code sig.field code.maxLocals ⟨opposite, some (.label l)⟩ ⟨L, k :: k :: S⟩
      (some ⟨L, S⟩) ⟨L, S⟩ := by
  cases op <;> simp only [comparison?, Option.some.injEq, reduceCtorEq] at hop <;> subst hop <;>
    simp only [Opcode.negate?, Option.some.injEq] at hneg <;> subst hneg
  · exact Instruction.leads_branchIf (fun _ _ => rfl) fun _ => .inr rfl
  · exact Instruction.leads_branchIf (fun _ _ => rfl) fun _ => .inl rfl
  all_goals exact Instruction.leads_branchIf (fun _ _ => rfl) fun hr => absurd hr (hk rfl)

theorem Flows.compare {opcode : Opcode} {l : Label}
    (hi : Instruction.Leads code sig.field code.maxLocals ⟨opcode, some (.label l)⟩ ⟨L, k :: k :: S⟩
      (some ⟨L, S⟩) ⟨L, S⟩) (hg : Guarded want around L) (hl : Wants want l ⟨L, S⟩) :
    Flows code sig around [] want ⟨L, k :: k :: S⟩
      [.give (.emit ⟨opcode, some (.label l)⟩)] [⟨L, k :: k :: S⟩] ⟨L, S⟩ :=
  Flows.emit hi declared_jump (by simpa [Instruction.targets] using hl) hg

theorem carries_compareBranch {op : BinaryOp} {left right : Expr}
    (hl : (exprCode left).Carries code sig L k (left.views L))
    (hr : (exprCode right).Carries code sig L k (right.views L)) (hkl : left.kinds = [k])
    (hkr : right.kinds = [k]) (hk : op.isRelational → k ≠ .reference) (around : List Guard)
    (want : Label → View → Prop) (S : List Kind) (target : Label) (onTrue : Bool)
    (hg : Guarded want around L) (ht : Wants want target ⟨L, S⟩) :
    (compareBranch op left.ty (exprCode left).value (exprCode right).value target onTrue).Carries
      code sig around want ⟨L, S⟩
      (Annotated.compareViews L left right (left.views L) (right.views L) S onTrue) ⟨L, S⟩ := by
  intro n n' u ps hy
  obtain ⟨p, m, q, m', opcode, jump, hp, hq, hop, hjump, rfl⟩ := yields_compareBranch hy
  rw [Annotated.compareViews, hkl, hkr, List.append_assoc _ [_]]
  refine ((hl.value _ _ S hg hp).append (hr.value _ _ (k :: S) hg hq)).append ?_
  cases hjump with
  | holds => exact Flows.compare (leads_comparison hop hk) hg ht
  | fails hty hneg =>
      rw [decide_eq_false hty]
      exact Flows.compare (leads_opposite hop hneg hk) hg ht
  | failsOnDoubles hty =>
      rw [decide_eq_true hty]
      have hskip : Flows code sig around [] (AlsoAt want [m'] ⟨L, S⟩) ⟨L, k :: k :: S⟩ _ _
          ⟨L, S⟩ := Flows.compare (leads_comparison hop hk) (hg.also _ _)
        (Wants.own (List.mem_singleton_self m'))
      have hall := (Flows.creates m' 1).append (hskip.append
        ((Flows.goto (ht.also _ _) ⟨L, S⟩).append (Flows.place m')))
      refine Threads.close hall ?_
      rintro l x (hw | ⟨hl, rfl⟩)
      · exact .inl hw
      · obtain rfl := List.mem_singleton.mp hl
        exact .inr (by simp)

theorem carries_pushLong (v : Int64) (hg : Guarded want around L) :
    (pushLong v).Carries code sig around want ⟨L, S⟩ [⟨L, S⟩] ⟨L, .long :: S⟩ := by
  rw [pushLong]
  split
  · exact carries_constant rfl (fun _ _ => rfl) (fun _ => ⟨_, rfl⟩) hg
  · split
    · exact carries_constant rfl (fun _ _ => rfl) (fun _ => ⟨_, rfl⟩) hg
    · exact carries_constant rfl (fun _ _ => rfl) (fun _ => ⟨_, rfl⟩) hg

theorem carries_pushDouble (v : Float) (hg : Guarded want around L) :
    (pushDouble v).Carries code sig around want ⟨L, S⟩ [⟨L, S⟩] ⟨L, .double :: S⟩ := by
  rw [pushDouble]
  split
  · exact carries_constant rfl (fun _ _ => rfl) (fun _ => ⟨_, rfl⟩) hg
  · split
    · exact carries_constant rfl (fun _ _ => rfl) (fun _ => ⟨_, rfl⟩) hg
    · exact carries_constant rfl (fun _ _ => rfl) (fun _ => ⟨_, rfl⟩) hg

/-- The number one of a numeric type. -/
theorem carries_pushOne {ty : Ty} (hty : ty.isNumeric) (hk : ty.kind? = some k)
    (hg : Guarded want around L) :
    (pushOne ty).Carries code sig around want ⟨L, S⟩ [⟨L, S⟩] ⟨L, k :: S⟩ := by
  cases ty with
  | int | long | double =>
      obtain rfl := Option.some.inj hk
      exact carries_constant rfl (fun _ _ => rfl) (fun _ => ⟨_, rfl⟩) hg
  | _ => cases hty

theorem carries_widening {source target : Ty} (hwidens : source.widensTo target)
    (hs : source.kind? = some k) (ht : target.kind? = some k') (hg : Guarded want around L) :
    (match widening? source target with
      | some opcode => Gen.emit opcode
      | none => Gen.fail (.noWidening source target)).Carries code sig around want ⟨L, k :: S⟩
        [⟨L, k :: S⟩] ⟨L, k' :: S⟩ := by
  cases source <;> cases target <;> try cases hwidens
  all_goals
    obtain rfl := Option.some.inj hs
    obtain rfl := Option.some.inj ht
    refine carries_emit rfl (Instruction.leads_unary (fun _ _ => rfl) fun n value hv => ?_) hg
    obtain ⟨x, rfl⟩ := hv
    exact ⟨_, rfl, _, rfl⟩

theorem carries_arithmetic {op : BinaryOp} {ty : Ty} {left right : Expr} (hop : op.isArithmetic)
    (hl : (exprCode left).Carries code sig L k (left.views L))
    (hr : (exprCode right).Carries code sig L k (right.views L)) (hkl : left.kinds = [k])
    (hkr : right.kinds = [k]) (hne : k ≠ .reference) (hresult : ty.kind?.toList = [k]) :
    (exprCode (.binary ty op left right)).Carries code sig L k
      ((Expr.binary ty op left right).views L) := by
  have hcode : ∃ a : Arithmetic, a ≠ .xor ∧ exprCode (.binary ty op left right) = .ofValue (do
      (exprCode left).value
      (exprCode right).value
      Gen.emit a.opcode) ∧
      (Expr.binary ty op left right).views L = .ofValue L ty.kind?.toList fun S =>
        (left.views L).value S ++ (right.views L).value (left.kinds ++ S) ++
          [⟨L, right.kinds ++ (left.kinds ++ S)⟩] := by
    cases op <;> first
      | exact ⟨.add, nofun, rfl, rfl⟩
      | exact ⟨.sub, nofun, rfl, rfl⟩
      | exact ⟨.mul, nofun, rfl, rfl⟩
      | exact ⟨.div, nofun, rfl, rfl⟩
      | exact ⟨.rem, nofun, rfl, rfl⟩
      | cases hop
  obtain ⟨a, ha, hcode, hviews⟩ := hcode
  rw [hcode, hviews]
  refine carries_ofValue hresult fun around want S hg => ?_
  rw [hkl, hkr, List.append_assoc]
  exact carries_bind (hl.value _ _ S hg) (carries_bind (hr.value _ _ (k :: S) hg)
    (carries_emit (by cases a <;> rfl)
      (Instruction.leads_arithmetic a hne fun hx => absurd hx ha) hg))

theorem carries_applyUnary {op : UnaryOp} {ty : Ty} {result : Option Kind} (hop : op ≠ .logicalNot)
    (ht : op.Takes result ty.kind?) (hk : ty.kind? = some k) (hg : Guarded want around L) :
    result = some k ∧ (applyUnary op ty).Carries code sig around want ⟨L, k :: S⟩
      (Annotated.unaryViews L op [k] S) ⟨L, k :: S⟩ := by
  cases op with
  | logicalNot => exact absurd rfl hop
  | minus =>
      obtain ⟨k', hne, rfl, hk'⟩ := ht
      obtain rfl := Option.some.inj (hk.symm.trans hk')
      exact ⟨rfl, carries_emit rfl (Instruction.leads_neg hne) hg⟩
  | plus =>
      obtain ⟨k', hne, rfl, hk'⟩ := ht
      obtain rfl := Option.some.inj (hk.symm.trans hk')
      exact ⟨rfl, carries_pure⟩
  | bitwiseNot =>
      obtain ⟨k', hwhole, rfl, hk'⟩ := ht
      obtain rfl := Option.some.inj (hk.symm.trans hk')
      have hxor : (Gen.emit .xor).Carries code sig around want ⟨L, k :: k :: S⟩
          [⟨L, k :: k :: S⟩] ⟨L, k :: S⟩ := by
        refine carries_emit rfl (Instruction.leads_arithmetic .xor ?_ fun _ => ?_) hg <;>
          rintro rfl <;> simp at hwhole
      have hpush : (Gen.emitWith .push (if ty = .long then .long (-1) else .int (-1))).Carries code
          sig around want ⟨L, k :: S⟩ [⟨L, k :: S⟩] ⟨L, k :: k :: S⟩ := by
        obtain rfl | rfl := hwhole
        · rw [if_neg (by rintro rfl; cases hk)]
          exact carries_constant rfl (fun _ _ => rfl) (fun _ => ⟨_, rfl⟩) hg
        · rw [if_pos (by cases ty <;> first | rfl | cases hk)]
          exact carries_constant rfl (fun _ _ => rfl) (fun _ => ⟨_, rfl⟩) hg
      exact ⟨rfl, carries_bind hpush hxor⟩

/-- A step of a local leaves a value if one is wanted. -/
theorem carries_incrementSlot (op : UpdateOp) {slot : Nat} (used : Bool)
    (hslot : L[slot]? = some (some k)) (hk : k ≠ .reference) (hg : Guarded want around L) :
    (incrementSlot op slot used).Carries code sig around want ⟨L, S⟩
      (Annotated.incrementSlotViews L op [k] used S) ⟨L, if used then k :: S else S⟩ := by
  have hload : (Gen.give (.emit ⟨.load, some (.slot slot)⟩)).Carries code sig around want
      ⟨L, S⟩ [⟨L, S⟩] ⟨L, k :: S⟩ := carries_emit rfl (Instruction.leads_load hslot) hg
  have hinc (S : List Kind) : (Gen.give (.emit ⟨.inc, some (.increment slot op.delta)⟩)).Carries
      code sig around want ⟨L, S⟩ [⟨L, S⟩] ⟨L, S⟩ :=
    carries_emit rfl (Instruction.leads_inc hslot hk) hg
  rw [incrementSlot, Annotated.incrementSlotViews]
  cases used <;> cases op.givesOldValue
  · exact .as (carries_bind carries_pure (carries_bind (hinc S) carries_pure)) rfl
  · exact .as (carries_bind carries_pure (carries_bind (hinc S) carries_pure)) rfl
  · exact .as (carries_bind carries_pure (carries_bind (hinc S) hload)) rfl
  · exact .as (carries_bind hload (carries_bind (hinc (k :: S)) carries_pure)) rfl

/-- A step of a field leaves a value if one is wanted. -/
theorem carries_incrementField (op : UpdateOp) {ty : Ty} {target : Gen Unit} {vs : List View}
    (name : String) (used : Bool) (hty : ty.isNumeric) (hk : ty.kind? = some (sig.field name))
    (ht : target.Carries code sig around want ⟨L, S⟩ vs ⟨L, .reference :: S⟩)
    (hg : Guarded want around L) :
    (incrementField op ty target name used).Carries code sig around want ⟨L, S⟩
      (vs ++ Annotated.incrementFieldViews L op [sig.field name] used S)
      ⟨L, if used then sig.field name :: S else S⟩ := by
  obtain ⟨k, hne, hk'⟩ := Ty.kind?_of_isNumeric hty
  have hfield : sig.field name ≠ .reference := by
    rw [hk] at hk'
    rw [Option.some.inj hk']
    exact hne
  have hdup : (Gen.emit .dup).Carries code sig around want ⟨L, .reference :: S⟩
      [⟨L, .reference :: S⟩] ⟨L, .reference :: .reference :: S⟩ :=
    carries_emit rfl Instruction.leads_dup hg
  have hget : (Gen.emitWith .getField (.name name)).Carries code sig around want
      ⟨L, .reference :: .reference :: S⟩ [⟨L, .reference :: .reference :: S⟩]
      ⟨L, sig.field name :: .reference :: S⟩ := carries_emit rfl Instruction.leads_getField hg
  have hcopy : (Gen.give (.emit ⟨.dupX1, none⟩)).Carries code sig around want
      ⟨L, sig.field name :: .reference :: S⟩ [⟨L, sig.field name :: .reference :: S⟩]
      ⟨L, sig.field name :: .reference :: sig.field name :: S⟩ :=
    carries_emit rfl Instruction.leads_dupX1 hg
  have hstep (S : List Kind) : (Gen.emit (if 0 < op.delta then .add else .sub)).Carries code sig
      around want ⟨L, sig.field name :: sig.field name :: S⟩ [⟨L, sig.field name :: sig.field name :: S⟩]
      ⟨L, sig.field name :: S⟩ := by
    split
    · exact carries_emit rfl (Instruction.leads_arithmetic .add hfield nofun) hg
    · exact carries_emit rfl (Instruction.leads_arithmetic .sub hfield nofun) hg
  have hput (S : List Kind) : (Gen.emitWith .putField (.name name)).Carries code sig around want
      ⟨L, sig.field name :: .reference :: S⟩ [⟨L, sig.field name :: .reference :: S⟩] ⟨L, S⟩ :=
    carries_emit rfl Instruction.leads_putField hg
  have hone (S : List Kind) : (pushOne ty).Carries code sig around want ⟨L, S⟩ [⟨L, S⟩]
      ⟨L, sig.field name :: S⟩ := carries_pushOne hty hk hg
  refine carries_bind ht ?_
  rw [Annotated.incrementFieldViews]
  cases used <;> cases op.givesOldValue
  · exact .as (carries_bind hdup (carries_bind hget (carries_bind carries_pure
      (carries_bind (hone _) (carries_bind (hstep _) (carries_bind carries_pure (hput S))))))) rfl
  · exact .as (carries_bind hdup (carries_bind hget (carries_bind carries_pure
      (carries_bind (hone _) (carries_bind (hstep _) (carries_bind carries_pure (hput S))))))) rfl
  · exact .as (carries_bind hdup (carries_bind hget (carries_bind carries_pure
      (carries_bind (hone _) (carries_bind (hstep _) (carries_bind hcopy (hput _))))))) rfl
  · exact .as (carries_bind hdup (carries_bind hget (carries_bind hcopy
      (carries_bind (hone _) (carries_bind (hstep _) (carries_bind carries_pure (hput _))))))) rfl

theorem carries_assignSlot {value : Gen Unit} {vs : List View} {slot : Nat} (used : Bool)
    (hv : value.Carries code sig around want ⟨L, S⟩ vs ⟨L, k :: S⟩)
    (hslot : L[slot]? = some (some k)) (hg : Guarded want around L) :
    Gen.Carries code sig around want ⟨L, S⟩ (do
      value
      Gen.emitIf used ⟨.dup, none⟩
      Gen.emitWith .store (.slot slot))
      (vs ++ Annotated.shownIf used ⟨L, k :: S⟩ ++ [⟨L, k :: if used then k :: S else S⟩])
      ⟨L, if used then k :: S else S⟩ := by
  have hstore (S : List Kind) : (Gen.emitWith .store (.slot slot)).Carries code sig around want
      ⟨L, k :: S⟩ [⟨L, k :: S⟩] ⟨L, S⟩ := carries_emit rfl (Instruction.leads_assign hslot) hg
  rw [List.append_assoc]
  refine carries_bind hv ?_
  cases used
  · exact carries_bind carries_pure (hstore S)
  · exact carries_bind (carries_emit rfl Instruction.leads_dup hg) (hstore (k :: S))

theorem carries_assignField {target value : Gen Unit} {vs ws : List View} (name : String)
    (used : Bool) (ht : target.Carries code sig around want ⟨L, S⟩ vs ⟨L, .reference :: S⟩)
    (hv : value.Carries code sig around want ⟨L, .reference :: S⟩ ws
      ⟨L, sig.field name :: .reference :: S⟩) (hg : Guarded want around L) :
    Gen.Carries code sig around want ⟨L, S⟩ (do
      target
      value
      Gen.emitIf used ⟨.dupX1, none⟩
      Gen.emitWith .putField (.name name))
      (vs ++ ws ++ Annotated.shownIf used ⟨L, sig.field name :: .reference :: S⟩ ++
        [⟨L, sig.field name :: .reference :: if used then sig.field name :: S else S⟩])
      ⟨L, if used then sig.field name :: S else S⟩ := by
  have hput (S : List Kind) : (Gen.emitWith .putField (.name name)).Carries code sig around want
      ⟨L, sig.field name :: .reference :: S⟩ [⟨L, sig.field name :: .reference :: S⟩] ⟨L, S⟩ :=
    carries_emit rfl Instruction.leads_putField hg
  rw [List.append_assoc, List.append_assoc]
  refine carries_bind ht (carries_bind hv ?_)
  cases used
  · exact carries_bind carries_pure (hput S)
  · exact carries_bind (carries_emit rfl Instruction.leads_dupX1 hg) (hput (sig.field name :: S))

/-- A call takes its arguments off the stack and leaves a value unless it is void. -/
theorem carries_invoke (name : String) {argc : Nat} {ty : Ty} {args : List Kind}
    (hargs : args.length = argc) (hty : ty ≠ .any) (hreturns : ∀ k ∈ ty.kind?, sig.returns name k)
    (hg : Guarded want around L) :
    (Gen.emitWith .invoke (.call name argc (ty != .void))).Carries code sig around want
      ⟨L, args ++ S⟩ [⟨L, args ++ S⟩] ⟨L, ty.kind?.toList ++ S⟩ := by
  by_cases hvoid : ty = .void
  · subst hvoid
    have hleads : Instruction.Leads code sig.field code.maxLocals
        ⟨.invoke, some (.call name argc false)⟩ ⟨L, args ++ S⟩ (some ⟨L, [] ++ S⟩) ⟨L, S⟩ :=
      Instruction.leads_invoke (k := .int) hargs rfl
    refine carries_give (Flows.emit hleads ?_ (by simp [Instruction.targets]) hg)
    rintro name argc ⟨⟩
  · obtain ⟨k, hk⟩ := Option.isSome_iff_exists.mp (Ty.kind?_isSome ⟨hvoid, hty⟩)
    rw [bne_iff_ne.mpr hvoid, hk]
    have hleads : Instruction.Leads code sig.field code.maxLocals
        ⟨.invoke, some (.call name argc true)⟩ ⟨L, args ++ S⟩ (some ⟨L, [k] ++ S⟩) ⟨L, S⟩ :=
      Instruction.leads_invoke (k := k) hargs rfl
    refine carries_give (Flows.emit hleads ?_ (by simp [Instruction.targets]) hg)
    rintro name argc ⟨⟩
    exact ⟨_, rfl, k, rfl, hreturns k hk⟩

theorem pushAll_append (S : List Kind) (es : List Expr) :
    Expr.pushAll S es = Expr.pushAll [] es ++ S := by
  induction es generalizing S with
  | nil => rfl
  | cons e rest ih =>
      rw [Expr.pushAll, Expr.pushAll, ih, ih (e.kinds ++ []), List.append_nil, List.append_assoc]

theorem length_pushAll {es : List Expr} (hs : Expr.AllTyped sig L es) :
    (Expr.pushAll [] es).length = es.length := by
  induction es with
  | nil => rfl
  | cons e rest ih =>
      obtain ⟨hk, -, hrest⟩ := hs
      obtain ⟨k, hk⟩ := Option.isSome_iff_exists.mp hk
      rw [Expr.pushAll, pushAll_append, List.length_append, ih hrest, Expr.kinds, hk]
      rfl

theorem kinds_eq {e : Expr} (h : e.ty.kind? = some k) : e.kinds = [k] := by
  rw [Expr.kinds, h]
  rfl

mutual

/-- The codes of a typed expression whose value is wanted. -/
theorem carries_exprCode {k : Kind} (e : Expr) (hs : e.Sound true) (ht : e.Typed sig L)
    (hk : e.ty.kind? = some k) : (exprCode e).Carries code sig L k (e.views L) := by
  have hresult : e.ty.kind?.toList = [k] := kinds_eq hk
  match e with
  | .int _ v =>
      obtain rfl := Option.some.inj (hk.symm.trans ht)
      exact carries_ofValue hresult fun around want S hg =>
        carries_constant rfl (fun _ _ => rfl) (fun _ => ⟨v, rfl⟩) hg
  | .long _ v =>
      obtain rfl := Option.some.inj (hk.symm.trans ht)
      exact carries_ofValue hresult fun around want S hg => carries_pushLong v hg
  | .double _ v =>
      obtain rfl := Option.some.inj (hk.symm.trans ht)
      exact carries_ofValue hresult fun around want S hg => carries_pushDouble v hg
  | .bool _ v =>
      obtain rfl := Option.some.inj (hk.symm.trans ht)
      refine ⟨fun around want S hg => ?_, fun around want S target onTrue hg hw => ?_⟩
      · exact carries_constant rfl (fun _ _ => rfl) (fun _ => ⟨_, rfl⟩) hg
      · simp only [exprCode, Expr.views]
        cases v == onTrue
        · exact carries_pure
        · exact carries_give (Flows.goto hw _)
  | .null _ =>
      obtain rfl := Option.some.inj (hk.symm.trans ht)
      exact carries_ofValue hresult fun around want S hg =>
        carries_constant rfl (fun _ _ => rfl) (fun _ => .inl rfl) hg
  | .new _ className =>
      obtain rfl := Option.some.inj (hk.symm.trans ht)
      exact carries_ofValue hresult fun around want S hg =>
        carries_emit rfl Instruction.leads_new hg
  | .slot _ slot =>
      obtain ⟨k', hk', hslot⟩ := ht
      obtain rfl := Option.some.inj (hk.symm.trans hk')
      exact carries_ofValue hresult fun around want S hg =>
        carries_emit rfl (Instruction.leads_load hslot) hg
  | .field _ target name =>
      obtain ⟨hfield, hobject, ht⟩ := ht
      obtain rfl := Option.some.inj (hk.symm.trans hfield)
      have ih := carries_exprCode target hs ht hobject
      exact carries_ofValue hresult fun around want S hg =>
        carries_bind (ih.value _ _ S hg) (carries_emit rfl Instruction.leads_getField hg)
  | .widen ty inner =>
      obtain ⟨hwidens, ht⟩ := ht
      obtain ⟨k', hk'⟩ : ∃ k', inner.ty.kind? = some k' := by
        revert hwidens
        cases inner.ty <;> simp [Ty.widensTo, Ty.kind?]
      have ih := carries_exprCode inner hs.2 ht hk'
      refine carries_ofValue hresult fun around want S hg => ?_
      rw [kinds_eq hk']
      exact carries_bind (ih.value _ _ S hg) (carries_widening hwidens hk' hk hg)
  | .assign _ (.slot slot) value used =>
      obtain ⟨rfl, hs⟩ := hs
      obtain ⟨⟨k', hk', hslot, hvalue⟩, ht⟩ := ht
      obtain rfl := Option.some.inj (hk.symm.trans hk')
      have ih := carries_exprCode value hs ht hvalue
      refine carries_ofValue hresult fun around want S hg => ?_
      rw [kinds_eq hvalue]
      exact carries_assignSlot true (ih.value _ _ S hg) hslot hg
  | .assign _ (.field target name) value used =>
      obtain ⟨rfl, hst, hsv⟩ := hs
      obtain ⟨hfield, hvalue, hobject, htt, htv⟩ := ht
      obtain rfl := Option.some.inj (hk.symm.trans hfield)
      have iht := carries_exprCode target hst htt hobject
      have ihv := carries_exprCode value hsv htv hvalue
      refine carries_ofValue hresult fun around want S hg => ?_
      rw [kinds_eq hvalue]
      exact carries_assignField name true (iht.value _ _ S hg) (ihv.value _ _ _ hg) hg
  | .binary _ op left right =>
      obtain ⟨hsl, hsr⟩ := hs
      obtain ⟨hop, htl, htr⟩ := ht
      cases op with
      | logicalAnd | logicalOr =>
          obtain ⟨hint, hkl, hkr⟩ := hop
          obtain rfl := Option.some.inj (hk.symm.trans hint)
          obtain ⟨kl, hkl⟩ := Option.isSome_iff_exists.mp hkl
          obtain ⟨kr, hkr⟩ := Option.isSome_iff_exists.mp hkr
          exact carries_ofBranch (carries_shortCircuit (carries_exprCode left hsl htl hkl)
            (carries_exprCode right hsr htr hkr))
      | equal | notEqual =>
          obtain ⟨hint, k', hkl, hkr⟩ := hop
          obtain rfl := Option.some.inj (hk.symm.trans hint)
          exact carries_ofBranch (carries_compareBranch (carries_exprCode left hsl htl hkl)
            (carries_exprCode right hsr htr hkr) (kinds_eq hkl) (kinds_eq hkr) nofun)
      | lessThan | lessThanEqual | greaterThan | greaterThanEqual =>
          obtain ⟨hint, k', hne, hkl, hkr⟩ := hop
          obtain rfl := Option.some.inj (hk.symm.trans hint)
          exact carries_ofBranch (carries_compareBranch (carries_exprCode left hsl htl hkl)
            (carries_exprCode right hsr htr hkr) (kinds_eq hkl) (kinds_eq hkr) fun _ => hne)
      | add | subtract | multiply | divide | modulo =>
          obtain ⟨k', hne, hk', hkl, hkr⟩ := hop
          obtain rfl := Option.some.inj (hk.symm.trans hk')
          exact carries_arithmetic rfl (carries_exprCode left hsl htl hkl)
            (carries_exprCode right hsr htr hkr) (kinds_eq hkl) (kinds_eq hkr) hne hresult
  | .unary _ op operand =>
      obtain ⟨hop, ht⟩ := ht
      obtain ⟨k', hk'⟩ : ∃ k', operand.ty.kind? = some k' := by
        cases op with
        | minus | plus =>
            obtain ⟨k', -, -, hk'⟩ := hop
            exact ⟨k', hk'⟩
        | logicalNot => exact Option.isSome_iff_exists.mp hop.2
        | bitwiseNot =>
            obtain ⟨k', -, -, hk'⟩ := hop
            exact ⟨k', hk'⟩
      have ih := carries_exprCode operand hs ht hk'
      by_cases hnot : op = .logicalNot
      · subst hnot
        obtain rfl := Option.some.inj (hk.symm.trans hop.1)
        exact carries_ofBranch fun around want S target onTrue =>
          ih.branch around want S target (!onTrue)
      · simp only [exprCode, Expr.views, if_neg hnot]
        refine carries_ofValue hresult fun around want S hg => ?_
        obtain ⟨hsame, happly⟩ := carries_applyUnary hnot hop hk' hg
        obtain rfl := Option.some.inj (hk.symm.trans hsame)
        rw [kinds_eq hk']
        exact carries_bind (ih.value _ _ S hg) happly
  | .increment _ op (.slot slot) used =>
      obtain rfl : used = true := hs
      obtain ⟨hnumeric, hslot⟩ := ht
      obtain ⟨k', hne, hk'⟩ := Ty.kind?_of_isNumeric hnumeric
      obtain rfl := Option.some.inj (hk.symm.trans hk')
      refine carries_ofValue hresult fun around want S hg => ?_
      rw [hk'] at hslot ⊢
      exact carries_incrementSlot op true hslot hne hg
  | .increment ty op (.field target name) used =>
      obtain ⟨rfl, hs⟩ := hs
      obtain ⟨hnumeric, hfield, hobject, ht⟩ := ht
      obtain rfl := Option.some.inj (hk.symm.trans hfield)
      have ih := carries_exprCode target hs ht hobject
      refine carries_ofValue hresult fun around want S hg => ?_
      rw [hfield]
      exact carries_incrementField op name true hnumeric hfield (ih.value _ _ S hg) hg
  | .call ty name args =>
      refine carries_ofValue hresult fun around want S hg => ?_
      have hinvoke : (Gen.emitWith .invoke (.call name args.length (ty != .void))).Carries code sig
          around want ⟨L, Expr.pushAll [] args ++ S⟩ _ ⟨L, ty.kind?.toList ++ S⟩ :=
        carries_invoke name (length_pushAll ht.2.2) ht.1 ht.2.1 hg
      rw [← pushAll_append, show ty.kind?.toList = [k] from hresult] at hinvoke
      exact carries_bind (carries_argsCode args hs ht.2.2 around want S hg) hinvoke
  | .error _ => exact hs.elim
termination_by structural e

theorem carries_argsCode (es : List Expr) (hs : Expr.AllSound es) (ht : Expr.AllTyped sig L es)
    (around : List Guard) (want : Label → View → Prop) (S : List Kind)
    (hg : Guarded want around L) :
    (argsCode es).Carries code sig around want ⟨L, S⟩ (Expr.allViews L S es)
      ⟨L, Expr.pushAll S es⟩ := by
  match es with
  | [] => exact carries_pure
  | e :: rest =>
      obtain ⟨hk, hte, htr⟩ := ht
      obtain ⟨k, hk⟩ := Option.isSome_iff_exists.mp hk
      have hrest := carries_argsCode rest hs.2 htr around want (k :: S) hg
      rw [Expr.allViews, Expr.pushAll, kinds_eq hk]
      exact carries_bind ((carries_exprCode e hs.1 hte hk).value around want S hg) hrest
termination_by structural es

end

/-- Only a void call is without a value. -/
theorem kind_of_typed {e : Expr} (ht : e.Typed sig L) (hvoid : ∀ name args, e ≠ .call .void name args) :
    ∃ k, e.ty.kind? = some k := by
  cases e with
  | int | long | double | bool | null | new => exact ⟨_, ht⟩
  | slot ty i =>
      obtain ⟨k, hk, -⟩ := ht
      exact ⟨k, hk⟩
  | field => exact ⟨_, ht.1⟩
  | widen ty inner =>
      have hwidens : inner.ty.widensTo ty := ht.1
      cases ty <;> first | exact ⟨_, rfl⟩ | simp [Ty.widensTo] at hwidens
  | assign ty place value used =>
      cases place with
      | slot i =>
          obtain ⟨⟨k, hk, -⟩, -⟩ := ht
          exact ⟨k, hk⟩
      | field target name => exact ⟨_, ht.1⟩
  | binary ty op left right =>
      obtain ⟨hop, -, -⟩ := ht
      cases op with
      | logicalAnd | logicalOr | equal | notEqual | lessThan | lessThanEqual | greaterThan
      | greaterThanEqual => exact ⟨_, hop.1⟩
      | add | subtract | multiply | divide | modulo =>
          obtain ⟨k, -, hk, -⟩ := hop
          exact ⟨k, hk⟩
  | unary ty op operand =>
      obtain ⟨hop, -⟩ := ht
      cases op with
      | logicalNot => exact ⟨_, hop.1⟩
      | minus | plus | bitwiseNot =>
          obtain ⟨k, -, hk, -⟩ := hop
          exact ⟨k, hk⟩
  | increment ty op place used =>
      cases place with
      | slot i =>
          obtain ⟨k, -, hk⟩ := Ty.kind?_of_isNumeric ht.1
          exact ⟨k, hk⟩
      | field target name => exact ⟨_, ht.2.1⟩
  | call ty name args =>
      have hty : ty ≠ .void := by
        rintro rfl
        exact hvoid name args rfl
      exact Option.isSome_iff_exists.mp (Ty.kind?_isSome ⟨hty, ht.1⟩)
  | error => exact ht.elim

/-- An expression whose value is wanted whether or not it stands alone leaves it. -/
theorem carries_discarded {e : Expr} (hs : e.Sound true) (ht : e.Typed sig L)
    (hvoid : ∀ name args, e ≠ .call .void name args)
    (hleaves : Typing.leavesValue e = (e.ty != .void)) (hg : Guarded want around L) :
    (value e).Carries code sig around want ⟨L, []⟩ ((e.views L).value [])
      ⟨L, if Typing.leavesValue e then e.kinds else []⟩ := by
  obtain ⟨k, hk⟩ := kind_of_typed ht hvoid
  have hty : e.ty ≠ .void := by
    intro hty
    rw [hty] at hk
    cases hk
  rw [hleaves, bne_iff_ne.mpr hty, if_pos rfl, kinds_eq hk]
  exact (carries_exprCode e hs ht hk).value around want [] hg

/-- The code of an expression that stands alone leaves a value if one is to be discarded. -/
theorem carries_unused {e : Expr} (hs : e.Sound false) (ht : e.Typed sig L)
    (hg : Guarded want around L) : (value e).Carries code sig around want ⟨L, []⟩
      ((e.views L).value []) ⟨L, if Typing.leavesValue e then e.kinds else []⟩ := by
  match e with
  | .int .. | .long .. | .double .. | .bool .. | .null _ | .slot .. | .field .. | .widen .. | .new ..
  | .binary .. | .unary .. => exact carries_discarded hs ht (by simp) rfl hg
  | .assign _ (.slot slot) value used =>
      obtain ⟨rfl, hs⟩ := hs
      obtain ⟨⟨k, -, hslot, hk⟩, ht⟩ := ht
      simp only [Expr.views, ExprViews.ofValue, kinds_eq hk]
      exact carries_assignSlot false ((carries_exprCode value hs ht hk).value _ _ [] hg) hslot hg
  | .assign _ (.field target name) value used =>
      obtain ⟨rfl, hst, hsv⟩ := hs
      obtain ⟨-, hvalue, hobject, htt, htv⟩ := ht
      simp only [Expr.views, ExprViews.ofValue, kinds_eq hvalue]
      exact carries_assignField name false
        ((carries_exprCode target hst htt hobject).value _ _ [] hg)
        ((carries_exprCode value hsv htv hvalue).value _ _ _ hg) hg
  | .increment _ op (.slot slot) used =>
      obtain rfl : used = false := hs
      obtain ⟨hnumeric, hslot⟩ := ht
      obtain ⟨k, hne, hk⟩ := Ty.kind?_of_isNumeric hnumeric
      rw [hk] at hslot
      simp only [Expr.views, ExprViews.ofValue, hk]
      exact carries_incrementSlot op false hslot hne hg
  | .increment ty op (.field target name) used =>
      obtain ⟨rfl, hs⟩ := hs
      obtain ⟨hnumeric, hfield, hobject, ht⟩ := ht
      simp only [Expr.views, ExprViews.ofValue, hfield]
      exact carries_incrementField op name false hnumeric hfield
        ((carries_exprCode target hs ht hobject).value _ _ [] hg) hg
  | .call ty name args =>
      by_cases hvoid : ty = .void
      · subst hvoid
        have hinvoke : (Gen.emitWith .invoke (.call name args.length false)).Carries code sig
            around want ⟨L, Expr.pushAll [] args ++ []⟩ _ ⟨L, []⟩ :=
          carries_invoke name (length_pushAll ht.2.2) ht.1 ht.2.1 hg
        rw [List.append_nil] at hinvoke
        exact carries_bind (carries_argsCode args hs ht.2.2 around want [] hg) hinvoke
      · exact carries_discarded hs ht (by simp [hvoid]) rfl hg
  | .error _ => exact hs.elim

end Codes

end Lowering

end MethodCompiler
