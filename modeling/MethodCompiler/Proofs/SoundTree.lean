import MethodCompiler.Annotated
import MethodCompiler.Construct
import MethodCompiler.Typing

/-!
# Sound trees

What generation takes for granted about a tree. Every conversion exists, nothing
stands for a complaint, and a store knows whether its value is wanted. A jump
names the construct right around it, and that construct knows of the jump: only
then is there a label to jump to.

The constructs of a tree are numbered from `lo` up to `hi` in the order in which
their bodies were checked. Generation does not follow that order. The last part of
a for loop is generated inside the loop and was checked before it, and a finally
body is generated again at every jump that leaves its try. What makes both work is
that two parts of a tree never share a number, and that is what the ranges say.
-/

namespace MethodCompiler

/-- How a switch with `groups` groups may pick one of them. -/
structure Dispatch.Sound (groups : Nat) (d : Dispatch) : Prop where
  count_eq : d.count = d.cases.length
  nodup : (d.cases.map (·.1)).Nodup
  group_lt : ∀ c ∈ d.cases, c.2 < groups
  default_lt : ∀ g, d.defaultGroup = some g → g < groups
  lo_le_hi : d.lo ≤ d.hi
  lo_le : ∀ c ∈ d.cases, d.lo ≤ c.1
  le_hi : ∀ c ∈ d.cases, c.1 ≤ d.hi

namespace Frame

/-- Whether a break has named the construct. -/
def hasBreak : Frame → Bool
  | loop f => f.hasBreak
  | switch f => f.hasBreak

/-- Whether a continue has named the construct. -/
def hasContinue : Frame → Bool
  | loop f => f.hasContinue
  | switch _ => false

end Frame

namespace Annotated

/-- A loop as the frame it was checked in. -/
def Jumps.frame (j : Jumps) (kind : ConstructKind) : Frame :=
  .loop ⟨j.id, kind, j.hasBreak, j.hasContinue⟩

mutual

/-- An expression whose value is wanted, or not, as `used` says. -/
def Expr.Sound (used : Bool) : Expr → Prop
  | .int .. | .long .. | .double .. | .bool .. | .null _ | .slot .. | .new .. => True
  | .field _ target _ => target.Sound true
  | .widen ty inner => inner.ty.widensTo ty ∧ inner.Sound true
  | .assign _ (.slot _) value wanted => wanted = used ∧ value.Sound true
  | .assign _ (.field target _) value wanted =>
    wanted = used ∧ target.Sound true ∧ value.Sound true
  | .binary _ _ left right => left.Sound true ∧ right.Sound true
  | .unary _ _ operand => operand.Sound true
  | .increment _ _ (.slot _) wanted => wanted = used
  | .increment _ _ (.field target _) wanted => wanted = used ∧ target.Sound true
  | .call _ _ args => Expr.AllSound args
  | .error _ => False
termination_by structural e => e

/-- Arguments, whose values are all wanted. -/
def Expr.AllSound : List Expr → Prop
  | [] => True
  | e :: rest => e.Sound true ∧ Expr.AllSound rest
termination_by structural es => es

end

mutual

/-- A statement right inside the construct `inner`, if any, whose own constructs are
numbered from `lo` up to `hi`. -/
def Stmt.Sound (inner : Option Frame) (lo : Nat) (s : Stmt) (hi : Nat) : Prop :=
  match s with
  | .block body => Stmt.AllSound inner lo body hi
  | .localInit _ e => e.Sound true ∧ lo = hi
  | .expression e discard => e.Sound false ∧ discard = Typing.leavesValue e ∧ lo = hi
  | .ifElse c s none => c.Sound true ∧ s.Sound inner lo hi
  | .ifElse c s (some t) => c.Sound true ∧ ∃ m, s.Sound inner lo m ∧ t.Sound inner m hi
  | .whileLoop j c body =>
    c.Sound true ∧ j.id = lo ∧ body.Sound (some (j.frame .whileLoop)) (lo + 1) hi
  | .doLoop j body c =>
    c.Sound true ∧ j.id = lo ∧ body.Sound (some (j.frame .doLoop)) (lo + 1) hi
  | .forLoop j init c update body =>
    (∀ e ∈ c, e.Sound true) ∧ ∃ m, Stmt.AllSound inner lo init m ∧
      Stmt.AllSound inner m update j.id ∧ body.Sound (some (j.frame .forLoop)) (j.id + 1) hi
  | .switch id hasBreak e groups d =>
    e.Sound true ∧ d.Sound groups.length ∧ id = lo ∧
      Stmt.GroupsSound (some (.switch ⟨id, hasBreak⟩)) (lo + 1) groups hi
  | .tryCatch guarded clauses none =>
    ∃ m, Stmt.AllSound inner lo guarded m ∧ Stmt.ClausesSound inner m clauses hi
  | .tryCatch guarded clauses (some ⟨_, body⟩) =>
    ∃ m m', Stmt.AllSound inner lo guarded m ∧ Stmt.ClausesSound inner m clauses m' ∧
      Stmt.AllSound inner m' body hi
  | .breakJump id => (∃ f ∈ inner, f.id = id ∧ f.hasBreak) ∧ lo = hi
  | .continueJump id => (∃ f ∈ inner, f.id = id ∧ f.hasContinue) ∧ lo = hi
  | .throw e => e.Sound true ∧ lo = hi
  | .empty => lo = hi
termination_by structural s

/-- Statements one after another. -/
def Stmt.AllSound (inner : Option Frame) (lo : Nat) (body : List Stmt) (hi : Nat) : Prop :=
  match body with
  | [] => lo = hi
  | s :: rest => ∃ m, s.Sound inner lo m ∧ Stmt.AllSound inner m rest hi
termination_by structural body

/-- The groups of a switch. -/
def Stmt.GroupsSound (inner : Option Frame) (lo : Nat) (groups : List (List Stmt)) (hi : Nat) :
    Prop :=
  match groups with
  | [] => lo = hi
  | body :: rest => ∃ m, Stmt.AllSound inner lo body m ∧ Stmt.GroupsSound inner m rest hi
termination_by structural groups

/-- The clauses of a try. -/
def Stmt.ClausesSound (inner : Option Frame) (lo : Nat) (clauses : List (Catch Stmt)) (hi : Nat) :
    Prop :=
  match clauses with
  | [] => lo = hi
  | ⟨_, _, body⟩ :: rest =>
    ∃ m, Stmt.AllSound inner lo body m ∧ Stmt.ClausesSound inner m rest hi
termination_by structural clauses

end

/-! ## Types in a tree -/

mutual

/-- The types of an expression and of its parts are all as wanted. -/
def Expr.Types (P : Ty → Prop) : Expr → Prop
  | .int ty _ | .long ty _ | .double ty _ | .bool ty _ | .null ty | .slot ty _ | .new ty _
  | .error ty => P ty
  | .field ty target _ => P ty ∧ target.Types P
  | .widen ty inner => P ty ∧ inner.Types P
  | .assign ty (.slot _) value _ => P ty ∧ value.Types P
  | .assign ty (.field target _) value _ => P ty ∧ target.Types P ∧ value.Types P
  | .binary ty _ left right => P ty ∧ left.Types P ∧ right.Types P
  | .unary ty _ operand => P ty ∧ operand.Types P
  | .increment ty _ (.slot _) _ => P ty
  | .increment ty _ (.field target _) _ => P ty ∧ target.Types P
  | .call ty _ args => P ty ∧ Expr.AllTypes P args
termination_by structural e => e

/-- The types of expressions and of their parts are all as wanted. -/
def Expr.AllTypes (P : Ty → Prop) : List Expr → Prop
  | [] => True
  | e :: rest => e.Types P ∧ Expr.AllTypes P rest
termination_by structural es => es

end

mutual

/-- The types of all expressions in a statement are as wanted, except that a call that
is a statement of its own may be void. -/
def Stmt.Types (P : Ty → Prop) : Stmt → Prop
  | .block body => Stmt.AllTypes P body
  | .localInit _ e | .throw e => e.Types P
  | .expression e _ => e.Types P ∨ ∃ name args, e = .call .void name args ∧ Expr.AllTypes P args
  | .ifElse c s none => c.Types P ∧ s.Types P
  | .ifElse c s (some t) => c.Types P ∧ s.Types P ∧ t.Types P
  | .whileLoop _ c body | .doLoop _ body c => c.Types P ∧ body.Types P
  | .forLoop _ init c update body =>
    (∀ e ∈ c, e.Types P) ∧ Stmt.AllTypes P init ∧ Stmt.AllTypes P update ∧ body.Types P
  | .switch _ _ e groups _ => e.Types P ∧ Stmt.GroupsTypes P groups
  | .tryCatch guarded clauses none => Stmt.AllTypes P guarded ∧ Stmt.ClausesTypes P clauses
  | .tryCatch guarded clauses (some ⟨_, body⟩) =>
    Stmt.AllTypes P guarded ∧ Stmt.ClausesTypes P clauses ∧ Stmt.AllTypes P body
  | .breakJump _ | .continueJump _ | .empty => True
termination_by structural s => s

/-- The same of statements one after another. -/
def Stmt.AllTypes (P : Ty → Prop) : List Stmt → Prop
  | [] => True
  | s :: rest => s.Types P ∧ Stmt.AllTypes P rest
termination_by structural body => body

/-- The same of the groups of a switch. -/
def Stmt.GroupsTypes (P : Ty → Prop) : List (List Stmt) → Prop
  | [] => True
  | body :: rest => Stmt.AllTypes P body ∧ Stmt.GroupsTypes P rest
termination_by structural groups => groups

/-- The same of the clauses of a try. -/
def Stmt.ClausesTypes (P : Ty → Prop) : List (Catch Stmt) → Prop
  | [] => True
  | ⟨_, _, body⟩ :: rest => Stmt.AllTypes P body ∧ Stmt.ClausesTypes P rest
termination_by structural clauses => clauses

end

mutual

theorem Expr.Types.mono {P Q : Ty → Prop} (hPQ : ∀ ty, P ty → Q ty) {e : Expr} (h : e.Types P) :
    e.Types Q := by
  match e with
  | .int .. | .long .. | .double .. | .bool .. | .null _ | .slot .. | .new .. | .error _
  | .increment _ _ (.slot _) _ => exact hPQ _ h
  | .field .. | .widen .. | .unary .. | .assign _ (.slot _) _ _ | .increment _ _ (.field _ _) _ =>
      exact ⟨hPQ _ h.1, h.2.mono hPQ⟩
  | .assign _ (.field _ _) _ _ | .binary .. =>
      exact ⟨hPQ _ h.1, h.2.1.mono hPQ, h.2.2.mono hPQ⟩
  | .call .. => exact ⟨hPQ _ h.1, h.2.mono hPQ⟩
termination_by structural e

theorem Expr.AllTypes.mono {P Q : Ty → Prop} (hPQ : ∀ ty, P ty → Q ty) {es : List Expr}
    (h : Expr.AllTypes P es) : Expr.AllTypes Q es := by
  match es with
  | [] => exact trivial
  | _ :: _ => exact ⟨h.1.mono hPQ, h.2.mono hPQ⟩
termination_by structural es

end

mutual

theorem Stmt.Types.mono {P Q : Ty → Prop} (hPQ : ∀ ty, P ty → Q ty) {s : Stmt} (h : s.Types P) :
    s.Types Q := by
  match s with
  | .block _ => exact Stmt.AllTypes.mono hPQ h
  | .localInit .. | .throw _ => exact Expr.Types.mono hPQ h
  | .expression .. =>
      obtain h | ⟨name, args, heq, hargs⟩ := h
      · exact .inl (h.mono hPQ)
      · exact .inr ⟨name, args, heq, hargs.mono hPQ⟩
  | .ifElse _ _ none => exact ⟨h.1.mono hPQ, h.2.mono hPQ⟩
  | .ifElse _ _ (some _) => exact ⟨h.1.mono hPQ, h.2.1.mono hPQ, h.2.2.mono hPQ⟩
  | .whileLoop .. | .doLoop .. => exact ⟨h.1.mono hPQ, h.2.mono hPQ⟩
  | .forLoop .. =>
      exact ⟨fun e he => (h.1 e he).mono hPQ, h.2.1.mono hPQ, h.2.2.1.mono hPQ, h.2.2.2.mono hPQ⟩
  | .switch .. => exact ⟨h.1.mono hPQ, h.2.mono hPQ⟩
  | .tryCatch _ _ none => exact ⟨h.1.mono hPQ, h.2.mono hPQ⟩
  | .tryCatch _ _ (some ⟨_, _⟩) => exact ⟨h.1.mono hPQ, h.2.1.mono hPQ, h.2.2.mono hPQ⟩
  | .breakJump _ | .continueJump _ | .empty => exact trivial
termination_by structural s

theorem Stmt.AllTypes.mono {P Q : Ty → Prop} (hPQ : ∀ ty, P ty → Q ty) {body : List Stmt}
    (h : Stmt.AllTypes P body) : Stmt.AllTypes Q body := by
  match body with
  | [] => exact trivial
  | _ :: _ => exact ⟨h.1.mono hPQ, h.2.mono hPQ⟩
termination_by structural body

theorem Stmt.GroupsTypes.mono {P Q : Ty → Prop} (hPQ : ∀ ty, P ty → Q ty)
    {groups : List (List Stmt)} (h : Stmt.GroupsTypes P groups) : Stmt.GroupsTypes Q groups := by
  match groups with
  | [] => exact trivial
  | _ :: _ => exact ⟨h.1.mono hPQ, h.2.mono hPQ⟩
termination_by structural groups

theorem Stmt.ClausesTypes.mono {P Q : Ty → Prop} (hPQ : ∀ ty, P ty → Q ty)
    {clauses : List (Catch Stmt)} (h : Stmt.ClausesTypes P clauses) : Stmt.ClausesTypes Q clauses := by
  match clauses with
  | [] => exact trivial
  | ⟨_, _, _⟩ :: _ => exact ⟨h.1.mono hPQ, h.2.mono hPQ⟩
termination_by structural clauses

end

end Annotated

end MethodCompiler
