import MethodCompiler.Dispatch
import MethodCompiler.Operator

/-!
# The annotated tree

What checking makes of a method body: names have become slots, every expression
carries its type, jumps name the construct they leave, and each switch knows how
it picks its group. The tree of a body with complaints exists only on the way; it
is handed on only without them.
-/

namespace MethodCompiler.Annotated

/-- A place that can be stored into. -/
inductive Place (ε : Type) where
  | slot (slot : Nat)
  | field (target : ε) (name : String)
deriving DecidableEq, Repr

/-- A typed expression. The first argument of each form is its type. -/
inductive Expr where
  | int (ty : Ty) (v : Int32)
  | long (ty : Ty) (v : Int64)
  | double (ty : Ty) (v : Float)
  | bool (ty : Ty) (v : Bool)
  | null (ty : Ty)
  | slot (ty : Ty) (slot : Nat)
  | field (ty : Ty) (target : Expr) (name : String)
  /-- a number converted to a wider type -/
  | widen (ty : Ty) (inner : Expr)
  /-- a store; `used` tells whether its value is wanted -/
  | assign (ty : Ty) (place : Place Expr) (value : Expr) (used : Bool)
  | binary (ty : Ty) (op : BinaryOp) (left right : Expr)
  | unary (ty : Ty) (op : UnaryOp) (operand : Expr)
  /-- a step up or down; `used` tells whether its value is wanted -/
  | increment (ty : Ty) (op : UpdateOp) (place : Place Expr) (used : Bool)
  | call (ty : Ty) (name : String) (args : List Expr)
  | new (ty : Ty) (className : String)
  /-- stands where there was a complaint -/
  | error (ty : Ty)
deriving Inhabited

/-- The type of an expression. -/
def Expr.ty : Expr → Ty
  | int ty _ | long ty _ | double ty _ | bool ty _ | null ty | slot ty _ | field ty .. | widen ty _
  | assign ty .. | binary ty .. | unary ty .. | increment ty .. | call ty .. | new ty _
  | error ty => ty

/-- The expression that stands where there was a complaint. -/
def Expr.failed : Expr :=
  .error .any

/-- A loop's number and which jumps name it. -/
structure Jumps where
  id : Nat
  hasBreak : Bool
  hasContinue : Bool
deriving DecidableEq, Repr

/-- A catch clause: the class, the slot of the caught object, the body. -/
structure Catch (σ : Type) where
  exceptionType : String
  slot : Nat
  body : List σ

/-- A finally block, with the slot that holds the object in flight while it
runs. -/
structure Finally (σ : Type) where
  slot : Nat
  body : List σ

/-- A checked statement. -/
inductive Stmt where
  | block (body : List Stmt)
  | localInit (slot : Nat) (value : Expr)
  /-- an expression; `discard` tells whether it leaves a value to drop -/
  | expression (e : Expr) (discard : Bool)
  | ifElse (condition : Expr) (consequent : Stmt) (alternate : Option Stmt)
  | whileLoop (jumps : Jumps) (condition : Expr) (body : Stmt)
  | doLoop (jumps : Jumps) (body : Stmt) (condition : Expr)
  | forLoop (jumps : Jumps) (init : List Stmt) (condition : Option Expr) (update : List Stmt)
      (body : Stmt)
  | switch (id : Nat) (hasBreak : Bool) (selector : Expr) (groups : List (List Stmt))
      (dispatch : Dispatch)
  | tryCatch (block : List Stmt) (catches : List (Catch Stmt)) (finalizer : Option (Finally Stmt))
  | breakJump (target : Nat)
  | continueJump (target : Nat)
  | throw (argument : Expr)
  | empty
deriving Inhabited

/-- A checked method body and the number of slots it needs. -/
structure Program where
  body : List Stmt
  maxSlots : Nat
deriving Inhabited

end MethodCompiler.Annotated
