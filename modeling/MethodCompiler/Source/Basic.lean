import MethodCompiler.Operator
import MethodCompiler.Ty

/-!
# The tree of a method body

What is checked and compiled: statements and expressions as a reader of program
text hands them over, each with the line it stands on. Types of fields and calls
come with the tree, because what classes and methods there are is not known here.
-/

namespace MethodCompiler.Source

/-- A constant written in the text. -/
inductive Literal where
  | int (v : Int32)
  | long (v : Int64)
  | double (v : Float)
  | boolean (v : Bool)
  | null
deriving DecidableEq, Inhabited

/-- An expression. The first argument of each form is its line. -/
inductive Expr where
  | literal (line : UInt32) (value : Literal)
  | var (line : UInt32) (name : String)
  | field (line : UInt32) (target : Expr) (name : String) (ty : Ty)
  | assignment (line : UInt32) (target value : Expr)
  | binary (line : UInt32) (op : BinaryOp) (left right : Expr)
  | unary (line : UInt32) (op : UnaryOp) (argument : Expr)
  | update (line : UInt32) (op : UpdateOp) (argument : Expr)
  | call (line : UInt32) (callee : String) (arguments : List Expr) (returns : Ty)
  | new (line : UInt32) (className : String)
deriving Inhabited

namespace Expr

/-- The line of an expression. -/
def line : Expr → UInt32
  | literal line _ | var line _ | field line .. | assignment line .. | binary line ..
  | unary line .. | update line .. | call line .. | new line _ => line

/-- The expression moved to another line. -/
def onLine (line : UInt32) : Expr → Expr
  | literal _ value => literal line value
  | var _ name => var line name
  | field _ target name ty => field line target name ty
  | assignment _ target value => assignment line target value
  | binary _ op left right => binary line op left right
  | unary _ op argument => unary line op argument
  | update _ op argument => update line op argument
  | call _ callee arguments returns => call line callee arguments returns
  | new _ className => new line className

/-- Whether the expression denotes a place that can be stored into. -/
def isPlace : Expr → Bool
  | var .. | field .. => true
  | _ => false

end Expr

/-- A block of statements. -/
structure Block (σ : Type) where
  line : UInt32
  body : List σ

/-- A label of a switch group. -/
inductive CaseLabel where
  | case (value : Expr)
  | default
deriving Inhabited

/-- Labels and the statements they lead to, which go on into the next group. -/
structure Group (σ : Type) where
  labels : List CaseLabel
  body : List σ

/-- A catch clause. -/
structure CatchClause (σ : Type) where
  line : UInt32
  exceptionType : String
  param : String
  body : Block σ

/-- A statement. -/
inductive Stmt where
  | block (block : Block Stmt)
  | localDecl (line : UInt32) (name : String) (ty : Ty) (init : Option Expr)
  | expression (line : UInt32) (expression : Expr)
  | ifElse (line : UInt32) (condition : Expr) (consequent : Stmt) (alternate : Option Stmt)
  | whileLoop (line : UInt32) (condition : Expr) (body : Stmt)
  | doLoop (line : UInt32) (body : Stmt) (condition : Expr)
  | forLoop (line : UInt32) (init : List Stmt) (condition : Option Expr) (update : List Stmt)
      (body : Stmt)
  | switch (line : UInt32) (selector : Expr) (groups : List (Group Stmt))
  | breakJump (line : UInt32)
  | continueJump (line : UInt32)
  | tryCatch (line : UInt32) (block : Block Stmt) (catches : List (CatchClause Stmt))
      (finalizer : Option (Block Stmt))
  | throw (line : UInt32) (argument : Expr)
  | empty
deriving Inhabited

namespace Stmt

/-- The line of a statement, 0 for the empty one. -/
def line : Stmt → UInt32
  | block b => b.line
  | localDecl line .. | expression line _ | ifElse line .. | whileLoop line .. | doLoop line ..
  | forLoop line .. | switch line .. | breakJump line | continueJump line | tryCatch line ..
  | throw line _ => line
  | empty => 0

/-- The statement moved to another line; the empty one has none. -/
def onLine (line : UInt32) : Stmt → Stmt
  | block b => block { b with line := line }
  | localDecl _ name ty init => localDecl line name ty init
  | expression _ e => expression line e
  | ifElse _ condition consequent alternate => ifElse line condition consequent alternate
  | whileLoop _ condition body => whileLoop line condition body
  | doLoop _ body condition => doLoop line body condition
  | forLoop _ init condition update body => forLoop line init condition update body
  | switch _ selector groups => switch line selector groups
  | breakJump _ => breakJump line
  | continueJump _ => continueJump line
  | tryCatch _ guarded catches finalizer => tryCatch line guarded catches finalizer
  | throw _ argument => throw line argument
  | empty => empty

end Stmt

/-- A method body. -/
structure Program where
  body : List Stmt
deriving Inhabited

end MethodCompiler.Source
