import MethodCompiler.Source.Basic

/-!
# Building trees by hand

Short names for the forms of a tree, all on line 0; `onLine` moves a node
elsewhere. An expression statement takes the line of its expression.
-/

namespace MethodCompiler.Source.Build

def int (v : Int32) : Expr := .literal 0 (.int v)

def long (v : Int64) : Expr := .literal 0 (.long v)

def double (v : Float) : Expr := .literal 0 (.double v)

def boolean (v : Bool) : Expr := .literal 0 (.boolean v)

def null : Expr := .literal 0 .null

def var (name : String) : Expr := .var 0 name

def field (target : Expr) (name : String) (ty : Ty) : Expr := .field 0 target name ty

def assign (target value : Expr) : Expr := .assignment 0 target value

def binary (op : BinaryOp) (left right : Expr) : Expr := .binary 0 op left right

def unary (op : UnaryOp) (argument : Expr) : Expr := .unary 0 op argument

def update (op : UpdateOp) (argument : Expr) : Expr := .update 0 op argument

def call (callee : String) (arguments : List Expr) (returns : Ty) : Expr :=
  .call 0 callee arguments returns

def new (className : String) : Expr := .new 0 className

def expression (e : Expr) : Stmt := .expression e.line e

def localDecl (name : String) (ty : Ty) (init : Option Expr) : Stmt := .localDecl 0 name ty init

def block (body : List Stmt) : Stmt := .block ⟨0, body⟩

def ifElse (condition : Expr) (consequent : Stmt) (alternate : Option Stmt) : Stmt :=
  .ifElse 0 condition consequent alternate

def whileLoop (condition : Expr) (body : Stmt) : Stmt := .whileLoop 0 condition body

def doLoop (body : Stmt) (condition : Expr) : Stmt := .doLoop 0 body condition

def forLoop (init : List Stmt) (condition : Option Expr) (update : List Stmt) (body : Stmt) :
    Stmt :=
  .forLoop 0 init condition update body

def switch (selector : Expr) (groups : List (Group Stmt)) : Stmt := .switch 0 selector groups

/-- A group of case labels for these values. -/
def cases (values : List Int32) (body : List Stmt) : Group Stmt :=
  ⟨values.map fun v => .case (int v), body⟩

/-- The default group. -/
def defaultGroup (body : List Stmt) : Group Stmt := ⟨[.default], body⟩

def breakJump : Stmt := .breakJump 0

def continueJump : Stmt := .continueJump 0

def catchClause (exceptionType param : String) (body : List Stmt) : CatchClause Stmt :=
  ⟨0, exceptionType, param, ⟨0, body⟩⟩

def tryCatch (body : List Stmt) (catches : List (CatchClause Stmt))
    (finalizer : Option (List Stmt)) : Stmt :=
  .tryCatch 0 ⟨0, body⟩ catches (finalizer.map fun body => ⟨0, body⟩)

def throw (argument : Expr) : Stmt := .throw 0 argument

end MethodCompiler.Source.Build
