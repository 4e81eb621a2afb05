import MethodCompiler.Json.Basic
import MethodCompiler.Source.Basic

/-!
# The structural dump

The dump shows a tree for reading, not for reading back: every node is an object
whose only key is the node's kind and line, and whose value holds the parts. It
leaves out the types of fields and calls. Keys of the parts stand in alphabetical
order.
-/

namespace MethodCompiler.Source.Dump

/-- A node: its kind and line over its parts. -/
def node (kind : String) (line : UInt32) (parts : Json) : Json :=
  .object [(s!"{kind}:{line.toNat}", parts)]

/-- The dump of a constant. -/
def literal (line : UInt32) : Literal → Json
  | .int v => node "LiteralInt" line (.integer v.toInt)
  | .long v => node "LiteralLong" line (.integer v.toInt)
  | .double v => node "LiteralDouble" line (Json.ofDouble v)
  | .boolean v => node "LiteralBoolean" line (.bool v)
  | .null => node "LiteralNull" line .null

mutual

/-- The dump of an expression. -/
def expr : Expr → Json
  | .literal line value => literal line value
  | .var line name => node "Variable" line (.string name)
  | .field line target name _ =>
    node "FieldSelection" line (.object [("Name", .string name), ("Target", expr target)])
  | .assignment line target value =>
    node "Assignment" line (.object [("Left", expr target), ("Right", expr value)])
  | .binary line op left right =>
    node "BinaryExpression" line
      (.object [("Left", expr left), ("Operator", .string op.symbol), ("Right", expr right)])
  | .unary line op argument =>
    node "UnaryExpression" line
      (.object [("Operand", expr argument), ("Operator", .string op.name)])
  | .update line op argument => node op.name line (expr argument)
  | .call line callee arguments _ =>
    node "MethodCall" line
      (.object [("Arguments", .array (exprs arguments)), ("Name", .string callee)])
  | .new line className => node "NewObject" line (.string className)

def exprs : List Expr → List Json
  | [] => []
  | e :: rest => expr e :: exprs rest

end

/-- The dump of a label. -/
def label : CaseLabel → Json
  | .case value => .object [("Case", expr value)]
  | .default => .string "Default"

/-- The dump of a block whose statements are dumped already. -/
def block (line : UInt32) (body : List Json) : Json :=
  node "Block" line (.array body)

mutual

/-- The dump of a statement. -/
def stmt : Stmt → Json
  | .block ⟨line, body⟩ => block line (stmts body)
  | .localDecl line name ty init =>
    node "LocalVariableDeclaration" line
      (.object [("Initializer", Json.ofOption expr init), ("Name", .string name),
        ("Type", .string ty.text)])
  | .expression line e => node "StatementExpression" line (expr e)
  | .ifElse line condition consequent alternate =>
    node "IfStatement" line
      (.object [("Condition", expr condition),
        ("Else", match alternate with
          | none => .null
          | some s => stmt s),
        ("Then", stmt consequent)])
  | .whileLoop line condition body =>
    node "WhileStatement" line (.object [("Body", stmt body), ("Condition", expr condition)])
  | .doLoop line body condition =>
    node "DoStatement" line (.object [("Body", stmt body), ("Condition", expr condition)])
  | .forLoop line init condition update body =>
    node "ForStatement" line
      (.object [("Body", stmt body), ("Condition", Json.ofOption expr condition),
        ("Init", .array (stmts init)), ("Update", .array (stmts update))])
  | .switch line selector groups =>
    node "SwitchStatement" line
      (.object [("Groups", .array (dumpGroups groups)), ("Selector", expr selector)])
  | .breakJump line => node "BreakStatement" line .null
  | .continueJump line => node "ContinueStatement" line .null
  | .tryCatch line ⟨blockLine, body⟩ catches finalizer =>
    node "TryStatement" line
      (.object [("CatchBlocks", .array (dumpCatches catches)),
        ("FinallyBlock", match finalizer with
          | none => .null
          | some ⟨line, body⟩ => block line (stmts body)),
        ("TryBlock", block blockLine (stmts body))])
  | .throw line argument => node "ThrowStatement" line (expr argument)
  | .empty => node "EmptyStatement" 0 .null

def stmts : List Stmt → List Json
  | [] => []
  | s :: rest => stmt s :: stmts rest

def dumpGroups : List (Group Stmt) → List Json
  | [] => []
  | ⟨labels, body⟩ :: rest =>
    .object [("SwitchStatementGroup",
      .object [("Labels", .array (labels.map label)), ("Statements", .array (stmts body))])] ::
      dumpGroups rest

def dumpCatches : List (CatchClause Stmt) → List Json
  | [] => []
  | ⟨line, exceptionType, param, ⟨blockLine, body⟩⟩ :: rest =>
    node "CatchClause" line
      (.object [("Body", block blockLine (stmts body)), ("Parameter", .string param),
        ("Type", .string exceptionType)]) :: dumpCatches rest

end

/-- The dump of a method body. -/
def program (p : Program) : Json :=
  .object [("MethodBody", .array (stmts p.body))]

end MethodCompiler.Source.Dump
