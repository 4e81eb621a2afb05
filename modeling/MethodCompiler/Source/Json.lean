import MethodCompiler.Json.Record
import MethodCompiler.Json.Reader
import MethodCompiler.Source.Basic

/-!
# Trees in JSON

A tree is written with every field present, and read back from any of the
spellings that records and choices allow.

Readers are bounded by the number of brackets that may still be opened. Every
step into a part of a tree opens one, so the bound is also what the recursion
goes down on. Skipped members do not count: their brackets are never opened by a
reader.
-/

namespace MethodCompiler

/-- A choice that holds something. -/
def Json.form (name : String) (payload : Json) : Json :=
  .object [(name, payload)]

/-- The name of a type in a tree. -/
def Ty.toJson : Ty → Json
  | .int => .string "Int"
  | .long => .string "Long"
  | .double => .string "Double"
  | .boolean => .string "Boolean"
  | .void => .string "Void"
  | .null => .string "Null"
  | .reference name => Json.form "Reference" (.string name)
  | .any => .string "Any"

/-- The type of a name that needs nothing else. -/
def Ty.ofName? : String → Option Ty
  | "Int" => some .int
  | "Long" => some .long
  | "Double" => some .double
  | "Boolean" => some .boolean
  | "Void" => some .void
  | "Null" => some .null
  | "Any" => some .any
  | _ => none

/-- Reads a type, opening at most `nesting` brackets. -/
def Ty.ofJson? (nesting : Nat) : Json → Option Ty
  | .object [("Reference", .string name)] => if nesting = 0 then none else some (.reference name)
  | j => Json.formName? nesting j >>= Ty.ofName?

namespace Source

def Literal.toJson : Literal → Json
  | .int v => Json.form "Int" (.integer v.toInt)
  | .long v => Json.form "Long" (.integer v.toInt)
  | .double v => Json.form "Double" (Json.ofDouble v)
  | .boolean v => Json.form "Boolean" (.bool v)
  | .null => .string "Null"

/-- A line number. -/
def lineJson (line : UInt32) : Json :=
  .natural line.toNat

mutual

/-- An expression: its line and its form. -/
def Expr.toJson : Expr → Json
  | .literal line value => located line "Literal" value.toJson
  | .var line name => located line "Variable" (.string name)
  | .field line target name ty =>
    located line "Field"
      (.object [("target", target.toJson), ("name", .string name), ("ty", ty.toJson)])
  | .assignment line target value =>
    located line "Assignment" (.object [("target", target.toJson), ("value", value.toJson)])
  | .binary line op left right =>
    located line "Binary"
      (.object [("operator", .string op.name), ("left", left.toJson), ("right", right.toJson)])
  | .unary line op argument =>
    located line "Unary" (.object [("operator", .string op.name), ("argument", argument.toJson)])
  | .update line op argument =>
    located line "Update" (.object [("operator", .string op.name), ("argument", argument.toJson)])
  | .call line callee arguments returns =>
    located line "Call"
      (.object [("callee", .string callee), ("arguments", .array (exprsToJson arguments)),
        ("returns", returns.toJson)])
  | .new line className => located line "New" (.object [("class", .string className)])
where
  /-- A form of expression on a line. -/
  located (line : UInt32) (form : String) (payload : Json) : Json :=
    .object [("line", lineJson line), ("kind", Json.form form payload)]

def exprsToJson : List Expr → List Json
  | [] => []
  | e :: rest => e.toJson :: exprsToJson rest

end

def CaseLabel.toJson : CaseLabel → Json
  | .case value => Json.form "Case" value.toJson
  | .default => .string "Default"

/-- A block of statements that are already written. -/
def blockJson (line : UInt32) (body : List Json) : Json :=
  .object [("line", lineJson line), ("body", .array body)]

mutual

/-- A statement. -/
def Stmt.toJson : Stmt → Json
  | .block ⟨line, body⟩ => Json.form "Block" (blockJson line (stmtsToJson body))
  | .localDecl line name ty init =>
    Json.form "LocalDecl"
      (.object [("line", lineJson line), ("name", .string name), ("ty", ty.toJson),
        ("init", Json.ofOption Expr.toJson init)])
  | .expression line e =>
    Json.form "Expression" (.object [("line", lineJson line), ("expression", e.toJson)])
  | .ifElse line condition consequent alternate =>
    Json.form "If"
      (.object [("line", lineJson line), ("condition", condition.toJson),
        ("consequent", consequent.toJson),
        ("alternate", match alternate with
          | none => .null
          | some s => s.toJson)])
  | .whileLoop line condition body =>
    Json.form "While"
      (.object [("line", lineJson line), ("condition", condition.toJson), ("body", body.toJson)])
  | .doLoop line body condition =>
    Json.form "Do"
      (.object [("line", lineJson line), ("body", body.toJson), ("condition", condition.toJson)])
  | .forLoop line init condition update body =>
    Json.form "For"
      (.object [("line", lineJson line), ("init", .array (stmtsToJson init)),
        ("condition", Json.ofOption Expr.toJson condition),
        ("update", .array (stmtsToJson update)), ("body", body.toJson)])
  | .switch line selector groups =>
    Json.form "Switch"
      (.object [("line", lineJson line), ("selector", selector.toJson),
        ("groups", .array (groupsToJson groups))])
  | .breakJump line => Json.form "Break" (.object [("line", lineJson line)])
  | .continueJump line => Json.form "Continue" (.object [("line", lineJson line)])
  | .tryCatch line ⟨blockLine, body⟩ catches finalizer =>
    Json.form "Try"
      (.object [("line", lineJson line), ("block", blockJson blockLine (stmtsToJson body)),
        ("catches", .array (catchesToJson catches)),
        ("finalizer", match finalizer with
          | none => .null
          | some ⟨line, body⟩ => blockJson line (stmtsToJson body))])
  | .throw line argument =>
    Json.form "Throw" (.object [("line", lineJson line), ("argument", argument.toJson)])
  | .empty => .string "Empty"

def stmtsToJson : List Stmt → List Json
  | [] => []
  | s :: rest => s.toJson :: stmtsToJson rest

def groupsToJson : List (Group Stmt) → List Json
  | [] => []
  | ⟨labels, body⟩ :: rest =>
    .object [("labels", .array (labels.map CaseLabel.toJson)),
      ("body", .array (stmtsToJson body))] :: groupsToJson rest

def catchesToJson : List (CatchClause Stmt) → List Json
  | [] => []
  | ⟨line, exceptionType, param, ⟨blockLine, body⟩⟩ :: rest =>
    .object [("line", lineJson line), ("exception_type", .string exceptionType),
      ("param", .string param), ("body", blockJson blockLine (stmtsToJson body))] ::
      catchesToJson rest

end

/-- A method body. -/
def Program.toJson (p : Program) : Json :=
  .object [("body", .array (stmtsToJson p.body))]

def Literal.ofJson? (nesting : Nat) : Json → Option Literal
  | .object [(form, payload)] =>
    if nesting = 0 then none
    else match form with
      | "Int" => (Json.int32? payload).map .int
      | "Long" => (Json.int64? payload).map .long
      | "Double" => (Json.double? payload).map .double
      | "Boolean" => (Json.bool? payload).map .boolean
      | "Null" => match payload with
        | .null => some .null
        | _ => none
      | _ => none
  | .string "Null" => some .null
  | _ => none

/-- Reads an expression, opening at most the given number of brackets: one for
the expression, one for its form, and, unless the form holds a plain value, one
for what it holds. -/
def Expr.ofJson? : Nat → Json → Option Expr
  | n + 2, j => do
    let [some line, some kind] ← Json.fields? ["line", "kind"] j | none
    let line ← Json.uint32? line
    let .object [(form, payload)] := kind | none
    match form with
    | "Literal" => return .literal line (← Literal.ofJson? n payload)
    | "Variable" => return .var line (← Json.string? payload)
    | _ =>
      match n with
      | 0 => none
      | n + 1 =>
        match form with
        | "Field" => do
          let [some target, some name, some ty] ←
            Json.fields? ["target", "name", "ty"] payload | none
          return .field line (← Expr.ofJson? n target) (← Json.string? name)
            (← Ty.ofJson? n ty)
        | "Assignment" => do
          let [some target, some value] ← Json.fields? ["target", "value"] payload | none
          return .assignment line (← Expr.ofJson? n target) (← Expr.ofJson? n value)
        | "Binary" => do
          let [some op, some left, some right] ←
            Json.fields? ["operator", "left", "right"] payload | none
          return .binary line (← BinaryOp.ofName? (← Json.formName? n op))
            (← Expr.ofJson? n left) (← Expr.ofJson? n right)
        | "Unary" => do
          let [some op, some argument] ← Json.fields? ["operator", "argument"] payload | none
          return .unary line (← UnaryOp.ofName? (← Json.formName? n op))
            (← Expr.ofJson? n argument)
        | "Update" => do
          let [some op, some argument] ← Json.fields? ["operator", "argument"] payload | none
          return .update line (← UpdateOp.ofName? (← Json.formName? n op))
            (← Expr.ofJson? n argument)
        | "Call" => do
          let [some callee, some arguments, some returns] ←
            Json.fields? ["callee", "arguments", "returns"] payload | none
          let arguments ← match n, arguments with
            | n + 1, .array items => items.mapM (Expr.ofJson? n)
            | _, _ => none
          return .call line (← Json.string? callee) arguments (← Ty.ofJson? n returns)
        | "New" => do
          let [some className] ← Json.fields? ["class"] payload | none
          return .new line (← Json.string? className)
        | _ => none
  | _, _ => none

def CaseLabel.ofJson? (nesting : Nat) : Json → Option CaseLabel
  | .object [("Case", value)] =>
    match nesting with
    | 0 => none
    | n + 1 => (Expr.ofJson? n value).map .case
  | j => match Json.formName? nesting j with
    | some "Default" => some .default
    | _ => none

mutual

/-- Reads a statement, opening at most the given number of brackets: one for its
form and one for what the form holds. -/
def Stmt.ofJson? : Nat → Json → Option Stmt
  | _, .string form => if form = "Empty" then some .empty else none
  | 1, .object [("Empty", .null)] => some .empty
  | n + 2, .object [(form, payload)] =>
    match form with
    | "Block" => do
      let [some line, some body] ← Json.fields? ["line", "body"] payload | none
      return .block ⟨← Json.uint32? line, ← stmtsOfJson? n body⟩
    | "LocalDecl" => do
      let [some line, some name, some ty, init] ←
        Json.fields? ["line", "name", "ty", "init"] payload | none
      return .localDecl (← Json.uint32? line) (← Json.string? name) (← Ty.ofJson? n ty)
        (← Json.optional? (Expr.ofJson? n) init)
    | "Expression" => do
      let [some line, some e] ← Json.fields? ["line", "expression"] payload | none
      return .expression (← Json.uint32? line) (← Expr.ofJson? n e)
    | "If" => do
      let [some line, some condition, some consequent, alternate] ←
        Json.fields? ["line", "condition", "consequent", "alternate"] payload | none
      return .ifElse (← Json.uint32? line) (← Expr.ofJson? n condition)
        (← Stmt.ofJson? n consequent) (← Json.optional? (Stmt.ofJson? n) alternate)
    | "While" => do
      let [some line, some condition, some body] ←
        Json.fields? ["line", "condition", "body"] payload | none
      return .whileLoop (← Json.uint32? line) (← Expr.ofJson? n condition)
        (← Stmt.ofJson? n body)
    | "Do" => do
      let [some line, some body, some condition] ←
        Json.fields? ["line", "body", "condition"] payload | none
      return .doLoop (← Json.uint32? line) (← Stmt.ofJson? n body)
        (← Expr.ofJson? n condition)
    | "For" => do
      let [some line, some init, condition, some update, some body] ←
        Json.fields? ["line", "init", "condition", "update", "body"] payload | none
      return .forLoop (← Json.uint32? line) (← stmtsOfJson? n init)
        (← Json.optional? (Expr.ofJson? n) condition) (← stmtsOfJson? n update)
        (← Stmt.ofJson? n body)
    | "Switch" => do
      let [some line, some selector, some groups] ←
        Json.fields? ["line", "selector", "groups"] payload | none
      return .switch (← Json.uint32? line) (← Expr.ofJson? n selector)
        (← groupsOfJson? n groups)
    | "Break" => do
      let [some line] ← Json.fields? ["line"] payload | none
      return .breakJump (← Json.uint32? line)
    | "Continue" => do
      let [some line] ← Json.fields? ["line"] payload | none
      return .continueJump (← Json.uint32? line)
    | "Try" => do
      let [some line, some block, some catches, finalizer] ←
        Json.fields? ["line", "block", "catches", "finalizer"] payload | none
      return .tryCatch (← Json.uint32? line) (← blockOfJson? n block)
        (← catchesOfJson? n catches) (← Json.optional? (blockOfJson? n) finalizer)
    | "Throw" => do
      let [some line, some argument] ← Json.fields? ["line", "argument"] payload | none
      return .throw (← Json.uint32? line) (← Expr.ofJson? n argument)
    | "Empty" => match payload with
      | .null => some .empty
      | _ => none
    | _ => none
  | _, _ => none

def stmtsOfJson? : Nat → Json → Option (List Stmt)
  | n + 1, .array items => items.mapM (Stmt.ofJson? n)
  | _, _ => none

def blockOfJson? : Nat → Json → Option (Block Stmt)
  | n + 1, j => do
    let [some line, some body] ← Json.fields? ["line", "body"] j | none
    return ⟨← Json.uint32? line, ← stmtsOfJson? n body⟩
  | _, _ => none

def groupsOfJson? : Nat → Json → Option (List (Group Stmt))
  | n + 2, .array items => items.mapM fun item => do
    let [some labels, some body] ← Json.fields? ["labels", "body"] item | none
    let labels ← match n, labels with
      | n + 1, .array labels => labels.mapM (CaseLabel.ofJson? n)
      | _, _ => none
    return ⟨labels, ← stmtsOfJson? n body⟩
  | 1, .array [] => some []
  | _, _ => none

def catchesOfJson? : Nat → Json → Option (List (CatchClause Stmt))
  | n + 2, .array items => items.mapM fun item => do
    let [some line, some exceptionType, some param, some body] ←
      Json.fields? ["line", "exception_type", "param", "body"] item | none
    return ⟨← Json.uint32? line, ← Json.string? exceptionType, ← Json.string? param,
      ← blockOfJson? n body⟩
  | 1, .array [] => some []
  | _, _ => none

end

/-- Reads a method body, opening at most the given number of brackets. -/
def Program.ofJson? : Nat → Json → Option Program
  | n + 1, j => do
    let [some body] ← Json.fields? ["body"] j | none
    return ⟨← stmtsOfJson? n body⟩
  | _, _ => none

/-- How many brackets may be open at once while a method body is read. -/
def nestingLimit : Nat := 127

/-- Reads a method body from text. -/
def Program.parse (text : String) : Option Program :=
  Json.parse text >>= Program.ofJson? nestingLimit

end Source

end MethodCompiler
