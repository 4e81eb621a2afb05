/-!
# Operators

The operators of expressions, with the name a tree gives them, the symbol that
messages show, and the facts that checking and code generation need.
-/

namespace MethodCompiler

/-- Operators on two operands. -/
inductive BinaryOp where
  | add | subtract | multiply | divide | modulo
  | equal | notEqual | lessThan | lessThanEqual | greaterThan | greaterThanEqual
  | logicalAnd | logicalOr
deriving DecidableEq, Repr, Inhabited

namespace BinaryOp

/-- Every binary operator. -/
def all : List BinaryOp :=
  [add, subtract, multiply, divide, modulo, equal, notEqual, lessThan, lessThanEqual,
    greaterThan, greaterThanEqual, logicalAnd, logicalOr]

/-- The name in a tree. -/
def name : BinaryOp → String
  | add => "Add"
  | subtract => "Subtract"
  | multiply => "Multiply"
  | divide => "Divide"
  | modulo => "Modulo"
  | equal => "Equal"
  | notEqual => "NotEqual"
  | lessThan => "LessThan"
  | lessThanEqual => "LessThanEqual"
  | greaterThan => "GreaterThan"
  | greaterThanEqual => "GreaterThanEqual"
  | logicalAnd => "LogicalAnd"
  | logicalOr => "LogicalOr"

/-- The operator as it is written between its operands. -/
def symbol : BinaryOp → String
  | add => "+"
  | subtract => "-"
  | multiply => "*"
  | divide => "/"
  | modulo => "%"
  | equal => "=="
  | notEqual => "!="
  | lessThan => "<"
  | lessThanEqual => "<="
  | greaterThan => ">"
  | greaterThanEqual => ">="
  | logicalAnd => "&&"
  | logicalOr => "||"

/-- Whether the result has the type of the operands. -/
def isArithmetic : BinaryOp → Bool
  | add | subtract | multiply | divide | modulo => true
  | _ => false

/-- Whether the operator compares by order. -/
def isRelational : BinaryOp → Bool
  | lessThan | lessThanEqual | greaterThan | greaterThanEqual => true
  | _ => false

/-- The operator of a name. -/
def ofName? (s : String) : Option BinaryOp :=
  all.find? fun op => op.name == s

end BinaryOp

/-- Operators on one operand. -/
inductive UnaryOp where
  | minus | plus | logicalNot | bitwiseNot
deriving DecidableEq, Repr, Inhabited

namespace UnaryOp

/-- Every unary operator. -/
def all : List UnaryOp :=
  [minus, plus, logicalNot, bitwiseNot]

/-- The name in a tree. -/
def name : UnaryOp → String
  | minus => "Minus"
  | plus => "Plus"
  | logicalNot => "LogicalNot"
  | bitwiseNot => "BitwiseNot"

/-- The operator of a name. -/
def ofName? (s : String) : Option UnaryOp :=
  all.find? fun op => op.name == s

end UnaryOp

/-- Operators that step a location up or down by one. -/
inductive UpdateOp where
  | preIncrement | preDecrement | postIncrement | postDecrement
deriving DecidableEq, Repr, Inhabited

namespace UpdateOp

/-- Every update operator. -/
def all : List UpdateOp :=
  [preIncrement, preDecrement, postIncrement, postDecrement]

/-- The name in a tree. -/
def name : UpdateOp → String
  | preIncrement => "PreIncrement"
  | preDecrement => "PreDecrement"
  | postIncrement => "PostIncrement"
  | postDecrement => "PostDecrement"

/-- The operator as messages show it. -/
def symbol : UpdateOp → String
  | preIncrement => "++ (pre)"
  | preDecrement => "-- (pre)"
  | postIncrement => "++ (post)"
  | postDecrement => "-- (post)"

/-- The step: one up or one down. -/
def delta : UpdateOp → Int32
  | preIncrement | postIncrement => 1
  | preDecrement | postDecrement => -1

/-- Whether the value of the expression is the one before the step. -/
def givesOldValue : UpdateOp → Bool
  | postIncrement | postDecrement => true
  | preIncrement | preDecrement => false

/-- The operator of a name. -/
def ofName? (s : String) : Option UpdateOp :=
  all.find? fun op => op.name == s

end UpdateOp

end MethodCompiler
