import MethodCompiler.Code.Basic
import MethodCompiler.Json.Basic

/-!
# Code in JSON
-/

namespace MethodCompiler

/-- An operand under the name of its form. -/
def Operand.toJson : Operand → Json
  | int v => .object [("Int", .integer v.toInt)]
  | long v => .object [("Long", .integer v.toInt)]
  | double v => .object [("Double", Json.ofDouble v)]
  | slot n => .object [("Local", .natural n)]
  | increment n delta =>
    .object [("Increment", .object [("local", .natural n), ("delta", .integer delta.toInt)])]
  | label l => .object [("Label", .natural l)]
  | name n => .object [("Name", .string n)]
  | call n argc returns =>
    .object [("Call",
      .object [("name", .string n), ("argc", .natural argc), ("returns", .bool returns)])]
  | table t =>
    .object [("TableSwitch",
      .object [("default", .natural t.default), ("low", .integer t.low.toInt),
        ("high", .integer t.high.toInt), ("targets", Json.ofList Json.natural t.targets.toList)])]
  | lookup l =>
    .object [("LookupSwitch",
      .object [("default", .natural l.default),
        ("pairs", Json.ofList (fun p => .array [.integer p.1.toInt, .natural p.2])
          l.pairs.toList)])]

/-- An instruction. -/
def Instruction.toJson (i : Instruction) : Json :=
  .object [("opcode", .string i.opcode.name), ("operand", Json.ofOption Operand.toJson i.operand)]

/-- A row of the exception table. -/
def Handler.toJson (h : Handler) : Json :=
  .object [("start", .natural h.start), ("end", .natural h.stop), ("handler", .natural h.handler),
    ("catch_type", Json.ofOption Json.string h.catchType)]

/-- The positions of labels. -/
def Code.labelsJson (code : Code) : Json :=
  Json.ofList (Json.ofOption Json.natural) code.labels.toList

/-- Code with everything in it. -/
def Code.toJson (code : Code) : Json :=
  .object [("instructions", Json.ofList Instruction.toJson code.instructions.toList),
    ("labels", code.labelsJson), ("handlers", Json.ofList Handler.toJson code.handlers),
    ("max_locals", .natural code.maxLocals)]

end MethodCompiler
