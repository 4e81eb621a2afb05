import MethodCompiler.Code.Basic
import MethodCompiler.Decimal.Layout
import MethodCompiler.Text.Quoted

/-!
# Listings

The listing of code has a line for each instruction, with the names of the labels
at its position on lines before it, in the order of their numbers. Labels at or
past the end follow the last instruction, and the exception table closes the
listing.
-/

namespace MethodCompiler

/-- Texts between brackets. -/
def bracketList (items : List String) : String :=
  "[" ++ ", ".intercalate items ++ "]"

namespace Operand

/-- A number with its sign. -/
def signed (v : Int32) : String :=
  if v < 0 then toString v.toInt else s!"+{v.toInt}"

/-- An operand in a listing. -/
def text : Operand → String
  | int v => toString v.toInt
  | long v => s!"{v.toInt}L"
  | double v => Layout.value.text v
  | slot n => s!"${n}"
  | increment n delta => s!"${n} {signed delta}"
  | label l => labelText l
  | name n => n
  | call n argc _ => s!"{n}/{argc}"
  | table t =>
    let targets := bracketList (t.targets.toList.map labelText)
    s!"{t.low.toInt}..{t.high.toInt} {targets} default {labelText t.default}"
  | lookup l =>
    let pairs := bracketList (l.pairs.toList.map fun p => s!"{p.1.toInt}: {labelText p.2}")
    s!"{l.pairs.size} {pairs} default {labelText l.default}"

/-- A label spelled out. -/
def inspectLabel (l : Label) : String :=
  s!"Label({l})"

/-- An operand spelled out with all its fields. -/
def inspect : Operand → String
  | int v => s!"Int({v.toInt})"
  | long v => s!"Long({v.toInt})"
  | double v => s!"Double({Layout.value.text v})"
  | slot n => s!"Local({n})"
  | increment n delta => s!"Increment \x7b local: {n}, delta: {delta.toInt} \x7d"
  | label l => s!"Label({inspectLabel l})"
  | name n => s!"Name({Text.quoted n})"
  | call n argc returns =>
    s!"Call \x7b name: {Text.quoted n}, argc: {argc}, returns: {returns} \x7d"
  | table t =>
    let targets := bracketList (t.targets.toList.map inspectLabel)
    s!"TableSwitch(TableSwitch \x7b default: {inspectLabel t.default}, low: {t.low.toInt}, " ++
      s!"high: {t.high.toInt}, targets: {targets} \x7d)"
  | lookup l =>
    let pairs := bracketList
      (l.pairs.toList.map fun p => s!"({p.1.toInt}, {inspectLabel p.2})")
    s!"LookupSwitch(LookupSwitch \x7b default: {inspectLabel l.default}, pairs: {pairs} \x7d)"

end Operand

/-- What an instruction comes with, spelled out. -/
def inspectOperand : Option Operand → String
  | none => "None"
  | some operand => s!"Some({operand.inspect})"

/-- An instruction in a listing. -/
def Instruction.text (i : Instruction) : String :=
  match i.operand with
  | some operand => s!"{i.opcode.name} {operand.text}"
  | none => i.opcode.name

/-- Whatever a row catches. -/
def catchText (catchType : Option String) : String :=
  catchType.getD "any"

namespace Listing

/-- A number set flush right in five columns. -/
def column (n : Nat) : String :=
  let digits := toString n
  String.ofList (List.replicate (5 - digits.length) ' ') ++ digits

/-- The line of a label. -/
def labelLine (l : Label) : String :=
  labelText l ++ ":"

/-- The line of the instruction at a position. -/
def instructionLine (pc : Nat) (i : Instruction) : String :=
  s!"{column pc}  {i.text}"

/-- The line of a row of the exception table. -/
def handlerLine (h : Handler) : String :=
  s!"  [{h.start}, {h.stop}) -> {h.handler} {catchText h.catchType}"

/-- The labels that have a position, with it, in ascending order of position and
then of number. -/
def placed (labels : Array (Option Nat)) : List (Nat × Label) :=
  (labels.toList.zipIdx.filterMap fun (position, l) => position.map fun pc => (pc, l)).mergeSort
    fun a b => a.1 < b.1 || (a.1 == b.1 && a.2 ≤ b.2)

/-- The lines of instructions from position `pc` on, with those of the pending
labels between them. -/
def body (pc : Nat) (pending : List (Nat × Label)) : List Instruction → List String
  | [] => pending.map fun p => labelLine p.2
  | i :: rest =>
    let here := pending.takeWhile fun p => p.1 == pc
    let later := pending.dropWhile fun p => p.1 == pc
    here.map (fun p => labelLine p.2) ++ instructionLine pc i :: body (pc + 1) later rest

/-- The lines of the exception table. -/
def table (handlers : List Handler) : List String :=
  if handlers.isEmpty then [] else "exception table:" :: handlers.map handlerLine

end Listing

/-- The lines of the listing of code. -/
def Code.listing (code : Code) : List String :=
  s!"max_locals {code.maxLocals}" ::
    Listing.body 0 (Listing.placed code.labels) code.instructions.toList ++
    Listing.table code.handlers

/-- The listing as it is printed: each line ends with a line break. -/
def Code.text (code : Code) : String :=
  String.join (code.listing.map (· ++ "\n"))

end MethodCompiler
