import MethodCompiler.CommandLine.Arguments
import MethodCompiler.Code.Json
import MethodCompiler.Compile
import MethodCompiler.Json.Writer
import MethodCompiler.Machine.Run
import MethodCompiler.Settings.Assign
import MethodCompiler.Source.Dump
import MethodCompiler.Source.Json

/-!
# What the command line answers

An action on a method body gives output or fails, and a failure is reported in
red. The texts here are all that a user sees.
-/

namespace MethodCompiler.CommandLine

/-! ## Colours -/

def red (s : String) : String := s!"\x1b[31m{s}\x1b[39m"

def green (s : String) : String := s!"\x1b[32m{s}\x1b[39m"

def cyan (s : String) : String := s!"\x1b[36m{s}\x1b[39m"

def bold (s : String) : String := s!"\x1b[1m{s}\x1b[0m"

def dimmed (s : String) : String := s!"\x1b[2m{s}\x1b[0m"

/-! ## Reports -/

/-- What a program leaves behind. -/
structure Report where
  exitCode : Nat := 0
  output : String := ""
  errors : String := ""
deriving DecidableEq, Repr

/-- Why an action failed. -/
inductive Failure where
  | fileMissing
  | badSettingsFile
  | badMethodBody
  | setting (error : SettingError)
  | compilation (error : CompileError)
  | run (why : Stop)

/-- The message of a failure. -/
def Failure.message : Failure → String
  | fileMissing => "IO error: No such file or directory (os error 2)"
  | badSettingsFile => "TOML error: the file holds no settings"
  | badMethodBody => "JSON error: the file holds no method body"
  | setting error => error.message
  | compilation error => error.message
  | run why => why.message

/-- A complaint about the method body. -/
def complaintLine (d : Diagnostic) : String :=
  let word := bold (red "error")
  let place := cyan s!"line {d.line}:"
  s!"{word}: {place} {d.problem.message}\n"

/-- The report of a failure: the complaints one by one, or a message. -/
def Failure.report : Failure → Report
  | compilation (.complaints ds) =>
    let count := red s!"{ds.length} error(s)"
    { exitCode := 1, errors := String.join (ds.map complaintLine) ++ count ++ "\n" }
  | failure =>
    let word := bold (red "Error")
    { exitCode := 1, errors := s!"{word}: {failure.message}\n" }

/-- The report of arguments that fit nothing. -/
def usageReport : Report where
  exitCode := 2
  errors := "usage: tern [-v] [-c FILE] check|compile [--json]|dump|run FILE\n"

/-- The report of the version. -/
def versionReport (action : Option Action) : Report :=
  let suffix := match action with
    | none => ""
    | some action => s!"-{action.name}"
  { output := s!"tern{suffix} 0.1.0\n" }

/-! ## Actions -/

/-- A call that was made. -/
def callLine (c : Call) : String :=
  let args := String.intercalate ", " (c.args.map Value.text)
  s!"{cyan c.name}({args})\n"

/-- The last value of a local. -/
def localLine (slot : Nat) (v : Value) : String :=
  let name := dimmed s!"local {slot}"
  s!"{name} = {v.text}\n"

/-- The calls and the locals after a run. -/
def runOutput (m : Machine σ) : String :=
  String.join (m.calls.toList.map callLine) ++
    String.join (m.locals.toList.mapIdx localLine)

/-- The output of an action on a method body. -/
def perform (settings : Settings) (action : Action) (json : Bool) (p : Source.Program) :
    Except Failure String := do
  match action with
  | .check =>
    let _ ← (check settings p).mapError .compilation
    return green "ok" ++ "\n"
  | .compile =>
    let code ← (compile settings p).mapError .compilation
    if json then return code.toJson.pretty ++ "\n"
    else return code.text
  | .dump => return (Source.Dump.program p).pretty ++ "\n"
  | .run =>
    let code ← (compile settings p).mapError .compilation
    let machine : Machine Script := { host := Script.empty }
    match machine.execute Script.host settings.stepLimit code with
    | (.halted, m) => return runOutput m
    | (.stopped why, _) => throw (.run why)

end MethodCompiler.CommandLine
