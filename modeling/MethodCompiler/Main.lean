import MethodCompiler.CommandLine.Run

/-!
# The program

The command line on the files and variables of the process.
-/

namespace MethodCompiler.CommandLine

/-- The text of a file on the disk. -/
def readDisk (path : String) : IO (Option String) := do
  try
    return some (← IO.FS.readFile path)
  catch _ =>
    return none

/-- A variable as the process has it: a name, an equals sign, a value. -/
def variableOf? (entry : String) : Option (String × String) :=
  match entry.splitOn "=" with
  | name :: value@(_ :: _) => some (name, String.intercalate "=" value)
  | _ => none

/-- The variables of the process. -/
def processVariables : IO (List (String × String)) := do
  let entries := (← readDisk "/proc/self/environ").getD ""
  return (entries.splitOn "\x00").filterMap variableOf?

end MethodCompiler.CommandLine

/-- Answers the arguments on the streams of the process. -/
def main (args : List String) : IO UInt32 := do
  let world : MethodCompiler.CommandLine.World IO :=
    { contents := MethodCompiler.CommandLine.readDisk
      environment := ← MethodCompiler.CommandLine.processVariables }
  let report ← MethodCompiler.CommandLine.run world args
  IO.print report.output
  IO.eprint report.errors
  return report.exitCode.toUInt32
