import MethodCompiler.CommandLine.Report
import MethodCompiler.Settings.Toml

/-!
# Running the command line

The settings come from the file that is asked for, or else from the first of two
usual files that is there, and are then changed by variables. They are read before
the method body. How a file is read is left open: the same program runs on the
disk and on a table of files.
-/

namespace MethodCompiler.CommandLine

/-- What the program sees of the world around it. -/
structure World (m : Type → Type) where
  /-- the text of a file, if there is such a file -/
  contents : String → m (Option String)
  /-- the variables in the order in which they apply -/
  environment : List (String × String)

namespace World

/-- The value of a variable, unless it is empty. -/
def valueOf? (w : World m) (name : String) : Option String :=
  (w.environment.lookup name).filter fun value => !value.isEmpty

/-- The directory of a user's settings. A directory that is given for them has to
be absolute. -/
def configDirectory? (w : World m) : Option String :=
  let given := (w.valueOf? "XDG_CONFIG_HOME").filter (·.startsWith "/")
  given <|> (w.valueOf? "HOME").map fun home => s!"{home}/.config"

/-- The files in which settings are looked for. -/
def usualFiles (w : World m) : List String :=
  "tern.toml" :: (w.configDirectory?.map fun dir => s!"{dir}/tern/config.toml").toList

/-- The text of the first file that is there. -/
def readFirst [Monad m] (w : World m) : List String → m (Option String)
  | [] => pure none
  | path :: rest => do
    match ← w.contents path with
    | some text => return some text
    | none => w.readFirst rest

end World

/-- The settings of a text, or the standard ones without a text, changed by
variables. -/
def settingsFrom (environment : List (String × String)) (text : Option String) :
    Except Failure Settings := do
  let s ←
    match text with
    | none => pure {}
    | some text =>
      match Settings.parseToml text with
      | some s => pure s
      | none => throw .badSettingsFile
  match s.applyVariables environment with
  | (.ok (), s) => return s
  | (.error e, _) => throw (.setting e)

/-- The output of an action on the text of a file. -/
def performText (settings : Settings) (i : Invocation) (text : Option String) :
    Except Failure String := do
  let some text := text | throw .fileMissing
  let some p := Source.Program.parse text | throw .badMethodBody
  perform settings i.action i.json p

/-- Loads the settings of an invocation. -/
def loadSettings [Monad m] (w : World m) (i : Invocation) : m (Except Failure Settings) := do
  match i.config with
  | some path =>
    match ← w.contents path with
    | none => return .error .fileMissing
    | some text => return settingsFrom w.environment (some text)
  | none => return settingsFrom w.environment (← w.readFirst w.usualFiles)

/-- Answers an invocation. -/
def answer [Monad m] (w : World m) (i : Invocation) : m Report := do
  match ← loadSettings w i with
  | .error failure => return failure.report
  | .ok settings =>
    match performText settings i (← w.contents i.input) with
    | .error failure => return failure.report
    | .ok output => return { output }

/-- Answers the arguments of the command line. -/
def run [Monad m] (w : World m) (args : List String) : m Report :=
  match parse? args with
  | none => pure usageReport
  | some (.version action) => pure (versionReport action)
  | some (.invocation i) => answer w i

end MethodCompiler.CommandLine
