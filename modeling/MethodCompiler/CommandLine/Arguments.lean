/-!
# Arguments of the command line

Options may stand before or after the name of the action; given on both sides, the
inner one counts. On one side no option may be given twice. Everything that does
not fit is refused alike.
-/

namespace MethodCompiler.CommandLine

/-- What can be done with a method body. -/
inductive Action where
  | check
  | compile
  | dump
  | run
deriving DecidableEq, Repr

/-- The name of an action. -/
def Action.name : Action → String
  | check => "check"
  | compile => "compile"
  | dump => "dump"
  | run => "run"

/-- The action of a name. -/
def Action.ofName? (name : String) : Option Action :=
  [check, compile, dump, run].find? fun action => action.name == name

/-- A complete request. -/
structure Invocation where
  action : Action
  /-- the file with the method body -/
  input : String
  /-- the file with the settings -/
  config : Option String := none
  /-- whether code is wanted as JSON -/
  json : Bool := false
deriving DecidableEq, Repr

/-- What the arguments ask for. -/
inductive Request where
  | invocation (i : Invocation)
  /-- the version, under the name of the program or of an action -/
  | version (action : Option Action)
deriving DecidableEq, Repr

/-- What one side of the action's name has given so far. -/
structure Given where
  verbose : Bool := false
  config : Option String := none
  json : Bool := false
  input : Option String := none

namespace Given

/-- The option for more output, which changes nothing that is answered. -/
def withVerbose? (g : Given) : Option Given :=
  if g.verbose then none else some { g with verbose := true }

/-- The file with the settings. No file has an empty name. -/
def withConfig? (g : Given) (path : String) : Option Given :=
  if g.config.isSome ∨ path.isEmpty then none else some { g with config := some path }

/-- The option for JSON, which only compiling has. -/
def withJson? (g : Given) (action : Option Action) : Option Given :=
  if g.json ∨ action ≠ some .compile then none else some { g with json := true }

/-- The file with the method body, which only an action has. -/
def withInput? (g : Given) (action : Option Action) (path : String) : Option Given :=
  if action.isNone ∨ g.input.isSome ∨ path.isEmpty then none
  else some { g with input := some path }

end Given

/-- How a word of options ends. -/
inductive Ending where
  | done
  /-- the next word is the file with the settings -/
  | needsConfig
  | version

/-- The one-letter options of a word. Behind the letter for the settings the rest
of the word is the file's name, with or without an equals sign. -/
def letters? : List Char → Given → Option (Given × Ending)
  | [], g => some (g, .done)
  | ['c'], g => some (g, .needsConfig)
  | 'c' :: '=' :: path, g => (g.withConfig? (String.ofList path)).map (·, .done)
  | 'c' :: path, g => (g.withConfig? (String.ofList path)).map (·, .done)
  | 'V' :: _, g => some (g, .version)
  | 'v' :: rest, g => g.withVerbose? >>= letters? rest
  | _, _ => none

/-- The option that a whole word spells out, without its two dashes. -/
def longOption? (action : Option Action) (word : List Char) (g : Given) :
    Option (Given × Ending) :=
  match String.ofList word with
  | "verbose" => g.withVerbose?.map (·, .done)
  | "json" => (g.withJson? action).map (·, .done)
  | "version" => some (g, .version)
  | "config" => some (g, .needsConfig)
  | _ =>
    if "config=".toList.isPrefixOf word then
      (g.withConfig? (String.ofList (word.drop 7))).map (·, .done)
    else none

/-- A word is options, or something else: a lone dash is no option. -/
def options? (action : Option Action) (word : String) : Option (Given → Option (Given × Ending)) :=
  match word.toList with
  | '-' :: '-' :: rest => some (longOption? action rest)
  | ['-'] => none
  | '-' :: rest => some (letters? rest)
  | _ => none

/-- The words behind a double dash, none of which is an option. -/
def operands? (action : Option Action) (g : Given) : List String → Option Given
  | [] => some g
  | word :: rest => g.withInput? action word >>= fun g => operands? action g rest

/-- What the words behind an action's name give. -/
inductive Side where
  | given (g : Given)
  | version

/-- Reads the words behind the name of an action. -/
def inner? (action : Action) (g : Given) : List String → Option Side
  | [] => some (.given g)
  | "--" :: rest => (operands? (some action) g rest).map .given
  | word :: rest =>
    match options? (some action) word with
    | none => g.withInput? (some action) word >>= fun g => inner? action g rest
    | some apply =>
      match apply g with
      | none => none
      | some (_, .version) => some .version
      | some (g, .done) => inner? action g rest
      | some (g, .needsConfig) =>
        match rest with
        | [] => none
        | path :: rest =>
          if (options? (some action) path).isSome then none
          else g.withConfig? path >>= fun g => inner? action g rest

/-- Reads the words from the name of an action on, behind those given before. -/
def action? (outer : Given) (word : String) (rest : List String) : Option Request := do
  let action ← Action.ofName? word
  match ← inner? action {} rest with
  | .version => return .version (some action)
  | .given g =>
    return .invocation ⟨action, ← g.input, g.config <|> outer.config, g.json⟩

/-- Reads the words before the name of an action, and then that. -/
def outer? (g : Given) : List String → Option Request
  | [] => none
  | "--" :: _ => none
  | word :: rest =>
    match options? none word with
    | none => action? g word rest
    | some apply =>
      match apply g with
      | none => none
      | some (_, .version) => some (.version none)
      | some (g, .done) => outer? g rest
      | some (g, .needsConfig) =>
        match rest with
        | [] => none
        | path :: rest =>
          if (options? none path).isSome then none
          else g.withConfig? path >>= fun g => outer? g rest

/-- Reads the arguments of the command line. -/
def parse? (args : List String) : Option Request :=
  outer? {} args

end MethodCompiler.CommandLine
