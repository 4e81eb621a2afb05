import MethodCompiler.Decimal.Reader
import MethodCompiler.Settings.Basic

/-!
# Changing settings

Each setting has a key, under which it can be given as text: by itself, or as a
variable whose name is the key in capitals after a fixed start.
-/

namespace MethodCompiler

/-- One of the settings. -/
inductive Setting where
  | maxLocals
  | maxLabels
  | continueInSwitch
  | stepLimit
deriving DecidableEq, Repr

namespace Setting

/-- Every setting. -/
def all : List Setting :=
  [maxLocals, maxLabels, continueInSwitch, stepLimit]

/-- The key of a setting. -/
def key : Setting → String
  | maxLocals => "max_locals"
  | maxLabels => "max_labels"
  | continueInSwitch => "continue_in_switch"
  | stepLimit => "vm_step_limit"

/-- The setting of a key. -/
def ofKey? (key : String) : Option Setting :=
  all.find? fun s => s.key == key

/-- The largest value of a setting that is a number. -/
def largest : Setting → Nat
  | maxLocals => 65535
  | maxLabels => 4294967295
  | continueInSwitch => 0
  | stepLimit => 18446744073709551615

end Setting

/-- Why a setting was not changed. -/
inductive SettingError where
  | unknownKey (key : String)
  | invalidValue (key value : String)
deriving DecidableEq, Repr

/-- The message of an error. -/
def SettingError.message : SettingError → String
  | unknownKey key => s!"configuration error: unknown config key: {key}"
  | invalidValue key value => s!"configuration error: invalid value for {key}: {value}"

namespace Settings

/-- Gives a setting the value that a text denotes. -/
def assign? (s : Settings) (setting : Setting) (value : String) : Option Settings :=
  let number := Numeral.natural? setting.largest value.toList
  match setting with
  | .maxLocals => number.map fun n => { s with maxLocals := n }
  | .maxLabels => number.map fun n => { s with maxLabels := n }
  | .stepLimit => number.map fun n => { s with stepLimit := n }
  | .continueInSwitch =>
    (ContinuePolicy.ofName? value).map fun policy => { s with continueInSwitch := policy }

/-- Gives the setting of a key the value that a text denotes. -/
def set (s : Settings) (key value : String) : Except SettingError Settings :=
  match Setting.ofKey? key with
  | none => .error (.unknownKey key)
  | some setting =>
    match s.assign? setting value with
    | none => .error (.invalidValue key value)
    | some s => .ok s

/-- The setting that a variable is meant for. Only the ASCII capitals of its name
matter, since all keys are ASCII. -/
def settingOf? (variableName : String) : Option Setting := do
  let rest ← variableName.dropPrefix? "TERN_"
  Setting.ofKey? (rest.toString.map Char.toLower)

/-- Changes the settings by variables in order, up to the first that has a value
which denotes nothing. Variables that are meant for no setting are skipped. -/
def applyVariables (s : Settings) : List (String × String) → Except SettingError Unit × Settings
  | [] => (.ok (), s)
  | (name, value) :: rest =>
    match settingOf? name with
    | none => applyVariables s rest
    | some setting =>
      match s.assign? setting value with
      | none => (.error (.invalidValue setting.key value), s)
      | some s => applyVariables s rest

end Settings

end MethodCompiler
