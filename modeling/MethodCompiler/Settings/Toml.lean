import MethodCompiler.Settings.Assign
import MethodCompiler.Toml.Reader

/-!
# Settings in TOML

Settings are a document in which every key may be missing and other keys are
skipped.
-/

namespace MethodCompiler

/-- Whether a value holds nothing. -/
def Toml.isEmpty : Toml → Bool
  | .array items => items.isEmpty
  | .table _ members => members.isEmpty
  | .tables items => items.isEmpty
  | _ => false

/-- The word for a policy, by itself or as the only key of a table, with nothing in
it. -/
def ContinuePolicy.ofToml? : Toml → Option ContinuePolicy
  | .string name => ContinuePolicy.ofName? name
  | .table _ [(name, payload)] => if payload.isEmpty then ContinuePolicy.ofName? name else none
  | _ => none

namespace Settings

/-- Gives a setting the value that stands under its key. -/
def assignToml? (s : Settings) (setting : Setting) (value : Toml) : Option Settings :=
  let number :=
    match value with
    | .integer n => if 0 ≤ n ∧ n ≤ setting.largest then some n.toNat else none
    | _ => none
  match setting with
  | .maxLocals => number.map fun n => { s with maxLocals := n }
  | .maxLabels => number.map fun n => { s with maxLabels := n }
  | .stepLimit => number.map fun n => { s with stepLimit := n }
  | .continueInSwitch =>
    (ContinuePolicy.ofToml? value).map fun policy => { s with continueInSwitch := policy }

/-- The settings of a document. -/
def ofToml? (members : Toml.Members) : Option Settings :=
  Setting.all.foldlM (fun (s : Settings) setting =>
    match members.lookup setting.key with
    | none => some s
    | some value => s.assignToml? setting value) {}

/-- Reads settings from the text of a document. -/
def parseToml (text : String) : Option Settings :=
  Toml.parse text >>= ofToml?

end Settings

end MethodCompiler
