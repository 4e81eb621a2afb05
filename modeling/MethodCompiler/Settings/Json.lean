import MethodCompiler.Json.Record
import MethodCompiler.Settings.Assign

/-!
# Settings in JSON

Settings are a record in which every field may be missing, and so may the last
ones of an array.
-/

namespace MethodCompiler

/-- The word for a policy as a value. -/
def ContinuePolicy.ofJson? (j : Json) : Option ContinuePolicy :=
  Json.formName? 1 j >>= ContinuePolicy.ofName?

namespace Settings

/-- The fields in order, `none` where one is missing. -/
def fields? : Json → Option (List (Option Json))
  | .array items =>
    let missing := Setting.all.length - items.length
    if items.length ≤ Setting.all.length then some (items.map some ++ List.replicate missing none)
    else none
  | j => j.fields? (Setting.all.map Setting.key)

/-- A field that keeps its default if it is missing. -/
def orDefault (default : α) (read : Json → Option α) : Option Json → Option α
  | none => some default
  | some value => read value

/-- A number that a setting can have. -/
def number? (setting : Setting) (j : Json) : Option Nat :=
  (Json.integerIn? 0 setting.largest j).map Int.toNat

/-- Reads settings. -/
def ofJson? (j : Json) : Option Settings := do
  let [maxLocals, maxLabels, policy, stepLimit] ← fields? j | none
  let standard : Settings := {}
  return {
    maxLocals := ← orDefault standard.maxLocals (number? .maxLocals) maxLocals
    maxLabels := ← orDefault standard.maxLabels (number? .maxLabels) maxLabels
    continueInSwitch := ← orDefault standard.continueInSwitch ContinuePolicy.ofJson? policy
    stepLimit := ← orDefault standard.stepLimit (number? .stepLimit) stepLimit }

/-- Writes settings. -/
def toJson (s : Settings) : Json :=
  .object [
    (Setting.maxLocals.key, .natural s.maxLocals),
    (Setting.maxLabels.key, .natural s.maxLabels),
    (Setting.continueInSwitch.key, .string s.continueInSwitch.name),
    (Setting.stepLimit.key, .natural s.stepLimit)]

end Settings

end MethodCompiler
