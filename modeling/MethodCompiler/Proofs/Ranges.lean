import MethodCompiler.Settings.Json
import MethodCompiler.Settings.Toml

/-!
# Limits that fit

The limits of settings are numbers of 16, 32 and 64 bits, and slots, labels and steps are kept
in as many. All of them are natural numbers here, so that nothing can overflow, and this is what
makes up for it: wherever settings come from, their limits fit.
-/

namespace MethodCompiler

namespace Settings

/-- The limits are no larger than they can be given. -/
structure InRange (s : Settings) : Prop where
  maxLocals : s.maxLocals ≤ Setting.maxLocals.largest
  maxLabels : s.maxLabels ≤ Setting.maxLabels.largest
  stepLimit : s.stepLimit ≤ Setting.stepLimit.largest

variable {s s' : Settings}

theorem inRange_default : InRange {} :=
  ⟨by decide, by decide, by decide⟩

theorem natural?_le {largest n : Nat} {cs : List Char}
    (h : Numeral.natural? largest cs = some n) : n ≤ largest := by
  simp only [Numeral.natural?, Option.ite_none_left_eq_some, Option.ite_none_right_eq_some,
    Option.some.injEq] at h
  obtain ⟨-, hle, rfl⟩ := h
  exact hle

/-- One setting is given a number that is no larger than it can be, or the policy is chosen. -/
theorem InRange.put (h : s.InRange) {setting : Setting} {number : Option Nat}
    {policy : Option ContinuePolicy} (hs : (match setting with
      | .maxLocals => number.map fun n => { s with maxLocals := n }
      | .maxLabels => number.map fun n => { s with maxLabels := n }
      | .stepLimit => number.map fun n => { s with stepLimit := n }
      | .continueInSwitch => policy.map fun policy => { s with continueInSwitch := policy }) =
        some s') (hnumber : ∀ n, number = some n → n ≤ setting.largest) : s'.InRange := by
  cases setting with
  | continueInSwitch =>
      obtain ⟨policy, -, rfl⟩ := Option.map_eq_some_iff.mp hs
      exact ⟨h.maxLocals, h.maxLabels, h.stepLimit⟩
  | maxLocals =>
      obtain ⟨n, hn, rfl⟩ := Option.map_eq_some_iff.mp hs
      exact ⟨hnumber n hn, h.maxLabels, h.stepLimit⟩
  | maxLabels =>
      obtain ⟨n, hn, rfl⟩ := Option.map_eq_some_iff.mp hs
      exact ⟨h.maxLocals, hnumber n hn, h.stepLimit⟩
  | stepLimit =>
      obtain ⟨n, hn, rfl⟩ := Option.map_eq_some_iff.mp hs
      exact ⟨h.maxLocals, h.maxLabels, hnumber n hn⟩

theorem InRange.assign? (h : s.InRange) {setting : Setting} {value : String}
    (hs : s.assign? setting value = some s') : s'.InRange :=
  h.put hs fun _ => natural?_le

theorem InRange.set (h : s.InRange) {key value : String} (hs : s.set key value = .ok s') :
    s'.InRange := by
  rw [Settings.set] at hs
  split at hs
  · cases hs
  · split at hs
    · cases hs
    · next hassign =>
        obtain rfl := Except.ok.inj hs
        exact h.assign? hassign

theorem InRange.applyVariables (h : s.InRange) (vars : List (String × String)) :
    (s.applyVariables vars).2.InRange := by
  induction vars generalizing s with
  | nil => exact h
  | cons v rest ih =>
      rw [Settings.applyVariables]
      split
      · exact ih h
      · split
        · exact h
        · next hassign => exact ih (h.assign? hassign)

theorem le_of_integer {value : Toml} {largest n : Nat} (h : (match value with
    | .integer n => if 0 ≤ n ∧ n ≤ largest then some n.toNat else none
    | _ => none) = some n) : n ≤ largest := by
  split at h
  · split at h
    · next hle =>
        obtain rfl := Option.some.inj h
        exact Int.toNat_le.mpr hle.2
    · cases h
  · cases h

theorem InRange.assignToml? (h : s.InRange) {setting : Setting} {value : Toml}
    (hs : s.assignToml? setting value = some s') : s'.InRange :=
  h.put hs fun _ => le_of_integer

theorem InRange.assignAll (h : s.InRange) {members : Toml.Members} {settings : List Setting}
    (hs : settings.foldlM (fun (s : Settings) setting =>
      match members.lookup setting.key with
      | none => some s
      | some value => s.assignToml? setting value) s = some s') : s'.InRange := by
  induction settings generalizing s with
  | nil => exact Option.some.inj hs ▸ h
  | cons setting rest ih =>
      rw [List.foldlM_cons, Option.bind_eq_bind, Option.bind_eq_some_iff] at hs
      obtain ⟨s₁, hs₁, hs⟩ := hs
      refine ih ?_ hs
      split at hs₁
      · exact Option.some.inj hs₁ ▸ h
      · exact h.assignToml? hs₁

theorem inRange_ofToml? {members : Toml.Members} (hs : ofToml? members = some s) : s.InRange :=
  inRange_default.assignAll hs

theorem inRange_parseToml {text : String} (hs : parseToml text = some s) : s.InRange := by
  rw [parseToml, Option.bind_eq_bind, Option.bind_eq_some_iff] at hs
  obtain ⟨members, -, hs⟩ := hs
  exact inRange_ofToml? hs

theorem inRange_ofJson? {j : Json} (hs : ofJson? j = some s) : s.InRange := by
  have hnumber : ∀ {setting : Setting} {standard n : Nat} {field : Option Json},
      standard ≤ setting.largest → orDefault standard (number? setting) field = some n →
        n ≤ setting.largest := by
    intro setting standard n field hstandard hn
    cases field with
    | none => exact Option.some.inj hn ▸ hstandard
    | some value =>
        obtain ⟨m, hm, rfl⟩ := Option.map_eq_some_iff.mp hn
        cases value with
        | integer k =>
            rw [Json.integerIn?] at hm
            split at hm
            · next hle =>
                obtain rfl := Option.some.inj hm
                exact Int.toNat_le.mpr hle.2
            · cases hm
        | _ => cases hm
  rw [ofJson?, Option.bind_eq_bind, Option.bind_eq_some_iff] at hs
  obtain ⟨fields, -, hs⟩ := hs
  split at hs
  · simp only [Option.pure_def, Option.bind_eq_bind, Option.bind_eq_some_iff] at hs
    obtain ⟨maxLocals, hlocals, maxLabels, hlabels, policy, -, stepLimit, hsteps, hs⟩ := hs
    obtain rfl := Option.some.inj hs
    exact ⟨hnumber (by decide) hlocals, hnumber (by decide) hlabels, hnumber (by decide) hsteps⟩
  · cases hs

end Settings

end MethodCompiler
