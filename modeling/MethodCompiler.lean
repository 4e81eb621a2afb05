import MethodCompiler.Main
import MethodCompiler.Proofs.Compilation
import MethodCompiler.Proofs.HandlerTable
import MethodCompiler.Proofs.StackDiscipline
import MethodCompiler.Settings.Json
import MethodCompiler.Source.Build
import MethodCompiler.Proofs.Correspondence
import MethodCompiler.Proofs.ExpressionRuns
import MethodCompiler.Proofs.Grounding
import MethodCompiler.Proofs.DefiniteTypes
import MethodCompiler.Proofs.ClosedRuns
import MethodCompiler.Proofs.Preservation
import MethodCompiler.Proofs.Parts
import MethodCompiler.Proofs.SwitchTargets
import MethodCompiler.Proofs.ExpressionMeaning
import MethodCompiler.Proofs.TreeFormat
import MethodCompiler.Proofs.Renaming
import MethodCompiler.Proofs.ScopeFrames
import MethodCompiler.Proofs.JumpTargets
import MethodCompiler.Proofs.TypeSoundness
import MethodCompiler.Proofs.Slots
import MethodCompiler.Proofs.WellTyped
import MethodCompiler.Proofs.QuietCode
import MethodCompiler.Proofs.Rescues
import MethodCompiler.Proofs.InFlight
import MethodCompiler.Proofs.Ancestry
import MethodCompiler.Proofs.Budgets
import MethodCompiler.Proofs.Ranges
import MethodCompiler.Proofs.FiniteGeneration
import MethodCompiler.Proofs.Elision
import MethodCompiler.Proofs.StepLimit
import MethodCompiler.Proofs.Outlines
import MethodCompiler.Proofs.LabelLines
