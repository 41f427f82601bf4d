import TangledPrograms.Settings.Basic
import TangledPrograms.Decimal.Style

/-!
# Which settings are accepted

Sizes must be at least one, probabilities must lie in `[0, 1]`, and some mutation must be able to
fire. `Settings.check` names the first fault.
-/

namespace TangledPrograms

/-- The sizes that must not be zero. -/
inductive Size where
  | destinationRange | sourceRange | maxLength | registerCount | sharedGroups | sharedSlots
  | sourceShape | kernelSize | stepSize | changeAttempts
  deriving DecidableEq, Repr

def Size.name : Size → String
  | .destinationRange => "destination range"
  | .sourceRange => "source range"
  | .maxLength => "max program length"
  | .registerCount => "register count"
  | .sharedGroups => "shared register groups"
  | .sharedSlots => "shared register slots"
  | .sourceShape => "source dimensions"
  | .kernelSize => "kernel size"
  | .stepSize => "kernel step size"
  | .changeAttempts => "max change attempts"

/-- Why settings are refused. -/
inductive SettingsError where
  | invalidProbability (rate : Rate) (value : Float)
  | zeroSized (size : Size)
  | tooFewPoints (points : Nat)
  | noMutationPossible
  | invalidValue (key value : String)
  deriving DecidableEq

def SettingsError.message : SettingsError → String
  | .invalidProbability rate value =>
    "Probability " ++ rate.name ++ " out of range: " ++ Decimal.messageText value
  | .zeroSized size => size.name ++ " must be at least 1"
  | .tooFewPoints points =>
    "Multi-window addressing needs at least 2 points, got " ++ toString points
  | .noMutationPossible => "No mutation can fire with the configured rates"
  | .invalidValue key value => "Invalid value for " ++ key ++ ": " ++ value

/-- Whether a number lies in `[0, 1]`. -/
def isProbability (x : Float) : Bool := 0.0 ≤ x && x ≤ 1.0

/-- Refuses for the reason `e` if `bad` holds. -/
def refuseIf (bad : Bool) (e : SettingsError) : Except SettingsError Unit :=
  if bad then .error e else .ok ()

namespace MutationSettings

/-- The first probability outside `[0, 1]`. -/
def badRate? (m : MutationSettings) : Option Rate :=
  Rate.all.find? fun r => !isProbability (m.rate r).toFloat

def instructionsFixed (m : MutationSettings) : Bool :=
  [m.deleteInstruction, m.addInstruction, m.swapInstruction, m.mutateInstruction].all
    fun rate => rate.toFloat == 0.0

def check (m : MutationSettings) : Except SettingsError Unit := do
  match m.badRate? with
  | some r => .error (.invalidProbability r (m.rate r).toFloat)
  | none => pure ()
  let noise := m.vectorNoise.toFloat
  refuseIf (!(noise ≥ 0.0 && noise.isFinite))
    (.invalidValue "multi_action_noise" (Decimal.messageText noise))
  refuseIf (m.maxChangeAttempts = 0) (.zeroSized .changeAttempts)
  refuseIf (m.program.toFloat == 0.0 && m.action.toFloat == 0.0) .noMutationPossible
  refuseIf (m.program.toFloat > 0.0 && m.instructionsFixed) .noMutationPossible

end MutationSettings

def Settings.check (s : Settings) : Except SettingsError Unit := do
  refuseIf (s.program.destinationRange = 0) (.zeroSized .destinationRange)
  refuseIf (s.program.sourceRange = 0) (.zeroSized .sourceRange)
  refuseIf (s.program.maxLength = 0) (.zeroSized .maxLength)
  refuseIf (s.registers.count = 0) (.zeroSized .registerCount)
  refuseIf (s.registers.sharedGroups = 0) (.zeroSized .sharedGroups)
  refuseIf (s.registers.sharedSlots = 0) (.zeroSized .sharedSlots)
  refuseIf (s.addressing.sourceShape.isEmpty || s.addressing.sourceShape.contains 0)
    (.zeroSized .sourceShape)
  refuseIf (s.addressing.kernelSize = 0) (.zeroSized .kernelSize)
  refuseIf (s.addressing.stepSize = 0) (.zeroSized .stepSize)
  refuseIf (s.addressing.kind = .multiWindow && s.addressing.kernelPoints < 2)
    (.tooFewPoints s.addressing.kernelPoints)
  s.mutation.check

end TangledPrograms
