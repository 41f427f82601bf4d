import TangledPrograms.Population.Basic

/-!
# Errors

Everything that an operation of the library can be refused for, with the message for it.
-/

namespace TangledPrograms

/-- Why a snapshot is refused. -/
inductive SnapshotError where
  | checksumMismatch (expected actual : String)
  | unsupportedVersion (version : Nat)
  | dangling (team : TeamId)
  deriving DecidableEq, Repr

def SnapshotError.message : SnapshotError → String
  | .checksumMismatch expected actual =>
    "Checksum mismatch: expected " ++ expected ++ ", got " ++ actual
  | .unsupportedVersion version => "Unsupported snapshot version: " ++ toString version
  | .dangling team => "Snapshot references missing node: " ++ team.text

/-- Why an operation is refused. -/
inductive Error where
  | invalidObservation (e : ShapeError)
  | emptyProgram
  | population (e : PopulationError)
  | settings (e : SettingsError)
  | snapshot (e : SnapshotError)
  /-- A text or a file does not have the form of what it should hold. -/
  | malformed
  /-- There is no file. -/
  | missingFile
  /-- What is asked for cannot be built. -/
  | halted (h : Halt)
  deriving DecidableEq

namespace Error

def message : Error → String
  | .invalidObservation e => "Invalid observation: " ++ e.message
  | .emptyProgram => "Program must hold at least one instruction"
  | .population e => "Graph error: " ++ e.message
  | .settings e => "Configuration error: " ++ e.message
  | .snapshot e => "Snapshot error: " ++ e.message
  | .malformed => "Serialization error"
  | .missingFile => "Storage error"
  | .halted _ => "No answer"

end Error

end TangledPrograms
