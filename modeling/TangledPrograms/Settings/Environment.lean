import TangledPrograms.Settings.Validation
import TangledPrograms.Decimal.Literal

/-!
# Settings from the environment

Named variables override single settings, one after the other; then the whole is checked. A text
that does not read as the setting's value is refused and shown as it was.
-/

namespace TangledPrograms.Text

def blankRanges : List (Nat × Nat) :=
  [(0x09, 0x0d), (0x20, 0x20), (0x85, 0x85), (0xa0, 0xa0), (0x1680, 0x1680), (0x2000, 0x200a),
    (0x2028, 0x2029), (0x202f, 0x202f), (0x205f, 0x205f), (0x3000, 0x3000)]

def isBlank (c : Char) : Bool :=
  blankRanges.any fun r => r.1 ≤ c.toNat && c.toNat ≤ r.2

/-- Drops white space from both ends. -/
def trim (text : List Char) : List Char :=
  ((text.dropWhile isBlank).reverse.dropWhile isBlank).reverse

def commaParts : List Char → List (List Char)
  | [] => [[]]
  | ',' :: rest => [] :: commaParts rest
  | c :: rest =>
    match commaParts rest with
    | part :: parts => (c :: part) :: parts
    | [] => [[c]]

end TangledPrograms.Text

namespace TangledPrograms

/-- The kind that a word names, in any case of its ASCII letters; a word that names none is given
back in lower case. -/
def AddressingKind.ofWord (word : String) : Except String AddressingKind :=
  let lower := String.ofList (word.toList.map Char.toLower)
  if lower = "full" then .ok .full
  else if lower = "window" then .ok .window
  else if lower = "multi_window" || lower = "multi-window" then .ok .multiWindow
  else .error lower

def AddressingKind.unknownMessage (word : String) : String := "unknown addressing kind " ++ word

namespace Environment

/-- A variable and what its text does to the settings. -/
structure Override where
  name : String
  apply : List Char → Settings → Option Settings

def word32? (text : List Char) : Option UInt32 :=
  (Decimal.parseNatural? UInt32.size (Text.trim text)).map UInt32.ofNat

def size? (text : List Char) : Option Nat := Decimal.parseNatural? UInt64.size (Text.trim text)

def number? (text : List Char) : Option Binary64 :=
  (Decimal.parseFloat? (Text.trim text)).map .ofFloat

def bool? (text : List Char) : Option Bool :=
  let word := String.ofList (Text.trim text)
  if word = "true" then some true else if word = "false" then some false else none

def kind? (text : List Char) : Option AddressingKind :=
  (AddressingKind.ofWord (String.ofList (Text.trim text))).toOption

def shape? (text : List Char) : Option (List Nat) := (Text.commaParts text).mapM size?

def overrides : List Override :=
  [⟨"TPG_DESTINATION_RANGE", fun t s => (word32? t).map fun v =>
      { s with program := { s.program with destinationRange := v } }⟩,
    ⟨"TPG_SOURCE_RANGE", fun t s => (word32? t).map fun v =>
      { s with program := { s.program with sourceRange := v } }⟩,
    ⟨"TPG_MAX_PROGRAM_LENGTH", fun t s => (size? t).map fun v =>
      { s with program := { s.program with maxLength := v } }⟩,
    ⟨"TPG_REGISTERS", fun t s => (size? t).map fun v =>
      { s with registers := { s.registers with count := v } }⟩,
    ⟨"TPG_SHARED_GROUPS", fun t s => (size? t).map fun v =>
      { s with registers := { s.registers with sharedGroups := v } }⟩,
    ⟨"TPG_SHARED_SLOTS", fun t s => (size? t).map fun v =>
      { s with registers := { s.registers with sharedSlots := v } }⟩,
    ⟨"TPG_ADDRESSING", fun t s => (kind? t).map fun v =>
      { s with addressing := { s.addressing with kind := v } }⟩,
    ⟨"TPG_KERNEL_SIZE", fun t s => (size? t).map fun v =>
      { s with addressing := { s.addressing with kernelSize := v } }⟩,
    ⟨"TPG_KERNEL_POINTS", fun t s => (size? t).map fun v =>
      { s with addressing := { s.addressing with kernelPoints := v } }⟩,
    ⟨"TPG_KERNEL_STEP", fun t s => (size? t).map fun v =>
      { s with addressing := { s.addressing with stepSize := v } }⟩,
    ⟨"TPG_VECTOR_MODE", fun t s => (bool? t).map fun v =>
      { s with addressing := { s.addressing with vectorMode := v } }⟩,
    ⟨"TPG_SOURCE_DIMS", fun t s => (shape? t).map fun v =>
      { s with addressing := { s.addressing with sourceShape := v } }⟩,
    ⟨"TPG_P_MUT_PROG", fun t s => (number? t).map fun v =>
      { s with mutation := { s.mutation with program := v } }⟩,
    ⟨"TPG_P_MUT_ACT", fun t s => (number? t).map fun v =>
      { s with mutation := { s.mutation with action := v } }⟩,
    ⟨"TPG_P_ACT_ATOM", fun t s => (number? t).map fun v =>
      { s with mutation := { s.mutation with actionAtomic := v } }⟩,
    ⟨"TPG_P_DEL_INST", fun t s => (number? t).map fun v =>
      { s with mutation := { s.mutation with deleteInstruction := v } }⟩,
    ⟨"TPG_P_ADD_INST", fun t s => (number? t).map fun v =>
      { s with mutation := { s.mutation with addInstruction := v } }⟩,
    ⟨"TPG_P_SWP_INST", fun t s => (number? t).map fun v =>
      { s with mutation := { s.mutation with swapInstruction := v } }⟩,
    ⟨"TPG_P_MUT_INST", fun t s => (number? t).map fun v =>
      { s with mutation := { s.mutation with mutateInstruction := v } }⟩,
    ⟨"TPG_UNIQUE_PROG_THRESH", fun t s => (number? t).map fun v =>
      { s with mutation := { s.mutation with uniqueThreshold := v } }⟩,
    ⟨"TPG_STATE_HISTORY", fun t s => (size? t).map fun v => { s with stateHistory := v }⟩]

def applyOverride (lookup : String → Option String) (s : Settings) (o : Override) :
    Except SettingsError Settings :=
  match lookup o.name with
  | none => .ok s
  | some text =>
    match o.apply text.toList s with
    | some s' => .ok s'
    | none => .error (.invalidValue o.name text)

end Environment

def Settings.load (lookup : String → Option String) : Except SettingsError Settings := do
  let s ← Environment.overrides.foldlM (Environment.applyOverride lookup) {}
  s.check
  pure s

end TangledPrograms
