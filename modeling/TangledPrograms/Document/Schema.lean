import TangledPrograms.Document.Lexeme

/-!
# Reading typed values from JSON

Values are read as they are expected: a whole number below a bound, a float, a record with named
fields, one of several variants. A record is an object with every field exactly once, in any order,
among which unknown fields are read over; or a list of the fields' values in order. A variant is an
object with the variant's name as its only key, or the bare name if it carries nothing.
-/

namespace TangledPrograms.Document

open Reader

def natBelow (bound : Nat) : Reader Char Nat := do
  match ← numeral with
  | .natural n => if n < bound then pure n else fail
  | _ => fail

def word32 : Reader Char UInt32 := do pure (.ofNat (← natBelow UInt32.size))

def size : Reader Char Nat := natBelow UInt64.size

def signed : Reader Char Int64 := do
  match ← numeral with
  | .natural n => if n < UInt64.size / 2 then pure (.ofNat n) else fail
  | .negative n => pure (.ofInt (-(n : Int)))
  | .real _ => fail

/-- A float; whole numbers are rounded to the nearest one. -/
def float : Reader Char Float := do
  match ← numeral with
  | .natural n => pure (UInt64.ofNat n).toFloat
  | .negative n => pure (-(UInt64.ofNat n).toFloat)
  | .real x => pure x

def truthValue : Reader Char Bool := do
  skipBlanks
  if (← peek?) = some 't' then
    word "true".toList
    pure true
  else
    word "false".toList
    pure false

/-- Further items of a list; `fuel` bounds their number. -/
def itemsRest {α : Type} (item : Reader Char α) : List Char → Reader Char (List α)
  | [] => fail
  | _ :: fuel => do
    if ← accept ']' then pure []
    else
      expect ','
      let a ← item
      pure (a :: (← itemsRest item fuel))

def items {α : Type} (item : Reader Char α) : Reader Char (List α) := do
  expect '['
  if ← accept ']' then pure []
  else
    let a ← item
    pure (a :: (← itemsRest item (← remaining)))

def fieldName : Reader Char String := do
  let name ← quoted
  expect ':'
  pure name

/-- Further entries of a map; `fuel` bounds their number. -/
def entriesRest {α : Type} (value : Reader Char α) : List Char → Reader Char (List (String × α))
  | [] => fail
  | _ :: fuel => do
    if ← accept '\x7d' then pure []
    else
      expect ','
      let name ← fieldName
      let a ← value
      pure ((name, a) :: (← entriesRest value fuel))

def entries {α : Type} (value : Reader Char α) : Reader Char (List (String × α)) := do
  expect '\x7b'
  if ← accept '\x7d' then pure []
  else
    let name ← fieldName
    let a ← value
    pure ((name, a) :: (← entriesRest value (← remaining)))

/-- The fields of a record in order, each with its name and reader. -/
inductive Fields : Type → Type 1 where
  | done : Fields Unit
  | field {α β : Type} (name : String) (value : Reader Char α) (rest : Fields β) : Fields (α × β)

namespace Fields

/-- What has been read of a record's fields. -/
@[reducible] def Partial : {τ : Type} → Fields τ → Type
  | _, .done => Unit
  | _, @field α _ _ _ rest => Option α × rest.Partial

def start : {τ : Type} → (fs : Fields τ) → fs.Partial
  | _, .done => ()
  | _, .field _ _ rest => (none, rest.start)

def finish? : {τ : Type} → (fs : Fields τ) → fs.Partial → Option τ
  | _, .done, _ => some ()
  | _, .field _ _ rest, p =>
    match p.1, rest.finish? p.2 with
    | some a, some b => some (a, b)
    | _, _ => none

/-- Reads the value of the named field; a field that has been read already is a fault, and the value
of an unknown one is read over. -/
def readNamed : {τ : Type} → (fs : Fields τ) → String → fs.Partial → Reader Char fs.Partial
  | _, .done, _, p => do
    skipValue
    pure p
  | _, .field name value rest, key, p =>
    if key = name then
      if p.1.isSome then fail
      else value >>= fun a => pure (some a, p.2)
    else rest.readNamed key p.2 >>= fun q => pure (p.1, q)

/-- Reads the values of all fields in order, with commas between them and before the first one if
`comma` holds. -/
def readInOrder : {τ : Type} → (fs : Fields τ) → (comma : Bool) → Reader Char τ
  | _, .done, _ => pure ()
  | _, .field _ value rest, comma => do
    if comma then expect ','
    let a ← value
    pure (a, ← rest.readInOrder true)

/-- Reads further fields of an object; `fuel` bounds their number. -/
def readObjectRest {τ : Type} (fs : Fields τ) : List Char → fs.Partial → Reader Char fs.Partial
  | [], _ => fail
  | _ :: fuel, p => do
    if ← accept '\x7d' then pure p
    else
      expect ','
      let key ← fieldName
      fs.readObjectRest fuel (← fs.readNamed key p)

def readTuple {τ : Type} (fs : Fields τ) : Reader Char τ := do
  expect '['
  let a ← fs.readInOrder false
  expect ']'
  pure a

def readObject {τ : Type} (fs : Fields τ) : Reader Char τ := do
  expect '\x7b'
  if ← accept '\x7d' then ofOption (fs.finish? fs.start)
  else
    let key ← fieldName
    let p ← fs.readNamed key fs.start
    let p ← fs.readObjectRest (← remaining) p
    ofOption (fs.finish? p)

def read {τ : Type} (fs : Fields τ) : Reader Char τ := do
  skipBlanks
  if (← peek?) = some '[' then fs.readTuple else fs.readObject

end Fields

/-- One of several variants: `bare` ones carry nothing, `tagged` ones a value. -/
def variant {α : Type} (bare : List (String × α)) (tagged : List (String × Reader Char α)) :
    Reader Char α := do
  skipBlanks
  if (← peek?) = some '"' then ofOption (bare.lookup (← quoted))
  else
    expect '\x7b'
    let name ← fieldName
    let a ←
      match bare.lookup name, tagged.lookup name with
      | some a, _ => do
        skipBlanks
        word "null".toList
        pure a
      | none, some value => value
      | none, none => fail
    expect '\x7d'
    pure a

def readAll {α : Type} (value : Reader Char α) (s : String) : Except ReadFailure α :=
  match value.run s.toList with
  | .error e => .error e
  | .ok (a, rest) => if rest.all isBlank then .ok a else .error .malformed

end TangledPrograms.Document
