import TangledPrograms.Bytes.Hex
import TangledPrograms.Decimal.Style

/-!
# Documents

A document is a tree of records, lists, texts and numbers, written as JSON over several lines with
two blanks for each level. Numbers that are not finite are written as null.
-/

namespace TangledPrograms

/-- A tree of values. -/
inductive Document where
  | null
  | truth (b : Bool)
  | integer (n : Int)
  | number (x : Float)
  | text (s : String)
  | list (items : List Document)
  | record (fields : List (String × Document))
  deriving Inhabited

namespace Document

def natural (n : Nat) : Document := .integer n

def escape (c : Char) : List Char :=
  if c = '"' then ['\\', '"']
  else if c = '\\' then ['\\', '\\']
  else if c = '\n' then ['\\', 'n']
  else if c = '\r' then ['\\', 'r']
  else if c = '\t' then ['\\', 't']
  else if c.toNat = 8 then ['\\', 'b']
  else if c.toNat = 12 then ['\\', 'f']
  else if c.toNat < 32 then '\\' :: 'u' :: Bytes.hexDigits 4 c.toNat
  else [c]

def quote (s : String) : List Char := '"' :: (s.toList.flatMap escape ++ ['"'])

def newLine (level : Nat) : List Char := '\n' :: List.replicate (2 * level) ' '

def numberText (x : Float) : List Char :=
  if x.isFinite then Decimal.finiteText Decimal.documentStyle x else "null".toList

mutual

def render (level : Nat) : Document → List Char
  | .null => "null".toList
  | .truth b => (if b then "true" else "false").toList
  | .integer n => (toString n).toList
  | .number x => numberText x
  | .text s => quote s
  | .list [] => "[]".toList
  | .list (d :: rest) =>
    '[' :: (newLine (level + 1) ++ render (level + 1) d ++ renderItems (level + 1) rest ++
      newLine level ++ [']'])
  | .record [] => ['\x7b', '\x7d']
  | .record (f :: rest) =>
    '\x7b' :: (newLine (level + 1) ++ renderField (level + 1) f ++ renderFields (level + 1) rest ++
      newLine level ++ ['\x7d'])

def renderField (level : Nat) : String × Document → List Char
  | (name, d) => quote name ++ ':' :: ' ' :: render level d

def renderItems (level : Nat) : List Document → List Char
  | [] => []
  | d :: rest => ',' :: (newLine level ++ render level d ++ renderItems level rest)

def renderFields (level : Nat) : List (String × Document) → List Char
  | [] => []
  | f :: rest => ',' :: (newLine level ++ renderField level f ++ renderFields level rest)

end

def pretty (d : Document) : String := String.ofList (d.render 0)

end Document

end TangledPrograms
