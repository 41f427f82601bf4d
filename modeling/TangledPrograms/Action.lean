import TangledPrograms.Binary64
import TangledPrograms.Identifier

/-!
# Actions

A learner that wins a decision either ends it with an atomic action or passes it on to a team.
-/

namespace TangledPrograms

/-- What a decision can end with: a label, or a vector of coordinates. -/
inductive AtomicAction where
  | label (value : Int64)
  | vector (coordinates : List Binary64)
  deriving DecidableEq

/-- Whether two lists of numbers agree place by place, as numbers: the two zeros agree, and NaN
agrees with nothing. -/
def agreeNumbers : List Binary64 → List Binary64 → Bool
  | [], [] => true
  | x :: xs, y :: ys => x.toFloat == y.toFloat && agreeNumbers xs ys
  | _, _ => false

def AtomicAction.agrees : AtomicAction → AtomicAction → Bool
  | .label a, .label b => a = b
  | .vector xs, .vector ys => agreeNumbers xs ys
  | _, _ => false

def AtomicAction.isVector : AtomicAction → Bool
  | .label _ => false
  | .vector _ => true

/-- What a learner does when it wins. -/
inductive Action where
  | atomic (action : AtomicAction)
  | team (target : TeamId)
  deriving DecidableEq

namespace Action

/-- Whether two actions are the same, coordinates compared as numbers. -/
def agrees : Action → Action → Bool
  | .atomic a, .atomic b => a.agrees b
  | .team s, .team t => s = t
  | _, _ => false

def isAtomic : Action → Bool
  | .atomic _ => true
  | .team _ => false

def target? : Action → Option TeamId
  | .atomic _ => none
  | .team t => some t

end Action

end TangledPrograms
