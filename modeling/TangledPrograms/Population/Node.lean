import TangledPrograms.OrderedMap
import TangledPrograms.Action
import TangledPrograms.Addressing.Basic
import TangledPrograms.Program.Basic

/-!
# Learners and teams

A learner is a program, an addressing strategy and an action; it bids for a decision. A team lists
learners. Each node carries the number of nodes of the other kind that refer to it.
-/

namespace TangledPrograms

open Machine (Bank)

abbrev Scores := OrderedMap String Binary64

/-- A list of learners that compete by bid. -/
structure Team where
  id : TeamId
  /-- Members in the order in which they bid. -/
  members : List LearnerId
  /-- The number of learners whose action is this team. -/
  references : Nat
  scores : Scores
  deriving DecidableEq

namespace Team

def new (id : TeamId) : Team := ⟨id, [], 0, .empty⟩

def isRoot (t : Team) : Bool := t.references = 0

end Team

/-- A bidder. -/
structure Learner where
  id : LearnerId
  program : Program
  mode : Mode
  addressing : Addressing
  /-- The group of the shared bank that the program works on. -/
  group : Nat
  action : Action
  /-- The number of teams that list this learner. -/
  references : Nat
  /-- The number of private registers. -/
  registers : Nat
  /-- Observations seen, the newest last. -/
  memory : List Observation
  deriving DecidableEq

namespace Learner

def bid (l : Learner) (input : Observation) (bank : Bank) : Float × Bank :=
  l.program.execute l.mode (l.addressing.view input) l.registers bank l.group

/-- Remembers an observation and forgets the oldest ones beyond `limit`; a limit of zero remembers
nothing new. -/
def remember (l : Learner) (input : Observation) (limit : Nat) : Learner :=
  if limit = 0 then l
  else { l with memory := l.memory.drop (l.memory.length + 1 - limit) ++ [input] }

end Learner

end TangledPrograms
