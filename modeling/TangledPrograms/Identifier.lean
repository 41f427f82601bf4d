/-!
# Identifiers

Programs, learners and teams are named by numbers, each kind counted on its own. An `IdCounters`
hands them out in order, so that a population resumed with its counters goes on with its own
sequence.
-/

namespace TangledPrograms

/-- The kinds of things that are numbered. -/
inductive Kind where
  | program | learner | team
  deriving DecidableEq, Repr

def Kind.name : Kind → String
  | .program => "program"
  | .learner => "learner"
  | .team => "team"

/-- The number of a thing of the kind `k`. -/
structure Id (k : Kind) where
  index : Nat
  deriving DecidableEq, Repr

abbrev ProgramId := Id .program
abbrev LearnerId := Id .learner
abbrev TeamId := Id .team

namespace Id

variable {k : Kind}

instance : Ord (Id k) := ⟨fun a b => compare a.index b.index⟩

theorem compare_def (a b : Id k) : compare a b = compare a.index b.index := rfl

instance : Std.TransOrd (Id k) where
  eq_swap {a b} := by
    rw [compare_def, compare_def]
    exact Std.OrientedCmp.eq_swap
  isLE_trans {a b c} h₁ h₂ := by
    rw [compare_def] at *
    exact Std.TransCmp.isLE_trans h₁ h₂

instance : Std.LawfulEqOrd (Id k) where
  compare_self {a} := by
    rw [compare_def]
    exact Std.ReflCmp.compare_self
  eq_of_compare {a b} h := by
    rw [compare_def] at h
    cases a; cases b
    exact congrArg _ (Std.LawfulEqCmp.eq_of_compare h)

def text (a : Id k) : String := k.name ++ ":" ++ toString a.index

end Id

/-- For each kind, the number that comes next; also the count of numbers given out. -/
structure IdCounters where
  nextProgram : Nat
  nextLearner : Nat
  nextTeam : Nat
  deriving DecidableEq, Repr

namespace IdCounters

def fresh : IdCounters := ⟨0, 0, 0⟩

def takeProgram (c : IdCounters) : ProgramId × IdCounters :=
  (⟨c.nextProgram⟩, { c with nextProgram := c.nextProgram + 1 })

def takeLearner (c : IdCounters) : LearnerId × IdCounters :=
  (⟨c.nextLearner⟩, { c with nextLearner := c.nextLearner + 1 })

def takeTeam (c : IdCounters) : TeamId × IdCounters :=
  (⟨c.nextTeam⟩, { c with nextTeam := c.nextTeam + 1 })

end IdCounters

end TangledPrograms
