import TangledPrograms.Population.Edges
import TangledPrograms.Random.Normal

/-!
# Mutation of actions

With some probability a learner gets an atomic action, else an edge to a team that is neither its
target nor its parent. From a pool that is not all vectors any other entry is taken; a pool of
vectors replaces the learner's vector or moves some of its coordinates by normal noise, cut to the
unit interval.
-/

namespace TangledPrograms

namespace ActionMutation

def nudge (m : MutationSettings) (v : List Binary64) : Draw (List Binary64) := do
  let place ← Draw.below .word64 v.length
  let noise ← Normal.deviate m.vectorNoise.toFloat
  pure (v.modify place fun x => (x.add noise).clampUnit)

/-- Moves coordinates while the coin shows more, at most `moves` of them. -/
def nudgeRepeatedly (m : MutationSettings) : Nat → List Binary64 → Draw (List Binary64)
  | 0, _ => Draw.halt .starved
  | moves + 1, v => do
    let v ← nudge m v
    if ← Draw.coin m.changeVector.toFloat then nudgeRepeatedly m moves v else pure v

/-- Moves coordinates while the coin shows more; every move reads words, so no more moves are made
than words remain. -/
def nudgeAll (m : MutationSettings) (v : List Binary64) : Draw (List Binary64) := do
  nudgeRepeatedly m ((← Draw.remaining) + 1) v

def vectorFrom (pool : List AtomicAction) : Draw (Option (List Binary64)) := do
  match ← Draw.choose pool with
  | some (.vector v) => pure (some v)
  | _ => pure none

/-- The vector to start from: the current one, unless it is swapped for one of the pool. -/
def baseVector (pool : List AtomicAction) (swap : Bool) (current : Action) :
    Draw (Option (List Binary64)) :=
  match swap, current with
  | false, .atomic (.vector v) => pure (some v)
  | _, _ => vectorFrom pool

def proposeVector (m : MutationSettings) (pool : List AtomicAction) (current : Action) :
    Draw (Option AtomicAction) := do
  let swap ← Draw.coin m.swapVector.toFloat
  match ← baseVector pool swap current with
  | none => pure none
  | some v =>
    let move ← if swap then Draw.coin m.changeVector.toFloat else pure true
    if move && !v.isEmpty then pure (some (.vector (← nudgeAll m v)))
    else pure (some (.vector v))

def proposeAtomic (m : MutationSettings) (pool : List AtomicAction) (current : Action) :
    Draw (Option AtomicAction) :=
  if !pool.isEmpty && pool.all AtomicAction.isVector then proposeVector m pool current
  else Draw.choose (pool.filter fun a => !(Action.atomic a).agrees current)

def candidates (p : Population) (current : Action) (parent : Option TeamId) : List TeamId :=
  p.teams.keys.filter fun t => some t ≠ current.target? && some t ≠ parent

def propose (p : Population) (current : Action) (parent : Option TeamId)
    (pool : List AtomicAction) : Draw (Option Action) := do
  let m := p.settings.mutation
  let teams := candidates p current parent
  let atomic ← Draw.coin m.actionAtomic.toFloat
  if atomic || teams.isEmpty then pure ((← proposeAtomic m pool current).map .atomic)
  else pure ((← Draw.choose teams).map .team)

end ActionMutation

/-- Gives a learner another action; tells whether it changed. -/
def Population.mutateAction (p : Population) (l : LearnerId) (parent : Option TeamId)
    (pool : List AtomicAction) : Draw (Edited Bool) :=
  match p.learners.find? l with
  | none => pure (.refused (.unknownLearner l) p)
  | some learner => do
    match ← ActionMutation.propose p learner.action parent pool with
    | none => pure (.done false p)
    | some action =>
      if action.agrees learner.action then pure (.done false p)
      else
        match p.rewire l action with
        | .done _ p => pure (.done true p)
        | .refused e p => pure (.refused e p)

end TangledPrograms
