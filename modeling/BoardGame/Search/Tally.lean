import BoardGame.Search.Strategy
/-!
# Strategy by tallies of results

`Strategy.dirichlet` keeps pseudo-counts of the wins, losses and draws seen below a
node. They are the parameters of a Dirichlet distribution of the results; its expected
value and standard deviation rank the moves, optimistically while searching and
pessimistically when a move is played.
-/

namespace BoardGame

/-- Pseudo-counts of results for the side to move. -/
structure Tally where
  wins : Float32 := 0
  losses : Float32 := 0
  draws : Float32 := 0

instance : Inhabited Tally := ⟨{}⟩

namespace Tally

/-- Pseudo-count of each result of an undetermined position. -/
def prior : Float32 := 0.1

/-- Tally of a position: its result, or a little of each. -/
def ofOutcome : Outcome → Tally
  | .win => ⟨1, 0, 0⟩
  | .lose => ⟨0, 1, 0⟩
  | .draw => ⟨0, 0, 1⟩
  | .undetermined => ⟨prior, prior, prior⟩

/-- The tally for a side that is the same or the other one. -/
def seenFrom (same : Bool) (t : Tally) : Tally :=
  if same then t else ⟨t.losses, t.wins, t.draws⟩

def add (a b : Tally) : Tally :=
  ⟨a.wins + b.wins, a.losses + b.losses, a.draws + b.draws⟩

/-- Counts with the values of their results. -/
def valued (t : Tally) : List (Float32 × Float32) :=
  [(t.wins, 1), (t.losses, 0), (t.draws, 0.5)]

/-- Expected value plus a number of standard deviations. -/
def optimisticValue (t : Tally) (deviations : Float32) : Float32 :=
  let n := t.wins + t.losses + t.draws
  if n ≤ 0 then 0
  else
    let expected := t.valued.foldl (fun sum (count, value) => sum + value * count / n) 0
    let denominator := n * n * (n + 1)
    let covariance (i j : Nat) (a b : Float32) : Float32 :=
      if i = j then a * (n - a) / denominator else -a * b / denominator
    let variance := t.valued.zipIdx.foldl (fun sum ((a, va), i) =>
      t.valued.zipIdx.foldl (fun sum ((b, vb), j) => sum + covariance i j a b * va * vb) sum) 0
    expected + (if 0 < variance then variance else 0).sqrt * deviations

/-- Standard deviations added while searching. -/
def searchDeviations : Float32 := 4

/-- Standard deviations added when a move is played. -/
def pickDeviations : Float32 := -1

/-- Tally of a child for the side to move at its parent. -/
def ofChild (parent child : NodeId) : SearchM Tally Tally := do
  let stat ← SearchM.stat child
  return stat.value.seenFrom (← GameTree.sameMover parent child)

def priority (parent child : NodeId) : SearchM Tally Float := do
  let value := (← ofChild parent child).optimisticValue searchDeviations
  let bonus : Float := if ← GameTree.wins child parent then 100 else 0
  return value.toFloat + bonus

/-- Starts the tallies of the children and adds the result of a rollout to the node's. -/
def appraise (id : NodeId) : SearchM Tally Unit := do
  let moves ← GameTree.legalMoves id
  moves.forM fun child => do
    let value := ofOutcome (← GameTree.outcome child)
    SearchM.changeStat child fun stat => { stat with value }
  let pos ← GameTree.position id
  let (mover, outcome) ← rollout (← SearchM.game) pos
  let result := (ofOutcome outcome).seenFrom (mover == pos.mover)
  SearchM.changeStat id fun stat => { stat with value := stat.value.add result }

def weigh (params : SearchParams) (depth : Nat) (root : NodeId) (moves : List NodeId) :
    SearchM Tally (List Float × List Float) := do
  let values ← moves.mapM fun child => do
    let value := (← ofChild root child).optimisticValue pickDeviations
    return (if 0 < value then value else 0).toFloat
  let weights := temperatureWeights values (params.temperatureAt depth)
  return (weights, normalize weights)

end Tally

namespace Strategy

/-- Tallies of results by rollouts. -/
def dirichlet (params : SearchParams) : Strategy Tally where
  name := "dirichlet"
  params := params
  priority := Tally.priority
  appraise := Tally.appraise
  absorb stat leaf same _ := stat.value.add (leaf.seenFrom same)
  weigh := Tally.weigh params

end Strategy

end BoardGame
