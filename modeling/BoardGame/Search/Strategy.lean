import BoardGame.Search.Monad
import BoardGame.Search.Params
/-!
# Strategies

A strategy says how the nodes of a search are judged: which child to descend to, what a
node is first worth, how the value of a leaf changes the values on the way to it, and
by which weights the move to play is drawn. The search keeps the visit counts itself.
-/

namespace BoardGame

structure Strategy (V : Type) where
  name : String
  params : SearchParams
  /-- Priority of the move from a node to a child, for the side to move at the node. -/
  priority : NodeId → NodeId → SearchM V Float
  /-- Gives an undetermined node its first value and its children their priors. -/
  appraise : NodeId → SearchM V Unit
  /-- Value of a node once the value of a leaf below it is known: the leaf's value, whether
  the two have the same side to move, and the number of plies between them. -/
  absorb : Stat V → V → Bool → Nat → V
  /-- Weights for drawing a move and shares to record, for the moves from a node at a
  depth. -/
  weigh : Nat → NodeId → List NodeId → SearchM V (List Float × List Float)

namespace Strategy

variable {V : Type} [Inhabited V]

def expanded (id : NodeId) : SearchM V Bool :=
  return (← SearchM.stat id).expanded

/-- Appraises a node, unless the game ends there, and counts the visit. -/
def expand (strategy : Strategy V) (id : NodeId) : SearchM V Unit := do
  if !(← GameTree.outcome id).isTerminal then
    strategy.appraise id
  SearchM.changeStat id fun stat => { stat with visits := stat.visits + 1, expanded := true }

/-- Carries the value of a leaf to one node above it. -/
def carryUp (strategy : Strategy V) (value : V) (leaf : NodeId) (depth : Nat) (ancestor : NodeId) :
    SearchM V Unit := do
  let same ← GameTree.sameMover ancestor leaf
  let distance := depth - (← GameTree.depth ancestor)
  SearchM.changeStat ancestor fun stat =>
    { stat with visits := stat.visits + 1, value := strategy.absorb stat value same distance }

/-- Carries the value of a leaf to every node of the path to it. -/
def backprop (strategy : Strategy V) (path : List NodeId) (leaf : NodeId) : SearchM V Unit := do
  let value := (← SearchM.stat leaf).value
  let depth ← GameTree.depth leaf
  path.forM (strategy.carryUp value leaf depth)

/-- Draws the move to play and records the shares of all moves. The statistics of the
ply that is left are dropped. -/
def pickMove (strategy : Strategy V) (root : NodeId) : SearchM V (NodeId × Slice) := do
  let moves ← GameTree.legalMoves root
  if moves.isEmpty then
    throw (.invariant .noMovesToPickFrom)
  let depth ← GameTree.depth root
  let (weights, shares) ← strategy.weigh depth root moves
  let slice ← SearchM.recordSlice root moves shares
  let verdicts ← SearchM.verdicts root moves
  match (← pickIndex verdicts weights).bind (moves[·]?) with
  | none => throw (.invariant .noPick)
  | some child =>
    SearchM.evictAround depth
    return (child, slice)

end Strategy

end BoardGame
