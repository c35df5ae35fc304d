import BoardGame.Search.MonteCarlo
import BoardGame.Search.MeanValue
import BoardGame.Search.Tally
/-!
# Players

A player picks the next node of a game: by chance among the moves that do not lose at
once, or by a tree search of one of the strategies.
-/

namespace BoardGame

inductive Player where
  | random (generator : Generator)
  | byMean (search : TreeSearch MeanValue)
  | byTally (search : TreeSearch Tally)

namespace Player

def vanilla (params : SearchParams) : Player :=
  byMean (.ofStrategy (.vanilla params))

def alphaZero (evaluator : Option Evaluator) (params : SearchParams) : Player :=
  byMean (.ofStrategy (.alphaZero evaluator params))

def dirichlet (params : SearchParams) : Player :=
  byTally (.ofStrategy (.dirichlet params))

def name : Player → String
  | random _ => "random"
  | byMean search => search.strategy.name
  | byTally search => search.strategy.name

/-- Picks among the moves that do not lose at once, or an immediate win. -/
def pickByChance (id : NodeId) : SearchM Unit NodeId := do
  MonteCarlo.ensurePlayable id
  let moves ← GameTree.legalMoves id
  let verdicts ← SearchM.verdicts id moves
  match (← pickIndex verdicts (moves.map fun _ => 1)).bind (moves[·]?) with
  | some child => return child
  | none => throw (.invariant .noPick)

/-- The node to move to, and what the player recorded if it searches. -/
def next (player : Player) (tree : GameTree) (id : NodeId) :
    Except EngineError (NodeId × Option Slice) × Player × GameTree :=
  match player with
  | random generator =>
    let (result, state) := (pickByChance id).run ⟨tree, .empty, generator⟩
    (result.map fun child => (child, none), random state.generator, state.tree)
  | byMean search =>
    let (result, search, tree) := search.run tree (MonteCarlo.search search.strategy id)
    (result.map fun (child, slice) => (child, some slice), byMean search, tree)
  | byTally search =>
    let (result, search, tree) := search.run tree (MonteCarlo.search search.strategy id)
    (result.map fun (child, slice) => (child, some slice), byTally search, tree)

/-- Drops what the player remembers of a game. -/
def gameOver : Player → Player
  | random generator => random generator
  | byMean search => byMean search.gameOver
  | byTally search => byTally search.gameOver

end Player

end BoardGame
