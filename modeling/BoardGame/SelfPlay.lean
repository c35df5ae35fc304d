import BoardGame.Player
/-!
# Self-play

Two players move in turn from the start of a tree until the game ends. What they
recorded is labelled with the result.
-/

namespace BoardGame

/-- A finished game. -/
structure GameRecord where
  final : Position
  /-- Outcome for the side to move at the end. -/
  outcome : Outcome
  moves : List String
  instances : List TrainingInstance

namespace GameRecord

def winner (r : GameRecord) : Option Side :=
  r.outcome.winner r.final.mover

def plies (r : GameRecord) : Nat :=
  r.moves.length

/-- The winner's colour, or `draw`. -/
def result (r : GameRecord) : String :=
  match r.winner with
  | some side => side.label
  | none => "draw"

end GameRecord

/-- Two players at a tree. -/
structure Match where
  tree : GameTree
  white : Player
  black : Player

abbrev MatchM := ExceptT EngineError (StateM Match)

namespace Match

/-- Plies after which a game is given up. -/
def maxPlies : Nat := 0x100000000

def onTree {α : Type} (x : TreeM α) : MatchM α :=
  ExceptT.mk fun ⟨tree, white, black⟩ =>
    let (result, tree) := x.run tree
    (result, ⟨tree, white, black⟩)

instance : MonadLift TreeM MatchM := ⟨onTree⟩

/-- Lets the player of a side pick the next node. -/
def next (side : Side) (id : NodeId) : MatchM (NodeId × Option Slice) :=
  ExceptT.mk fun ⟨tree, white, black⟩ =>
    match side with
    | .white =>
      let (result, white, tree) := white.next tree id
      (result, ⟨tree, white, black⟩)
    | .black =>
      let (result, black, tree) := black.next tree id
      (result, ⟨tree, white, black⟩)

/-- Drops the plies above a node. -/
def advance (id : NodeId) : TreeM Unit := do
  let depth ← GameTree.depth id
  modifyThe GameTree fun tree => tree.retainFrom depth

/-- The moves from a node to the end of the game, the slices recorded on the way, and the
final node, after at most `fuel` plies. -/
def playFrom : Nat → NodeId → MatchM (List String × List Slice × NodeId)
  | 0, _ => throw (.invariant .endlessGame)
  | fuel + 1, id => do
    if (← GameTree.outcome id).isTerminal then return ([], [], id)
    let mover := (← GameTree.position id).mover
    let (child, slice) ← next mover id
    let name ← GameTree.moveNameFrom id child
    advance child
    let (moves, slices, final) ← playFrom fuel child
    return (name :: moves, slice.toList ++ slices, final)

/-- Plays from the start of the tree. -/
def play : MatchM GameRecord := do
  let start := (← getThe Match).tree.start
  let (moves, slices, final) ← playFrom maxPlies start
  modifyThe Match fun ⟨tree, white, black⟩ => ⟨tree, white.gameOver, black.gameOver⟩
  let outcome ← GameTree.outcome final
  let final ← GameTree.position final
  match TrainingInstance.ofGame final outcome slices with
  | .ok instances => return { final, outcome, moves, instances }
  | .error error => throw error

end Match

end BoardGame
