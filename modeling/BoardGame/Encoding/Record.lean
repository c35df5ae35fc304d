import BoardGame.Encoding.MoveIndex
import BoardGame.Outcome
/-!
# Recorded games

A search leaves a slice of statistics for each position it moves from. When the game
is over, the slices become training instances, labelled with the result.
-/

namespace BoardGame

/-- The share of a search that one move received. -/
structure MoveShare where
  index : Nat
  share : Float32

/-- What a search recorded about a position. -/
structure Slice where
  board : Board
  mover : Side
  shares : List MoveShare

/-- A recorded position with the result of its game. -/
structure TrainingInstance where
  board : Board
  mover : Side
  /-- Depth of the final position. -/
  gameLength : Nat
  /-- `1`, `-1` or `0` for a win, a loss or a draw of the mover. -/
  result : Int
  shares : List MoveShare

namespace TrainingInstance

/-- Policy vector in a frame. Moves outside of it are left out. -/
def policy (rules : RuleSet) (f : Frame) (t : TrainingInstance) : Array Float32 :=
  t.shares.foldl (fun p s => p.setIfInBounds (rules.flipIndex f s.index) s.share)
    (Array.replicate rules.policySize 0)

/-- Result of a game for one side. -/
def resultFor (winner : Option Side) (side : Side) : Int :=
  match winner with
  | none => 0
  | some w => if w = side then 1 else -1

/-- Labels the slices of a game that ended in a position with an outcome. -/
def ofGame (final : Position) (outcome : Outcome) (slices : List Slice) :
    Except EngineError (List TrainingInstance) :=
  if outcome.isTerminal then
    .ok (slices.map fun s =>
      { board := s.board
        mover := s.mover
        gameLength := final.depth
        result := resultFor (outcome.winner final.mover) s.mover
        shares := s.shares })
  else .error .gameNotOver

end TrainingInstance

end BoardGame
