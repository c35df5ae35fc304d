import BoardGame.Encoding.MoveIndex
/-!
# Evaluators

An evaluator scores positions for the side to move and gives every move a
probability. It sees several observations at once and may fail.
-/

namespace BoardGame

/-- A position as an evaluator sees it. -/
structure Observation where
  board : Board
  size : Nat
  mover : Side
  /-- Indices of the legal moves. -/
  legal : List Nat
  /-- Length of the policy that is asked for. -/
  policySize : Nat
deriving DecidableEq

namespace Observation

/-- A position with the given legal moves as it is seen in a frame. -/
def ofPosition (rules : RuleSet) (pos : Position) (legal : List Nat) (f : Frame) : Observation where
  board := f.board pos.size pos.board
  size := pos.size
  mover := f.side pos.mover
  legal := legal.map (rules.flipIndex f)
  policySize := rules.policySize

end Observation

structure Evaluation where
  /-- A probability for each move index. -/
  policy : Array Float32
  /-- From `-1`, a loss of the side to move, to `1`, a win. -/
  value : Float32

structure Evaluator where
  evaluate : List Observation → Except EvaluatorError (List Evaluation)

namespace Evaluator

/-- Evaluates one observation after the other and stops at the first failure. -/
def pointwise (evaluate : Observation → Except EvaluatorError Evaluation) : Evaluator :=
  ⟨fun observations => observations.mapM evaluate⟩

/-- Writes the same probability for each of the given moves. -/
def spread (policySize : Nat) (share : Float32) (policy : Array Float32) (index : Nat) :
    Except EvaluatorError (Array Float32) :=
  if index < policy.size then .ok (policy.setIfInBounds index share)
  else .error (.invalidObservation (.moveIndex index policySize))

/-- Equal probabilities for the legal moves and an even value. -/
def uniformAt (o : Observation) : Except EvaluatorError Evaluation := do
  if o.board.size ≠ o.size * o.size then
    throw (.invalidObservation (.cells o.board.size o.size))
  let share := 1 / Float32.ofNat o.legal.length
  let policy ← o.legal.foldlM (spread o.policySize share) (Array.replicate o.policySize 0)
  return ⟨policy, 0⟩

def uniform : Evaluator :=
  pointwise uniformAt

end Evaluator

end BoardGame
