import BoardGame.Random
import BoardGame.Outcome
/-!
# Choosing a move by chance

A move that wins at once is always taken, and one that loses at once is avoided. The
other moves are drawn in proportion to their weights: a fraction of the total weight
falls into the share of one move when the shares are laid end to end.
-/

namespace BoardGame

/-- What a move does for the side that makes it. -/
inductive Verdict where
  | win
  | loss
  | open
deriving DecidableEq, Inhabited

namespace Verdict

/-- Verdict on a move by `parent` to a position with `child` to move. -/
def ofOutcome (outcome : Outcome) (child parent : Side) : Verdict :=
  match outcome, decide (child = parent) with
  | .win, true | .lose, false => win
  | .lose, true | .win, false => loss
  | _, _ => .open

end Verdict

/-- Numbers by which moves are weighed. -/
class Weight (α : Type) extends Add α, Mul α where
  zero : α
  isFinite : α → Bool
  lt : α → α → Bool
  le : α → α → Bool

instance : Weight Float where
  zero := 0
  isFinite := Float.isFinite
  lt a b := a < b
  le a b := a ≤ b

namespace Sampling

variable {α : Type} [Weight α]

/-- Whether a move takes part in the draw by weight. -/
def counts (verdict : Verdict) (weight : α) : Bool :=
  verdict != .loss && Weight.isFinite weight && Weight.lt Weight.zero weight

/-- Total weight up to and with each move, from a total before the first. Moves
without a weight weigh nothing. -/
def cumulative (total : α) : List Verdict → List α → List α
  | [], _ => []
  | verdict :: verdicts, weights =>
    let weight := weights.head?.getD Weight.zero
    let total := if counts verdict weight then total + weight else total
    total :: cumulative total verdicts weights.tail

/-- The first move whose cumulative weight exceeds a point. -/
def indexAt (cumulated : List α) (point : α) : Nat :=
  min (cumulated.countP (Weight.le · point)) (cumulated.length - 1)

/-- Positions of the verdicts that have a property. -/
def indicesWhere (p : Verdict → Bool) (verdicts : List Verdict) : List Nat :=
  (verdicts.zipIdx.filter fun entry => p entry.1).map (·.2)

/-- Draws one of some indices. -/
def drawFrom (indices : List Nat) : RandomM Nat := do
  return indices.getD (← Generator.below indices.length) 0

/-- Chooses a move; there is none to choose if there are no moves. `fraction` draws a
number from zero to below one. Without any weight all moves that do not lose are
equally likely, or all moves if every one loses. -/
def pickBy (fraction : RandomM α) (verdicts : List Verdict) (weights : List α) :
    RandomM (Option Nat) := do
  if verdicts.isEmpty then return none
  let wins := indicesWhere (· == .win) verdicts
  if !wins.isEmpty then return some (← drawFrom wins)
  let cumulated := cumulative Weight.zero verdicts weights
  let total := cumulated.getLastD Weight.zero
  if Weight.lt Weight.zero total && Weight.isFinite total then
    return some (indexAt cumulated ((← fraction) * total))
  let safe := indicesWhere (· != .loss) verdicts
  if safe.isEmpty then return some (← Generator.below verdicts.length)
  return some (← drawFrom safe)

end Sampling

/-- Chooses a move by weights of double precision. -/
def pickIndex (verdicts : List Verdict) (weights : List Float) : RandomM (Option Nat) :=
  Sampling.pickBy Generator.double verdicts weights

/-- Index of the first greatest number, the numbers from `i` on being compared with the
best so far. Numbers that cannot be compared never replace it. -/
def firstGreatestFrom (best : Nat) (value : Float) (i : Nat) : List Float → Nat
  | [] => best
  | x :: rest =>
    if value < x then firstGreatestFrom i x (i + 1) rest
    else firstGreatestFrom best value (i + 1) rest

/-- Weights for a distribution of moves at a temperature. Without a positive
temperature the first most likely move has all the weight. -/
def temperatureWeights (policy : List Float) (temperature : Float) : List Float :=
  if temperature ≤ 0 then
    match policy with
    | [] => []
    | x :: rest =>
      let best := firstGreatestFrom 0 x 1 rest
      (List.range policy.length).map fun i => if i = best then 1 else 0
  else policy.map fun p => p.pow (1 / temperature)

/-- Weights scaled to the sum one, or equal shares if they sum to nothing. -/
def normalize (weights : List Float) : List Float :=
  let total := (weights.filter Float.isFinite).foldl (· + ·) 0
  if 0 < total then weights.map fun w => if w.isFinite then w / total else 0
  else weights.map fun _ => 1 / Float.ofNat (max weights.length 1)

end BoardGame
