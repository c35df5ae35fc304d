import BoardGame.Search.Sampling
import BoardGame.Game
/-!
# Rollouts

A rollout plays a game to its end by chance, taking wins and avoiding losses that are
one move away.
-/

namespace BoardGame

/-- Computations that draw random numbers and may fail. -/
abbrev ChanceM := ExceptT EngineError RandomM

/-- Value of an outcome for the side to move. -/
def Outcome.value : Outcome → Float32
  | .win => 1
  | .lose => -1
  | .draw | .undetermined => 0

/-- Scale of the random values that break ties between positions not yet visited. -/
def valueJitter : Float32 := 0.0001

/-- First value of a position: its result, or a tiny random number. -/
def initialValue (outcome : Outcome) : RandomM Float32 :=
  match outcome with
  | .undetermined => return (← Generator.single) * valueJitter
  | decided => return decided.value

namespace Rollout

/-- Plies after which a rollout is given up: they are counted with 32 bits. -/
def maxPlies : Nat := 0x100000000

/-- Verdicts on the moves to the given positions. -/
def verdicts (game : Game) (mover : Side) (children : List Position) :
    Except EngineError (List Verdict) :=
  children.mapM fun child =>
    return Verdict.ofOutcome (← game.outcome child) child.mover mover

/-- Plays at most `fuel` plies. -/
def playFrom (game : Game) : Nat → Position → ChanceM (Side × Outcome)
  | 0, _ => throw (.invariant .endlessGame)
  | fuel + 1, pos => do
    let outcome ← game.outcome pos
    if outcome.isTerminal then
      return (pos.mover, outcome)
    let children ← game.successors pos
    let verdicts ← verdicts game pos.mover children
    let pick ← pickIndex verdicts (children.map fun _ => 1)
    match pick.bind (children[·]?) with
    | some child => playFrom game fuel child
    | none => throw (.invariant .rolloutStuck)

end Rollout

/-- The side to move at the end of a rollout and the outcome there. -/
def rollout (game : Game) (pos : Position) : ChanceM (Side × Outcome) :=
  Rollout.playFrom game Rollout.maxPlies pos

end BoardGame
