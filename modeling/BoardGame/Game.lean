import BoardGame.Rules.Validation
import BoardGame.Moves.Successors
import BoardGame.Outcome
import BoardGame.Chess.Moves
import BoardGame.Chess.Fen
/-!
# Games

A game is a rule set together with the engine that plays it. The template engine
interprets the move rules of any rule set; the chess engine knows the moves and
the end of chess itself and takes only the pieces from the rules.
-/

namespace BoardGame

inductive Engine where
  | template
  | chess
deriving DecidableEq, Inhabited

namespace Engine

def name : Engine → String
  | template => "template"
  | chess => "chess"

end Engine

namespace Chess

/-- Ply count at which a game is drawn. -/
def moveLimit : Nat := 200

/-- Number of occurrences of a position at which a game is drawn. -/
def repetitionLimit : Nat := 3

/-- Chess is played on a board of its own size. -/
def checkBoard (pos : Position) : Except EngineError Unit :=
  if pos.size = boardSize then .ok () else .error (.rule (.boardSize pos.size))

/-- Draws that do not depend on the legal moves. -/
def drawn (pos : Position) : Bool :=
  insufficientMaterial pos.board || decide (moveLimit ≤ pos.depth) ||
    pos.repetitions == repetitionLimit

/-- Outcome of a position with or without legal moves. -/
def outcome (pos : Position) (noMoves : Bool) : Outcome :=
  if noMoves then
    if moverInCheck pos then .lose else .draw
  else if drawn pos then .draw
  else .undetermined

/-- Origin and target, and a `q` for a promotion. -/
def moveName (child : Position) : String :=
  let last := child.last
  let promotion := last.piece.natAbs = Kind.pawn.code ∧ child.cell last.target ≠ last.piece
  last.origin.name ++ last.target.name ++ (if promotion then "q" else "")

end Chess

structure Game where
  rules : RuleSet
  engine : Engine
deriving DecidableEq, Inhabited

namespace Game

/-- A game with valid rules. -/
def ofRules (rules : RuleSet) (engine : Engine) : Except EngineError Game := do
  rules.validate
  return ⟨rules, engine⟩

def name (game : Game) : String :=
  game.rules.name

/-- One line that says by which rules and which engine the game is played. -/
def summary (game : Game) : String :=
  "Game \x7b rules: \"" ++ game.name ++ "\", engine: \"" ++ game.engine.name ++ "\" \x7d"

def initial (game : Game) : Except EngineError Position :=
  Position.initial game.rules

/-- Positions that the side to move can reach, in a fixed order. -/
def successors (game : Game) (pos : Position) : Except EngineError (List Position) :=
  match game.engine with
  | .template => game.rules.successors pos
  | .chess => do
    Chess.checkBoard pos
    return Chess.successors pos

/-- Whether the side to move has no successor. -/
def stuck (game : Game) (pos : Position) : Except EngineError Bool :=
  match game.engine with
  | .template => return (← game.rules.successors pos).isEmpty
  | .chess => do
    Chess.checkBoard pos
    return Chess.stuck pos

theorem stuck_eq_isEmpty (game : Game) (pos : Position) :
    game.stuck pos = List.isEmpty <$> game.successors pos := by
  unfold stuck successors
  cases game.engine with
  | template => cases game.rules.successors pos <;> rfl
  | chess => cases Chess.checkBoard pos <;> simp [Chess.stuck_eq_isEmpty]

/-- The outcome of a position, given how to find out whether it has no successor. -/
def outcomeBy {m : Type → Type} [Monad m] [MonadLiftT (Except EngineError) m] (game : Game)
    (pos : Position) (noMoves : m Bool) : m Outcome :=
  match game.engine with
  | .template => game.rules.outcome pos noMoves
  | .chess => do
    (Chess.checkBoard pos : Except EngineError Unit)
    return Chess.outcome pos (← noMoves)

def outcome (game : Game) (pos : Position) : Except EngineError Outcome :=
  game.outcomeBy pos (game.stuck pos)

/-- Name of the move that led to a position. A drop is named by its target. -/
def moveName (game : Game) (child : Position) : String :=
  match game.engine with
  | .chess => Chess.moveName child
  | .template =>
    let last := child.last
    if child.onBoard last.origin then last.origin.name ++ last.target.name
    else last.target.name

/-- Reads a position, if the engine has a notation for it. -/
def readPosition (game : Game) (text : String) : Except EngineError Position :=
  match game.engine with
  | .template => .error (.parse (.noReader game.engine.name text))
  | .chess => (Chess.Fen.read text).mapError .parse

/-- Writes a position in the notation that `readPosition` reads. -/
def positionText (game : Game) (pos : Position) : Option String :=
  match game.engine with
  | .template => none
  | .chess => if pos.size = Chess.boardSize then some (Chess.Fen.text pos) else none

end Game

end BoardGame
