import BoardGame.Occupant
import BoardGame.Square
import BoardGame.Decimal.Shortest
/-!
# Causes of failure

Every failure is a value that says what went wrong; the wording is in the
`message` functions alone.
-/

namespace BoardGame

/-- Why a piece cannot be put on a square. -/
inductive PlacementFault where
  | unreadable
  | offBoard
  | occupied
deriving DecidableEq

namespace PlacementFault

def message : PlacementFault → String
  | unreadable => "unreadable square"
  | offBoard => "off the board"
  | occupied => "square already occupied"

end PlacementFault

/-- A malformed rule set, or a rule set that does not cover what happened. -/
inductive RuleError where
  | boardSize (size : Nat)
  | tooManyPieces (count : Nat)
  | unknownPiece (name : String)
  | duplicatePiece (name : String)
  | placement (square : Square) (fault : PlacementFault)
  | template (text : String)
  | ambiguousLanding (piece : String) (occupant : Occupant)
  | virtualSwap (piece : String)
  | unknownCode (code : Int)
deriving DecidableEq

namespace RuleError

def unknownPieceText (what : String) : String :=
  s!"unknown piece name `{what}`"

def message : RuleError → String
  | boardSize size => s!"board size {size} is out of range"
  | tooManyPieces count => s!"too many piece types ({count})"
  | unknownPiece name => unknownPieceText name
  | duplicatePiece name => unknownPieceText (name ++ " (declared twice)")
  | placement square fault =>
    s!"cannot place piece at {square.x},{square.y}: {fault.message}"
  | template text => s!"bad move template `{text}`"
  | ambiguousLanding piece occupant =>
    s!"rules do not say what happens when `{piece}` lands on {occupant.label} square"
  | virtualSwap piece => s!"piece `{piece}` swaps with a virtual origin"
  | unknownCode code => s!"piece code {code} has no definition"

end RuleError

/-- What is wrong with an observation. -/
inductive ObservationFault where
  | cells (count size : Nat)
  | moveIndex (index policySize : Nat)
deriving DecidableEq

namespace ObservationFault

def message : ObservationFault → String
  | cells count size => s!"board of {count} cells for size {size}"
  | moveIndex index policySize =>
    s!"move index {index} outside policy of size {policySize}"

end ObservationFault

inductive EvaluatorError where
  /-- The answer has a policy of the wrong length or a value that is no number. -/
  | unusableAnswer (length expected : Nat) (value : Float32)
  | invalidObservation (fault : ObservationFault)
  | model (reason : String)

namespace EvaluatorError

def message : EvaluatorError → String
  | unusableAnswer length expected value =>
    s!"evaluation failed: policy of length {length} (expected {expected}), value " ++
      Decimal.ofSingle value
  | invalidObservation fault => s!"invalid observation: {fault.message}"
  | model reason => s!"model error: {reason}"

end EvaluatorError

/-- A promise that the search relies on and that did not hold. -/
inductive BrokenInvariant where
  | evictedNode (id : Nat)
  | answerCount (answers observations : Nat)
  | rolloutStuck
  | endlessGame
  | noMovesToPickFrom
  | noPick
  | undeterminedWithoutMoves
  | noChild
deriving DecidableEq

namespace BrokenInvariant

def message : BrokenInvariant → String
  | evictedNode id => s!"node {id} was evicted"
  | answerCount answers observations =>
    s!"evaluator returned {answers} results for {observations} observations"
  | rolloutStuck => "rollout reached an undetermined position without moves"
  | endlessGame => "game did not end"
  | noMovesToPickFrom => "picking a move from a position without moves"
  | noPick => "no move to pick"
  | undeterminedWithoutMoves => "undetermined position without legal moves"
  | noChild => "selection found no child to descend into"

end BrokenInvariant

/-- What is wrong with a FEN record. -/
inductive FenFault where
  | missingBoard
  | sideToMove
  | moveNumber
  | rankCount
  | unknownPiece
  | rankTooLong
  | rankLength
  | castlingRights
deriving DecidableEq

namespace FenFault

def message : FenFault → String
  | missingBoard => "missing board"
  | sideToMove => "bad side to move"
  | moveNumber => "bad move number"
  | rankCount => "wrong number of ranks"
  | unknownPiece => "unknown piece"
  | rankTooLong => "rank too long"
  | rankLength => "rank of the wrong length"
  | castlingRights => "castling rights without king and rook"

end FenFault

/-- Text that cannot be read as what it should be. -/
inductive ParseError where
  | fen (fault : FenFault) (text : String)
  | noReader (engine text : String)
  | noFormat (game : String)
  | missingArgument (what : String)
  | unknownCommand (command : String)
deriving DecidableEq

namespace ParseError

def message : ParseError → String
  | fen fault text => s!"{fault.message} in FEN `{text}`"
  | noReader engine text => s!"{engine} cannot read position `{text}`"
  | noFormat game => s!"{game} has no position format"
  | missingArgument what => s!"missing argument: {what}"
  | unknownCommand command => s!"unknown command: {command}"

end ParseError

inductive EngineError where
  | rule (error : RuleError)
  | evaluator (error : EvaluatorError)
  | invariant (broken : BrokenInvariant)
  | unknownGame (id : String)
  | illegalMove (name : String)
  | gameOver
  | gameNotOver
  | parse (error : ParseError)

namespace EngineError

def message : EngineError → String
  | rule error => "rule error: " ++ error.message
  | evaluator error => "evaluator error: " ++ error.message
  | invariant broken => "invariant violated: " ++ broken.message
  | unknownGame id => s!"unknown game `{id}`"
  | illegalMove name => s!"illegal move `{name}`"
  | gameOver => "game is over"
  | gameNotOver => "game is not over"
  | parse error => "parse error: " ++ error.message

end EngineError

/-- A failure of the rules is a failure of the game that is played by them. -/
instance : MonadLift (Except RuleError) (Except EngineError) :=
  ⟨Except.mapError EngineError.rule⟩

end BoardGame
