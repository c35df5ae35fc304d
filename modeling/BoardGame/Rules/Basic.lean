import BoardGame.Side
import BoardGame.Error
import BoardGame.Rules.Template
/-!
# Rule sets

A rule set declares piece types and the ways they move, and lists the conditions
that end the game. Piece codes are signed bytes: type number `i`, counted from
zero, has code `i + 1` for white and its negative for black, and zero is an
empty square.
-/

namespace BoardGame

/-- How black's frame of reference relates to white's. -/
inductive Symmetry where
  /-- Forward is up the board for both sides. -/
  | shared
  /-- Black sees the board turned by half a turn. -/
  | rotate
  /-- Black sees the board turned top to bottom, with the columns kept. -/
  | flip
deriving DecidableEq, Inhabited

namespace Symmetry

/-- Whether black's forward direction and back rank are flipped. -/
def flipsBlack : Symmetry → Bool
  | shared => false
  | rotate | flip => true

end Symmetry

/-- Where moving pieces come from. -/
inductive MoveSource where
  /-- Every piece of the side to move. -/
  | piecesOnBoard
  /-- Virtual pieces below and above the board, one per column and type. -/
  | ends
deriving DecidableEq, Inhabited

/-- What happens to a square, or whether it may be entered at all. -/
inductive Disposition where
  | disallowed
  | allowed
  | capture
  | swap
  | stay
  | deploy
  | impress
deriving DecidableEq, Inhabited

/-- One disposition for each kind of occupant. -/
structure SquarePolicy where
  empty : Disposition := .disallowed
  own : Disposition := .disallowed
  opponent : Disposition := .disallowed
deriving DecidableEq, Inhabited

namespace SquarePolicy

def get (p : SquarePolicy) : Occupant → Disposition
  | .empty => p.empty
  | .own => p.own
  | .opponent => p.opponent

end SquarePolicy

/-- One way a piece type may move. -/
structure MoveRule where
  templates : List Template
  land : SquarePolicy := {}
  jump : SquarePolicy := {}
  /-- Name of the piece the mover turns into after landing. -/
  exchange : Option String := none
  /-- The same side moves again afterwards. -/
  continues : Bool := false
  priority : Int := 0
deriving DecidableEq, Inhabited

structure PieceType where
  name : String
  /-- A side with fewer of these pieces has lost them (`EndCondition.keyPiecesCaptured`). -/
  min : Nat := 0
  /-- White's starting squares; black's follow from them. -/
  placements : List Square := []
  moves : List MoveRule := []
deriving DecidableEq, Inhabited

inductive EndCondition where
  | noLegalMove
  | moveLimit
  | boardFull
  | keyPiecesCaptured
  | noPiecesOnBoard
  | nInARow
  | repeatedPosition
deriving DecidableEq, Inhabited

/-- How a condition is scored for the side to move. -/
inductive Decision where
  | win
  | loss
  | draw
  | countLivePieces
deriving DecidableEq, Inhabited

structure EndRule where
  condition : EndCondition
  param : Nat
  decision : Decision
deriving DecidableEq, Inhabited

structure RuleSet where
  name : String
  boardSize : Nat
  symmetry : Symmetry
  moveSource : MoveSource
  pieces : List PieceType := []
  /-- Checked in order; the first that applies decides the game. -/
  endings : List EndRule := []
deriving DecidableEq, Inhabited

/-- Largest board edge. -/
def maxBoardSize : Nat := 32

/-- Largest number of piece types whose codes are distinct and positive. -/
def maxPieceTypes : Nat := 127

/-- Code of the piece type with number `i`. -/
def pieceCode (i : Nat) : Int :=
  Int.bmod (i + 1) 256

namespace RuleSet

/-- Number of squares. -/
def area (rules : RuleSet) : Nat :=
  rules.boardSize * rules.boardSize

/-- The board's edge as a coordinate. -/
def edge (rules : RuleSet) : Int :=
  Square.coordinate rules.boardSize

/-- Columns of the board, which are also its ranks, as far as coordinates reach. -/
def lines (rules : RuleSet) : List Nat :=
  List.range rules.edge.toNat

/-- Definition behind a signed piece code. -/
def pieceType? (rules : RuleSet) (code : Int) : Option PieceType :=
  if code = 0 then none else rules.pieces[code.natAbs - 1]?

def pieceType (rules : RuleSet) (code : Int) : Except RuleError PieceType :=
  match rules.pieceType? code with
  | some piece => .ok piece
  | none => .error (.unknownCode code)

/-- White's code of the first piece type with this name. -/
def codeOf? (rules : RuleSet) (name : String) : Option Int :=
  (rules.pieces.findIdx? (·.name == name)).map pieceCode

def codeOf (rules : RuleSet) (name : String) : Except RuleError Int :=
  match rules.codeOf? name with
  | some code => .ok code
  | none => .error (.unknownPiece name)

end RuleSet

end BoardGame
