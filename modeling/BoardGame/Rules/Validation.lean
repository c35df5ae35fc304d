import BoardGame.Rules.Basic
/-!
# Validation

A rule set is valid when its board has a supported size, its piece types can all
be told apart by code and by name, and every move rule says what happens on each
kind of square that it allows the piece to land on.
-/

namespace BoardGame

/-- What landing may do to an empty square. -/
def Disposition.settlesEmpty : Disposition → Bool
  | .disallowed | .allowed | .deploy => true
  | _ => false

/-- What landing may do to an occupied square. -/
def Disposition.settlesOccupied : Disposition → Bool
  | .disallowed | .capture | .swap | .stay => true
  | _ => false

namespace RuleSet

/-- Checks the landing policy for one kind of occupied square. -/
def validateOccupied (rules : RuleSet) (piece : PieceType) (move : MoveRule)
    (occupant : Occupant) : Except RuleError Unit :=
  let disposition := move.land.get occupant
  if !disposition.settlesOccupied then
    .error (.ambiguousLanding piece.name occupant)
  else if disposition = .swap ∧ rules.moveSource = .ends then
    .error (.virtualSwap piece.name)
  else .ok ()

def validateExchange (rules : RuleSet) (move : MoveRule) : Except RuleError Unit :=
  match move.exchange with
  | none => .ok ()
  | some name => (rules.codeOf name).map fun _ => ()

def validateMove (rules : RuleSet) (piece : PieceType) (move : MoveRule) :
    Except RuleError Unit := do
  rules.validateExchange move
  if !move.land.empty.settlesEmpty then
    throw (.ambiguousLanding piece.name .empty)
  rules.validateOccupied piece move .own
  rules.validateOccupied piece move .opponent

/-- Checks the piece types in order; `seen` are the names declared before. -/
def validatePieces (rules : RuleSet) : List String → List PieceType → Except RuleError Unit
  | _, [] => .ok ()
  | seen, piece :: rest => do
    if seen.contains piece.name then
      throw (.duplicatePiece piece.name)
    piece.moves.forM (rules.validateMove piece)
    rules.validatePieces (seen ++ [piece.name]) rest

def validate (rules : RuleSet) : Except RuleError Unit := do
  if rules.boardSize = 0 ∨ maxBoardSize < rules.boardSize then
    throw (.boardSize rules.boardSize)
  if maxPieceTypes < rules.pieces.length then
    throw (.tooManyPieces rules.pieces.length)
  rules.validatePieces [] rules.pieces

end RuleSet

end BoardGame
