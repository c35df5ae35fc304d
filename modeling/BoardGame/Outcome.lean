import BoardGame.Position
/-!
# Outcomes

The conditions of a rule set that end the game are looked at in order, and the
first that holds decides it. An outcome is seen from the side to move.
-/

namespace BoardGame

inductive Outcome where
  | undetermined
  | win
  | lose
  | draw
deriving DecidableEq, Inhabited

namespace Outcome

def isTerminal (o : Outcome) : Bool :=
  o != undetermined

/-- The winning side, if the game is decided and `mover` is to move. -/
def winner (o : Outcome) (mover : Side) : Option Side :=
  match o with
  | win => some mover
  | lose => some mover.opponent
  | undetermined | draw => none

/-- The outcome that a win of `winner` is for `mover`. -/
def ofWinner (winner mover : Side) : Outcome :=
  if winner = mover then win else lose

end Outcome

/-- Directions in which pieces line up: up, right and the two diagonals. -/
def lineDirections : List Square :=
  [⟨0, 1⟩, ⟨1, 0⟩, ⟨1, 1⟩, ⟨1, -1⟩]

namespace Position

/-- Sum of the signs of the `n` cells from a square in a direction. -/
def lineSum (pos : Position) (start dir : Square) : Nat → Int
  | 0 => 0
  | n + 1 => (pos.cell start).sign + pos.lineSum (start + dir) dir n

/-- Sums of all lines of length `n`. Squares off the board are empty, so a line
need not be followed for longer than the board's edge. -/
def lineSums (pos : Position) (n : Nat) : List Int :=
  (List.range pos.size).flatMap fun (y : Nat) =>
    (List.range pos.size).flatMap fun (x : Nat) =>
      lineDirections.map fun dir => pos.lineSum ⟨x, y⟩ dir (min n pos.size)

/-- Greatest surplus of white's and of black's pieces in a line of length `n`. A
surplus of `n` is a line that one side holds alone. -/
def longestRuns (pos : Position) (n : Int) : Int × Int :=
  let sums := pos.lineSums n.toNat
  (sums.foldl max 0, -sums.foldl min 0)

/-- Number of pieces of `side` whose codes have a definition. -/
def liveCount (rules : RuleSet) (pos : Position) (side : Side) : Nat :=
  (pos.board.pieceCounts side rules.pieces.length).foldr (· + ·) 0

end Position

namespace RuleSet

def decide (rules : RuleSet) (pos : Position) (decision : Decision) : Outcome :=
  match decision with
  | .win => .win
  | .loss => .lose
  | .draw => .draw
  | .countLivePieces =>
    match compare (pos.liveCount rules .white) (pos.liveCount rules .black) with
    | .eq => .draw
    | .gt => .ofWinner .white pos.mover
    | .lt => .ofWinner .black pos.mover

/-- Decides for the side that still has enough of each key piece: the types are
looked at in order, and white's loss comes before black's. -/
def keyPiecesOutcome (pos : Position) : List (PieceType × Nat) → Option Outcome
  | [] => none
  | (piece, i) :: rest =>
    if pos.board.countOf .white (i + 1) < piece.min then some (.ofWinner .black pos.mover)
    else if pos.board.countOf .black (i + 1) < piece.min then some (.ofWinner .white pos.mover)
    else keyPiecesOutcome pos rest

/-- Decides against a side without pieces. -/
def noPiecesOutcome (rules : RuleSet) (pos : Position) : Option Outcome :=
  if pos.liveCount rules .white = 0 then some (.ofWinner .black pos.mover)
  else if pos.liveCount rules .black = 0 then some (.ofWinner .white pos.mover)
  else none

/-- Decides for a side with a line of `n` pieces, white first. -/
def lineOutcome (pos : Position) (n : Int) : Option Outcome :=
  let runs := pos.longestRuns n
  if n ≤ runs.1 then some (.ofWinner .white pos.mover)
  else if n ≤ runs.2 then some (.ofWinner .black pos.mover)
  else none

/-- The outcome of a condition, if it holds. `noMoves` says whether the side to move
has no successor, and is asked only where a condition is about that. The length
of a line is the parameter read as a signed 32-bit word. -/
def endOutcome {m : Type → Type} [Monad m] (rules : RuleSet) (pos : Position)
    (noMoves : m Bool) (ending : EndRule) : m (Option Outcome) :=
  match ending.condition with
  | .noLegalMove => do
    if ← noMoves then return some (rules.decide pos ending.decision) else return none
  | .moveLimit =>
    return if ending.param < pos.depth then some (rules.decide pos ending.decision) else none
  | .boardFull =>
    return if pos.board.emptyCells = 0 then some (rules.decide pos ending.decision) else none
  | .keyPiecesCaptured => return keyPiecesOutcome pos rules.pieces.zipIdx
  | .noPiecesOnBoard => return rules.noPiecesOutcome pos
  | .nInARow => return lineOutcome pos (Int.bmod ending.param 0x100000000)
  | .repeatedPosition => return if ending.param ≤ pos.repetitions then some .draw else none

/-- The outcome of the first ending that applies. -/
def firstOutcome {m : Type → Type} [Monad m] (rules : RuleSet) (pos : Position)
    (noMoves : m Bool) : List EndRule → m Outcome
  | [] => return .undetermined
  | ending :: rest => do
    match ← rules.endOutcome pos noMoves ending with
    | some outcome => return outcome
    | none => rules.firstOutcome pos noMoves rest

def outcome {m : Type → Type} [Monad m] (rules : RuleSet) (pos : Position)
    (noMoves : m Bool) : m Outcome :=
  rules.firstOutcome pos noMoves rules.endings

end RuleSet

end BoardGame
