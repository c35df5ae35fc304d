import BoardGame.Rules.Basic
/-!
# Built-in rule sets

- `ticTacToe`: 3x3, pieces dropped anywhere, three in a row wins;
- `connectFour`: 7x7, pieces dropped from the bottom edge, four in a row wins;
- `othello`: 8x8, outflanked pieces change sides, most pieces win;
- `chess`: 8x8, chess by templates, won by capturing the king;
- `fullChess`: the pieces of chess for an engine that knows the moves itself.
-/

namespace BoardGame.BuiltIn

/-- Lands on empty squares only. -/
def quiet : SquarePolicy := { empty := .allowed }

/-- Lands on opponents only and captures them. -/
def take : SquarePolicy := { opponent := .capture }

def quietOrTake : SquarePolicy := { empty := .allowed, opponent := .capture }

/-- Passes over empty squares only. -/
def slide : SquarePolicy := { empty := .allowed }

/-- Passes over anything. -/
def leap : SquarePolicy := ⟨.allowed, .allowed, .allowed⟩

/-- Squares straight ahead. -/
def ahead (n : Nat) : List Template :=
  [⟨.union, .forward, n⟩, ⟨.intersect, .plus, n⟩]

/-- Squares ahead on the diagonals. -/
def aheadDiagonally (n : Nat) : List Template :=
  [⟨.union, .forward, n⟩, ⟨.intersect, .cross, n⟩]

def ticTacToe : RuleSet where
  name := "tictactoe"
  boardSize := 3
  symmetry := .shared
  moveSource := .ends
  pieces := [
    { name := "X"
      moves := [{ templates := ahead 0, land := { empty := .deploy }, jump := leap }] }]
  endings := [⟨.nInARow, 3, .win⟩, ⟨.boardFull, 0, .draw⟩]

def connectFour : RuleSet where
  name := "connect4"
  boardSize := 7
  symmetry := .shared
  moveSource := .ends
  pieces := [
    { name := "O"
      moves := [{ templates := ahead 0
                  land := { empty := .deploy }
                  jump := { own := .allowed, opponent := .allowed } }] }]
  endings := [⟨.nInARow, 4, .win⟩, ⟨.boardFull, 0, .draw⟩]

/-- The lines from a square, its neighbours left out. -/
def farLines : List Template :=
  [⟨.union, .plus, 0⟩, ⟨.union, .cross, 0⟩, ⟨.subtract, .square, 1⟩]

/-- Passes over opponents only and turns them. -/
def turnOpponents : SquarePolicy := { opponent := .impress }

/-- Othello with a helper piece. A placement turns the pieces it outflanks in one
direction and leaves a helper `P2` without passing the turn. The helper turns
every other outflanked line, one line per move, and then becomes a plain `P1`,
which passes the turn. -/
def othello : RuleSet where
  name := "othello"
  boardSize := 8
  symmetry := .shared
  moveSource := .piecesOnBoard
  pieces := [
    { name := "P1"
      placements := [⟨3, 3⟩, ⟨4, 4⟩]
      moves := [{ templates := farLines
                  land := { empty := .deploy }
                  jump := turnOpponents
                  exchange := some "P2"
                  continues := true
                  priority := 1 }] },
    { name := "P2"
      moves := [
        { templates := farLines
          land := { own := .stay }
          jump := turnOpponents
          continues := true
          priority := 3 },
        { templates := [⟨.union, .pass, 0⟩]
          land := { own := .stay }
          exchange := some "P1"
          priority := 2 }] }]
  endings := [⟨.noLegalMove, 0, .countLivePieces⟩]

/-- Rank `n` from the back edge of the side that moves. -/
def onRank (n : Nat) : Template := ⟨.intersect, .rank, n⟩

def offRank (n : Nat) : Template := ⟨.subtract, .rank, n⟩

def pawnMoves : List MoveRule := [
  { templates := ahead 1 ++ [offRank 8], land := quiet },
  { templates := ahead 1 ++ [onRank 8], land := quiet, exchange := some "Q" },
  { templates := ahead 2 ++ [⟨.subtract, .square, 1⟩, onRank 4], land := quiet, jump := slide },
  { templates := aheadDiagonally 1 ++ [offRank 8], land := take },
  { templates := aheadDiagonally 1 ++ [onRank 8], land := take, exchange := some "Q" }]

def knightMoves : List MoveRule := [
  { templates := [⟨.union, .square, 2⟩, ⟨.subtract, .plus, 2⟩, ⟨.subtract, .cross, 2⟩]
    land := quietOrTake
    jump := leap }]

/-- Moves along free lines. -/
def sliderMoves (templates : List Template) : List MoveRule :=
  [{ templates := templates, land := quietOrTake, jump := slide }]

/-- The squares of the first rank in the given columns. -/
def firstRank (columns : List Int) : List Square :=
  columns.map fun x => ⟨x, 0⟩

/-- The squares of the second rank. -/
def secondRank : List Square :=
  (List.range 8).map fun (x : Nat) => ⟨x, 1⟩

/-- Chess by templates, without check, castling or en passant. -/
def chess : RuleSet where
  name := "chess"
  boardSize := 8
  symmetry := .flip
  moveSource := .piecesOnBoard
  pieces := [
    { name := "P", placements := secondRank, moves := pawnMoves },
    { name := "N", placements := firstRank [1, 6], moves := knightMoves },
    { name := "B", placements := firstRank [2, 5], moves := sliderMoves [⟨.union, .cross, 0⟩] },
    { name := "R", placements := firstRank [0, 7], moves := sliderMoves [⟨.union, .plus, 0⟩] },
    { name := "Q"
      placements := firstRank [3]
      moves := sliderMoves [⟨.union, .plus, 0⟩, ⟨.union, .cross, 0⟩] },
    { name := "K"
      min := 1
      placements := firstRank [4]
      moves := sliderMoves [⟨.union, .square, 1⟩] }]
  endings := [
    ⟨.keyPiecesCaptured, 0, .win⟩, ⟨.repeatedPosition, 3, .draw⟩, ⟨.moveLimit, 200, .draw⟩,
    ⟨.noLegalMove, 0, .draw⟩]

/-- Pieces of chess with castling rights: a rook and a king that have not moved are
types of their own. -/
def fullChess : RuleSet where
  name := "chess2"
  boardSize := 8
  symmetry := .flip
  moveSource := .piecesOnBoard
  pieces := [
    { name := "P", placements := secondRank },
    { name := "N", placements := firstRank [1, 6] },
    { name := "B", placements := firstRank [2, 5] },
    { name := "R" },
    { name := "Q", placements := firstRank [3] },
    { name := "K" },
    { name := "R'", placements := firstRank [0, 7] },
    { name := "K'", placements := firstRank [4] }]

end BoardGame.BuiltIn
