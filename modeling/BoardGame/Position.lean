import BoardGame.Board
import BoardGame.Rules.Construction
import BoardGame.Text.Blank
/-!
# Positions

A position is a board with the side to move, the move that led to it, its depth
in plies and the hashes of the last sixteen boards. The hash of the board at
depth `d` is kept in slot `d % 16`, so that each new board replaces the oldest.
-/

namespace BoardGame

/-- The move that produced a position. -/
structure LastMove where
  piece : Int
  origin : Square
  target : Square
deriving DecidableEq, Inhabited

/-- Stands for the move into a position that no move produced. -/
def LastMove.absent : LastMove := ⟨0, .nowhere, .nowhere⟩

/-- Number of boards whose hashes are remembered. -/
def historyLength : Nat := 16

/-- Depths are counted up to this and no further. -/
def maxDepth : Nat := 65535

structure Position where
  board : Board
  size : Nat
  mover : Side
  last : LastMove
  depth : Nat
  history : Vector UInt64 historyLength
deriving DecidableEq

namespace Position

/-- History slot of a depth. -/
def slot (depth : Nat) : Fin historyLength :=
  ⟨depth % historyLength, Nat.mod_lt _ (by decide)⟩

/-- A position that remembers no board but its own. -/
def ofBoard (size : Nat) (board : Board) (mover : Side) (last : LastMove) (depth : Nat) :
    Position where
  board := board
  size := size
  mover := mover
  last := last
  depth := depth
  history := (Vector.replicate historyLength 0).set (slot depth) board.hash

/-- The position one move later. -/
def successor (pos : Position) (board : Board) (mover : Side) (last : LastMove) : Position :=
  let depth := min (pos.depth + 1) maxDepth
  { board := board
    size := pos.size
    mover := mover
    last := last
    depth := depth
    history := pos.history.set (slot depth) board.hash }

@[simp] theorem successor_board (pos : Position) (board : Board) (mover : Side)
    (last : LastMove) : (pos.successor board mover last).board = board := rfl

@[simp] theorem successor_size (pos : Position) (board : Board) (mover : Side)
    (last : LastMove) : (pos.successor board mover last).size = pos.size := rfl

@[simp] theorem successor_mover (pos : Position) (board : Board) (mover : Side)
    (last : LastMove) : (pos.successor board mover last).mover = mover := rfl

@[simp] theorem successor_last (pos : Position) (board : Board) (mover : Side)
    (last : LastMove) : (pos.successor board mover last).last = last := rfl

@[simp] theorem successor_depth (pos : Position) (board : Board) (mover : Side)
    (last : LastMove) :
    (pos.successor board mover last).depth = min (pos.depth + 1) maxDepth := rfl

/-- Hash of the board. -/
def hash (pos : Position) : UInt64 :=
  pos.history[slot pos.depth]

/-- Number of remembered boards, this one included, with the hash of this board. -/
def repetitions (pos : Position) : Nat :=
  pos.history.toArray.count pos.hash

def onBoard (pos : Position) (s : Square) : Bool :=
  s.onBoard pos.size

/-- Code of a cell, wherever the square lies. -/
def read (pos : Position) (s : Square) : Int :=
  pos.board.read pos.size s

/-- Code at a square; squares off the board read as empty. -/
def cell (pos : Position) (s : Square) : Int :=
  if pos.onBoard s then pos.read s else 0

/-- Puts a piece on an empty square. -/
def place (size : Nat) (board : Board) (s : Square) (code : Int) : Except RuleError Board :=
  if !s.onBoard size then .error (.placement s .offBoard)
  else if board.read size s ≠ 0 then .error (.placement s .occupied)
  else .ok (board.write size s code)

/-- Black's starting square that answers to white's. -/
def answering (rules : RuleSet) (s : Square) : Square :=
  let top := rules.edge - 1
  ⟨if rules.symmetry = .rotate then top - s.x else s.x, top - s.y⟩

/-- Puts a white piece on a square and a black one on the square that answers to it. -/
def placePair (rules : RuleSet) (code : Int) (board : Board) (s : Square) :
    Except RuleError Board := do
  let board ← place rules.boardSize board s code
  place rules.boardSize board (answering rules s) (-code)

def placeType (rules : RuleSet) (board : Board) : PieceType × Nat → Except RuleError Board
  | (piece, i) => piece.placements.foldlM (placePair rules (pieceCode i)) board

/-- The starting position: white's pieces on their starting squares and black's on
the squares that answer to them, white to move. -/
def initial (rules : RuleSet) : Except RuleError Position := do
  let board ← rules.pieces.zipIdx.foldlM (placeType rules) (Board.clear rules.boardSize)
  return ofBoard rules.boardSize board .white .absent 0

/-- Pieces of one side to be set up: a piece name and its squares, with commas
between them. -/
abbrev Placement := String × String

/-- Puts one side's pieces of one name on their squares. -/
def placeNamed (rules : RuleSet) (side : Side) (board : Board) (placement : Placement) :
    Except RuleError Board := do
  let code ← rules.codeOf placement.1
  let names := (placement.2.splitOn ",").filter (· ≠ "")
  names.foldlM (fun board name => do
    let square ← Square.ofName (Text.trim name.toList)
    place rules.boardSize board square (code * side.sign)) board

/-- A position with the given pieces. -/
def setup (rules : RuleSet) (white black : List Placement) (mover : Side) (depth : Nat) :
    Except RuleError Position := do
  let board ← white.foldlM (placeNamed rules .white) (Board.clear rules.boardSize)
  let board ← black.foldlM (placeNamed rules .black) board
  return ofBoard rules.boardSize board mover .absent depth

end Position

end BoardGame
