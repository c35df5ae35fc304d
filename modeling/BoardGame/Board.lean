import BoardGame.Square
import BoardGame.Side
/-!
# Boards

A board is a flat array of signed piece codes. Its hash is the 64-bit FNV-1a
hash of the codes written as bytes.
-/

namespace BoardGame

abbrev Board := Array Int

namespace Board

/-- An empty board of edge `size`. -/
def clear (size : Nat) : Board :=
  Array.replicate (size * size) 0

/-- Code at a square of a board of edge `size`; cells that do not exist are empty. -/
def read (board : Board) (size : Nat) (s : Square) : Int :=
  board[s.index size]?.getD 0

/-- Writes a code at a square of a board of edge `size`. -/
def write (board : Board) (size : Nat) (s : Square) (code : Int) : Board :=
  board.setIfInBounds (s.index size) code

/-- One step of the hash. -/
def absorb (h : UInt64) (code : Int) : UInt64 :=
  (h ^^^ UInt64.ofNat (code % 256).toNat) * 0x100000001b3

def hash (board : Board) : UInt64 :=
  board.foldl absorb 0xcbf29ce484222325

def emptyCells (board : Board) : Nat :=
  board.count 0

/-- Number of pieces of `side` with type code `code`. -/
def countOf (board : Board) (side : Side) (code : Nat) : Nat :=
  board.count (side.sign * code)

/-- Numbers of pieces of `side`, by type code from zero to `types`. -/
def pieceCounts (board : Board) (side : Side) (types : Nat) : List Nat :=
  (List.range (types + 1)).map fun code => if code = 0 then 0 else board.countOf side code

end Board

end BoardGame
