import BoardGame.Position
/-!
# Pieces and attacks of chess

Codes one to six are the usual pieces. A rook and a king that have not moved yet
have codes of their own, seven and eight; this is how castling rights are kept.

An attack on a square is looked for outward from the square: along each of the
eight directions the first piece decides, and knights are looked for at their
jumps.
-/

namespace BoardGame.Chess

inductive Kind where
  | pawn
  | knight
  | bishop
  | rook
  | queen
  | king
  | unmovedRook
  | unmovedKing
deriving DecidableEq, Inhabited

namespace Kind

def code : Kind → Int
  | pawn => 1
  | knight => 2
  | bishop => 3
  | rook => 4
  | queen => 5
  | king => 6
  | unmovedRook => 7
  | unmovedKing => 8

def all : List Kind :=
  [pawn, knight, bishop, rook, queen, king, unmovedRook, unmovedKing]

/-- The kind of a piece of either side, by its code without the sign. -/
def ofCode? (code : Int) : Option Kind :=
  all.find? (·.code == code)

def isKing : Kind → Bool
  | king | unmovedKing => true
  | _ => false

theorem ofCode?_code (k : Kind) : ofCode? k.code = some k := by
  cases k <;> rfl

end Kind

/-- Edge of the board. -/
def boardSize : Nat := 8

def orthogonals : List Square := [⟨1, 0⟩, ⟨0, 1⟩, ⟨-1, 0⟩, ⟨0, -1⟩]

def diagonals : List Square := [⟨1, 1⟩, ⟨1, -1⟩, ⟨-1, 1⟩, ⟨-1, -1⟩]

def knightJumps : List Square :=
  [⟨-1, -2⟩, ⟨1, -2⟩, ⟨-1, 2⟩, ⟨1, 2⟩, ⟨-2, -1⟩, ⟨2, -1⟩, ⟨-2, 1⟩, ⟨2, 1⟩]

/-- Code at a square; squares off the board read as empty. -/
def look (board : Board) (s : Square) : Int :=
  if s.onBoard boardSize then board.read boardSize s else 0

/-- The first occupied square within `n` steps from a square in a direction. -/
def firstOccupied? (board : Board) (s dir : Square) : Nat → Option Square
  | 0 => none
  | n + 1 =>
    let next := s + dir
    if !next.onBoard boardSize then none
    else if board.read boardSize next ≠ 0 then some next
    else firstOccupied? board next dir n

/-- Sign of the pieces that attack what stands on a square. What attacks an empty
square is white. -/
def attackerSign (board : Board) (s : Square) : Int :=
  if 0 < look board s then -1 else 1

/-- Whether a piece of this kind, met first in a direction from a square, attacks the
square. A pawn attacks only the squares diagonally ahead of it. -/
def Kind.attacksAlong (k : Kind) (dir : Square) (adjacent : Bool) (sign : Int) : Bool :=
  if dir.x ≠ 0 ∧ dir.y ≠ 0 then
    match k with
    | .queen | .bishop => true
    | .king | .unmovedKing => adjacent
    | .pawn => adjacent && dir.y.sign != sign
    | _ => false
  else
    match k with
    | .queen | .rook | .unmovedRook => true
    | .king | .unmovedKing => adjacent
    | _ => false

/-- Whether the piece on a square is attacked along a direction. -/
def attackedAlong (board : Board) (s dir : Square) : Bool :=
  let sign := attackerSign board s
  match firstOccupied? board s dir boardSize with
  | none => false
  | some found =>
    match Kind.ofCode? (board.read boardSize found * sign) with
    | none => false
    | some k => k.attacksAlong dir (found == s + dir) sign

/-- Whether a knight attacks the piece on a square. -/
def attackedByKnight (board : Board) (s : Square) : Bool :=
  let knight := Kind.knight.code * attackerSign board s
  knightJumps.any fun jump => look board (s + jump) == knight

/-- Whether the piece on a square is attacked. -/
def attacked (board : Board) (s : Square) : Bool :=
  (orthogonals ++ diagonals).any (attackedAlong board s) || attackedByKnight board s

/-- Whether the king on the given square is in check. Without a king there is no
check. -/
def inCheck (board : Board) : Option Square → Bool
  | none => false
  | some king => attacked board king

/-- The first square with a king of `side`. -/
def kingSquare? (board : Board) (side : Side) : Option Square :=
  (board.findIdx? fun code =>
    code == Kind.king.code * side.sign || code == Kind.unmovedKing.code * side.sign).map
      (Square.ofIndex boardSize)

/-- Whether the side to move is in check. -/
def moverInCheck (pos : Position) : Bool :=
  inCheck pos.board (kingSquare? pos.board pos.mover)

/-- Whether neither side can mate: no pawn, rook or queen and at most one bishop or
knight is left. -/
def insufficientMaterial (board : Board) : Bool :=
  let kinds := board.toList.map fun code => Kind.ofCode? code.natAbs
  !kinds.any (fun k => k matches some .pawn | some .rook | some .unmovedRook | some .queen) &&
    kinds.countP (fun k => k matches some .knight | some .bishop) ≤ 1

end BoardGame.Chess
