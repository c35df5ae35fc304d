import BoardGame.Chess.Attack
/-!
# Moves of chess

Pieces move by their own geometry, and a move that leaves the mover's king in
check is no move. Pawns move two squares from their starting rank, capture en
passant right after such a move, and become queens on the last rank. A king and
a rook that have not moved may castle; moving either of them takes the codes of
unmoved pieces away where no castling is left.
-/

namespace BoardGame.Chess

/-- A code written to a cell of the board. Squares left and right of the board are the
cells before and after its row. -/
def write (board : Board) (s : Square) (code : Int) : Board :=
  board.write boardSize s code

/-- What a pawn that changes its column onto an empty square captures. -/
def captureEnPassant (before board : Board) (origin target : Square) : Board :=
  if (look before origin).natAbs = Kind.pawn.code ∧ origin.x ≠ target.x ∧
      look before target = 0 then
    write board ⟨target.x, origin.y⟩ 0
  else board

/-- The unmoved rook of a king's side in a corner of its rank becomes an ordinary one. -/
def releaseRook (before : Board) (sign y : Int) (board : Board) (corner : Int) : Board :=
  if look before ⟨corner, y⟩ = Kind.unmovedRook.code * sign then
    write board ⟨corner, y⟩ (Kind.rook.code * sign)
  else board

/-- Takes away the castling rights that a move from `origin` gives up. A king gives up
both rooks; a rook gives up the king if the other corner has no unmoved rook. -/
def giveUpCastling (before board : Board) (origin : Square) : Board :=
  let code := look before origin
  let sign := code.sign
  if origin.y ≠ 0 ∧ origin.y ≠ 7 then board
  else if code.natAbs = Kind.unmovedKing.code then
    [0, 7].foldl (releaseRook before sign origin.y) board
  else if code.natAbs = Kind.unmovedRook.code ∧
      (look before ⟨7 - origin.x, origin.y⟩).natAbs ≠ Kind.unmovedRook.code ∧
      (look before ⟨4, origin.y⟩).natAbs = Kind.unmovedKing.code then
    write board ⟨4, origin.y⟩ (Kind.king.code * sign)
  else board

/-- The board after the piece on `origin` has arrived on `target` as `piece`. -/
def boardAfter (before : Board) (origin target : Square) (piece : Int) : Board :=
  let board := write (write before target piece) origin 0
  giveUpCastling before (captureEnPassant before board origin target) origin

/-- The position after a move, unless it leaves the board, lands on an own piece or
leaves the king on `king` in check. -/
def move? (pos : Position) (king : Option Square) (origin target : Square) (piece : Int) :
    Option Position :=
  if !target.onBoard boardSize then none
  else if piece.sign = (look pos.board target).sign then none
  else
    let board := boardAfter pos.board origin target piece
    if inCheck board king then none
    else some (pos.successor board pos.mover.opponent ⟨look pos.board origin, origin, target⟩)

/-- The squares that a piece reaches within `n` steps in a direction, up to and with
the first occupied one. -/
def reach (board : Board) (s dir : Square) : Nat → List Square
  | 0 => []
  | n + 1 =>
    let next := s + dir
    if !next.onBoard boardSize then []
    else if board.read boardSize next ≠ 0 then [next]
    else next :: reach board next dir n

/-- Targets of a piece that slides up to `n` steps. -/
def slideTargets (board : Board) (s : Square) (dirs : List Square) (n : Nat) : List Square :=
  dirs.flatMap fun dir => reach board s dir n

/-- The square passed over by the last move if it was a pawn's double step that a pawn
on `s` may answer en passant. -/
def enPassantTarget? (pos : Position) (s : Square) : Option Square :=
  let last := pos.last
  let doubleStep :=
    (last.origin.y = 1 ∧ last.target.y = 3) ∨ (last.origin.y = 6 ∧ last.target.y = 4)
  if doubleStep ∧ (look pos.board last.target).natAbs = Kind.pawn.code ∧
      s.y = last.target.y ∧ (s.x - last.target.x).natAbs = 1 then
    some ⟨last.target.x, s.y + pos.mover.sign⟩
  else none

/-- Targets of a pawn: two squares ahead, one ahead, captures, en passant. -/
def pawnTargets (pos : Position) (s : Square) : List Square :=
  let sign := pos.mover.sign
  let ahead : Square := ⟨s.x, s.y + sign⟩
  let twoAhead : Square := ⟨s.x, s.y + 2 * sign⟩
  let steps :=
    if ahead.onBoard boardSize ∧ look pos.board ahead = 0 then
      if (s.y = sign ∨ s.y = 7 + sign) ∧ look pos.board twoAhead = 0 then [twoAhead, ahead]
      else [ahead]
    else []
  let captures := [-1, 1].filterMap fun (dx : Int) =>
    let target : Square := ⟨s.x + dx, s.y + sign⟩
    if look pos.board target ≠ 0 then some target else none
  steps ++ captures ++ (enPassantTarget? pos s).toList

/-- What a pawn is on its arrival: a queen on the last rank. -/
def promoted (s target : Square) (sign : Int) : Int :=
  if (s.y + sign = 0 ∨ s.y + sign = 7) ∧ target.y = s.y + sign then Kind.queen.code * sign
  else Kind.pawn.code * sign

/-- The position after castling with the rook in a corner of the first or last column,
if the squares between are free and the king is attacked neither where it stands
nor where it passes nor where it arrives. -/
def castle? (pos : Position) (king : Square) (corner dir : Int) : Option Position :=
  let board := pos.board
  let y := king.y
  let sign := (look board king).sign
  let free := (List.range boardSize).all fun (x : Nat) =>
    let between := if dir < 0 then 1 ≤ (x : Int) ∧ x < king.x else king.x < x ∧ (x : Int) < 7
    !decide between || look board ⟨x, y⟩ == 0
  if (look board ⟨corner, y⟩).natAbs ≠ Kind.unmovedRook.code ∨ !free ∨ attacked board king then none
  else
    let passing : Square := ⟨king.x + dir, y⟩
    let arrival : Square := ⟨king.x + 2 * dir, y⟩
    let onTheWay := write (write board king 0) passing (Kind.king.code * sign)
    if attacked onTheWay passing then none
    else
      let castled := write (write (write onTheWay passing (Kind.rook.code * sign))
        arrival (Kind.king.code * sign)) ⟨corner, y⟩ 0
      let other : Square := ⟨7 - corner, y⟩
      let castled :=
        if (look board other).natAbs = Kind.unmovedRook.code then
          write castled other (Kind.rook.code * sign)
        else castled
      if attacked castled arrival then none
      else some (pos.successor castled pos.mover.opponent ⟨Kind.king.code * sign, king, arrival⟩)

/-- Positions after the moves of a king. -/
def kingMoves (pos : Position) (s : Square) : List Position :=
  (slideTargets pos.board s orthogonals 1 ++ slideTargets pos.board s diagonals 1).filterMap
    fun target => move? pos (some target) s target (Kind.king.code * pos.mover.sign)

/-- Positions after the moves of the piece on a square. -/
def movesFrom (pos : Position) (king : Option Square) (s : Square) : List Position :=
  let board := pos.board
  let sign := pos.mover.sign
  let arrive (piece : Int) (targets : List Square) :=
    targets.filterMap fun target => move? pos king s target piece
  match Kind.ofCode? (board.read boardSize s * sign) with
  | none => []
  | some .pawn => (pawnTargets pos s).filterMap fun target =>
    move? pos king s target (promoted s target sign)
  | some .knight => arrive (Kind.knight.code * sign) (knightJumps.map (s + ·))
  | some .bishop => arrive (Kind.bishop.code * sign) (slideTargets board s diagonals 7)
  | some .rook | some .unmovedRook =>
    arrive (Kind.rook.code * sign) (slideTargets board s orthogonals 7)
  | some .queen => arrive (Kind.queen.code * sign)
    (slideTargets board s orthogonals 7 ++ slideTargets board s diagonals 7)
  | some .king => kingMoves pos s
  | some .unmovedKing =>
    kingMoves pos s ++ (castle? pos s 0 (-1)).toList ++ (castle? pos s 7 1).toList

/-- Positions after the legal moves of the side to move, square by square. -/
def successors (pos : Position) : List Position :=
  let king := kingSquare? pos.board pos.mover
  (List.range (boardSize * boardSize)).flatMap fun i =>
    movesFrom pos king (Square.ofIndex boardSize i)

/-- Whether the side to move has no legal move. The first piece that has one settles it. -/
def stuck (pos : Position) : Bool :=
  let king := kingSquare? pos.board pos.mover
  (List.range (boardSize * boardSize)).all fun i =>
    (movesFrom pos king (Square.ofIndex boardSize i)).isEmpty

theorem stuck_eq_isEmpty (pos : Position) : stuck pos = (successors pos).isEmpty := by
  rw [Bool.eq_iff_iff]
  simp [stuck, successors]

end BoardGame.Chess
