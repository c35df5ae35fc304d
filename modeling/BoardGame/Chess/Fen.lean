import BoardGame.Chess.Attack
import BoardGame.Text.Blank
/-!
# FEN records

A FEN record describes a chess position by fields with blanks between them: the
ranks from the eighth down, the side to move, the castling rights, the square
passed over by a pawn's double step, the half-move clock and the number of the
move. All but the first may be left out. The half-move clock is ignored and
written as zero.

Castling rights turn a king and a rook into unmoved ones. An en passant square
stands for the double step behind it and is dropped if no such pawn is there.
-/

namespace BoardGame.Chess

/-- Letter of a white piece; unmoved pieces are not told apart. -/
def Kind.letter : Kind → Char
  | pawn => 'P'
  | knight => 'N'
  | bishop => 'B'
  | rook | unmovedRook => 'R'
  | queen => 'Q'
  | king | unmovedKing => 'K'

/-- The piece that a letter stands for, upper case being white. -/
def codeOfLetter? (c : Char) : Option Int :=
  match Kind.all.find? (·.letter == c.toUpper) with
  | some kind => some (if c.isUpper then kind.code else -kind.code)
  | none => none

namespace Fen

/-- Adds what a character of a rank stands for to the cells read before it. -/
def readCell (cells : List Int) (c : Char) : Except FenFault (List Int) :=
  if c.isDigit then .ok (cells ++ List.replicate (c.toNat - '0'.toNat) 0)
  else
    match codeOfLetter? c with
    | none => .error .unknownPiece
    | some code =>
      if boardSize ≤ cells.length then .error .rankTooLong else .ok (cells ++ [code])

/-- Cells of a rank. -/
def readRank (rank : List Char) : Except FenFault (List Int) := do
  let cells ← rank.foldlM readCell []
  if cells.length = boardSize then return cells else throw .rankLength

/-- Cells of the board; the first rank comes last in the text. -/
def readBoard (placement : String) : Except FenFault Board := do
  let ranks := placement.toList.splitOn '/'
  if ranks.length ≠ boardSize then throw .rankCount
  return (← ranks.reverse.mapM readRank).flatten.toArray

/-- A castling right: its flag, the side that has it and the column of the rook. -/
structure Right where
  flag : Char
  side : Side
  corner : Int
deriving DecidableEq

namespace Right

def all : List Right :=
  [⟨'K', .white, 7⟩, ⟨'Q', .white, 0⟩, ⟨'k', .black, 7⟩, ⟨'q', .black, 0⟩]

/-- The back rank of the side. -/
def rank (r : Right) : Int :=
  match r.side with
  | .white => 0
  | .black => 7

def kingHome (r : Right) : Square := ⟨4, r.rank⟩

def rookHome (r : Right) : Square := ⟨r.corner, r.rank⟩

/-- Turns the king and the rook of a right into unmoved ones. -/
def grant (r : Right) (board : Board) : Except FenFault Board :=
  let king := look board r.kingHome
  let sign := r.side.sign
  if (king = Kind.king.code * sign ∨ king = Kind.unmovedKing.code * sign) ∧
      look board r.rookHome = Kind.rook.code * sign then
    .ok ((board.write boardSize r.kingHome (Kind.unmovedKing.code * sign)).write
      boardSize r.rookHome (Kind.unmovedRook.code * sign))
  else .error .castlingRights

/-- Whether the king and the rook of a right have not moved. -/
def held (r : Right) (board : Board) : Bool :=
  look board r.rookHome == Kind.unmovedRook.code * r.side.sign &&
    look board r.kingHome == Kind.unmovedKing.code * r.side.sign

end Right

/-- Grants the rights whose flags are in the field. -/
def grantRights (field : List Char) (board : Board) : Except FenFault Board :=
  (Right.all.filter fun r => field.contains r.flag).foldlM (fun b r => r.grant b) board

/-- The double step behind an en passant square. -/
def lastMove (field : List Char) (mover : Side) (board : Board) : LastMove :=
  match Square.parse? field with
  | none => .absent
  | some passed =>
    match mover with
    | .black =>
      if passed.y = 2 ∧ look board ⟨passed.x, 3⟩ = Kind.pawn.code then
        ⟨Kind.pawn.code, ⟨passed.x, 1⟩, ⟨passed.x, 3⟩⟩
      else .absent
    | .white =>
      if passed.y = 5 ∧ look board ⟨passed.x, 4⟩ = -Kind.pawn.code then
        ⟨-Kind.pawn.code, ⟨passed.x, 6⟩, ⟨passed.x, 4⟩⟩
      else .absent

def readMover (field : String) : Except FenFault Side :=
  match field with
  | "w" => .ok .white
  | "b" => .ok .black
  | _ => .error .sideToMove

/-- Number of the move, a 32-bit word. -/
def readMoveNumber (field : String) : Except FenFault Nat :=
  match Text.natural? 0x100000000 field.toList with
  | some n => .ok n
  | none => .error .moveNumber

/-- Plies before a move of the given number; the zeroth move is the first. -/
def depthOf (moveNumber : Nat) (mover : Side) : Except FenFault Nat :=
  let plies := 2 * max moveNumber 1 - (if mover = .white then 2 else 1)
  if plies ≤ maxDepth then .ok plies else .error .moveNumber

/-- Reads the fields of a record. -/
def readFields (fields : List String) : Except FenFault Position := do
  let some placement := fields[0]? | throw .missingBoard
  let mover ← readMover (fields[1]?.getD "w")
  let moveNumber ← readMoveNumber (fields[5]?.getD "1")
  let board ← readBoard placement
  let board ← grantRights (fields[2]?.getD "-").toList board
  let last := lastMove (fields[3]?.getD "-").toList mover board
  let depth ← depthOf moveNumber mover
  return Position.ofBoard boardSize board mover last depth

/-- Reads a record. -/
def read (text : String) : Except ParseError Position :=
  match readFields ((Text.words text.toList).map String.ofList) with
  | .ok pos => .ok pos
  | .error fault => .error (.fen fault text)

/-- Letter of a code. -/
def letter (code : Int) : Char :=
  match Kind.ofCode? code.natAbs with
  | some kind => if 0 < code then kind.letter else kind.letter.toLower
  | none => '?'

/-- Count of empty cells, left out if there are none. -/
def emptyText (count : Nat) : String :=
  if count = 0 then "" else toString count

/-- Text of a rank; `empties` is the number of empty cells before the rest. -/
def rankText (empties : Nat) : List Int → String
  | [] => emptyText empties
  | code :: rest =>
    if code = 0 then rankText (empties + 1) rest
    else emptyText empties ++ String.singleton (letter code) ++ rankText 0 rest

def boardText (board : Board) : String :=
  let rank (y : Nat) := rankText 0 ((List.range boardSize).map fun (x : Nat) => look board ⟨x, y⟩)
  "/".intercalate ((List.range boardSize).reverse.map rank)

def rightsText (board : Board) : String :=
  let flags := (Right.all.filter fun r => r.held board).map (·.flag)
  if flags.isEmpty then "-" else String.ofList flags

/-- The square that a pawn's double step passed over. -/
def enPassantText (last : LastMove) : String :=
  if last.piece.natAbs = Kind.pawn.code ∧ (last.target.y - last.origin.y).natAbs = 2 then
    Square.name ⟨last.target.x, (last.origin.y + last.target.y) / 2⟩
  else "-"

/-- Number of the move to be made. -/
def moveNumber (pos : Position) : Nat :=
  max ((pos.depth + 1) / 2 + (if pos.mover = .white then 1 else 0)) 1

/-- Writes a record. -/
def text (pos : Position) : String :=
  let mover := if pos.mover = .white then "w" else "b"
  " ".intercalate [boardText pos.board, mover, rightsText pos.board, enPassantText pos.last, "0",
    toString (moveNumber pos)]

end Fen

end BoardGame.Chess
