import BoardGame.Encoding.Frame
/-!
# Move indices

Every move has one slot of a policy vector. Its index is `source * area + target`,
where the target is a cell of the board and the source is the cell of the origin, or
the number of the piece type where pieces come from virtual squares.
-/

namespace BoardGame.RuleSet

/-- Number of sources. -/
def sources (rules : RuleSet) : Nat :=
  match rules.moveSource with
  | .piecesOnBoard => rules.area
  | .ends => rules.pieces.length

/-- Length of a policy vector. -/
def policySize (rules : RuleSet) : Nat :=
  rules.sources * rules.area

def sourceOf (rules : RuleSet) (m : LastMove) : Nat :=
  match rules.moveSource with
  | .piecesOnBoard => m.origin.index rules.boardSize
  | .ends => m.piece.natAbs - 1

def moveIndex (rules : RuleSet) (m : LastMove) : Nat :=
  rules.sourceOf m * rules.area + m.target.index rules.boardSize

/-- A move with the given index. The side that moves cannot be told from an index: a
virtual piece is given by its code for white and comes from the corner, and a piece
on the board is given as none. -/
def moveAt (rules : RuleSet) (index : Nat) : LastMove :=
  let target := Square.ofIndex rules.boardSize (index % rules.area)
  let source := index / rules.area
  match rules.moveSource with
  | .piecesOnBoard => ⟨0, Square.ofIndex rules.boardSize source, target⟩
  | .ends => ⟨pieceCode source, ⟨0, 0⟩, target⟩

/-- A move as it is seen in a frame. The origin of a virtual piece stays. -/
def flipMove (rules : RuleSet) (f : Frame) (m : LastMove) : LastMove where
  piece := m.piece
  origin := match rules.moveSource with
    | .piecesOnBoard => f.flip rules.boardSize m.origin
    | .ends => m.origin
  target := f.flip rules.boardSize m.target

/-- Index of the same move in a frame. -/
def flipIndex (rules : RuleSet) (f : Frame) (index : Nat) : Nat :=
  rules.moveIndex (rules.flipMove f (rules.moveAt index))

end BoardGame.RuleSet
