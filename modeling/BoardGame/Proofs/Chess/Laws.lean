import BoardGame.Square
import BoardGame.Side
/-!
# The laws of chess

The laws say which moves are legal without any regard to how moves are found. A game
is what stands on the board, the side to move and the record of the moves played;
whether a king or a rook has moved is a question about the record. A pawn that
reaches the last rank becomes a queen.
-/

namespace BoardGame.Chess.Laws

inductive Piece where
  | pawn
  | knight
  | bishop
  | rook
  | queen
  | king
deriving DecidableEq

structure Man where
  side : Side
  piece : Piece
deriving DecidableEq

/-- What stands on each square. -/
abbrev Placement := Square → Option Man

/-- A move by the square it leaves and the square it reaches. Castling is a move of
the king. -/
structure Move where
  origin : Square
  target : Square
deriving DecidableEq

/-- The two sides of the board. -/
inductive Wing where
  | queenside
  | kingside
deriving DecidableEq

/-! ## The board -/

def OnBoard (s : Square) : Prop :=
  (0 ≤ s.x ∧ s.x < 8) ∧ 0 ≤ s.y ∧ s.y < 8

instance (s : Square) : Decidable (OnBoard s) :=
  inferInstanceAs (Decidable ((0 ≤ s.x ∧ s.x < 8) ∧ 0 ≤ s.y ∧ s.y < 8))

/-- The rank on which a side's pieces start. -/
def home : Side → Int
  | .white => 0
  | .black => 7

def kingHome (side : Side) : Square := ⟨4, home side⟩

namespace Wing

def direction : Wing → Int
  | queenside => -1
  | kingside => 1

/-- Where the rook of a wing starts. -/
def corner (w : Wing) (side : Side) : Square :=
  match w with
  | queenside => ⟨0, home side⟩
  | kingside => ⟨7, home side⟩

/-- The square that the king passes when it castles, which the rook takes. -/
def transit (w : Wing) (side : Side) : Square := ⟨4 + w.direction, home side⟩

def arrival (w : Wing) (side : Side) : Square := ⟨4 + 2 * w.direction, home side⟩

end Wing

/-! ## Attacks -/

/-- Displacements by which a piece captures, as far as nothing is in its way. -/
def Piece.Reaches (side : Side) (d : Square) : Piece → Prop
  | pawn => d.x.natAbs = 1 ∧ d.y = side.sign
  | knight => (d.x.natAbs = 1 ∧ d.y.natAbs = 2) ∨ (d.x.natAbs = 2 ∧ d.y.natAbs = 1)
  | bishop => d.x ≠ 0 ∧ d.x.natAbs = d.y.natAbs
  | rook => (d.x = 0 ∧ d.y ≠ 0) ∨ (d.x ≠ 0 ∧ d.y = 0)
  | queen => (d.x = 0 ∧ d.y ≠ 0) ∨ (d.x ≠ 0 ∧ d.y = 0) ∨ (d.x ≠ 0 ∧ d.x.natAbs = d.y.natAbs)
  | king => max d.x.natAbs d.y.natAbs = 1

/-- Nothing stands between two squares. -/
def Clear (p : Placement) (s t : Square) : Prop :=
  ∀ u ∈ Square.between s t, p u = none

/-- A man of `side` on `s` attacks `t`. -/
def Attacks (p : Placement) (side : Side) (s t : Square) : Prop :=
  ∃ piece : Piece, p s = some ⟨side, piece⟩ ∧ piece.Reaches side (t - s) ∧ Clear p s t

def Attacked (p : Placement) (side : Side) (t : Square) : Prop :=
  ∃ s, Attacks p side s t

/-- The king of `side` is attacked. -/
def InCheck (p : Placement) (side : Side) : Prop :=
  ∃ s, p s = some ⟨side, .king⟩ ∧ Attacked p side.opponent s

/-! ## Moves -/

structure State where
  placement : Placement
  turn : Side
  /-- The moves played, the latest first. -/
  record : List Move

namespace State

variable (g : State) (m : Move)

/-- A pawn moves one square ahead, two from where it started, or captures; en passant
it captures a pawn that has just passed its target in a double step. -/
def PawnMoves : Prop :=
  let sign := g.turn.sign
  (m.target = ⟨m.origin.x, m.origin.y + sign⟩ ∧ g.placement m.target = none) ∨
  (m.origin.y = home g.turn + sign ∧ m.target = ⟨m.origin.x, m.origin.y + 2 * sign⟩ ∧
    g.placement ⟨m.origin.x, m.origin.y + sign⟩ = none ∧ g.placement m.target = none) ∨
  (Piece.pawn.Reaches g.turn (m.target - m.origin) ∧ g.placement m.target ≠ none) ∨
  (Piece.pawn.Reaches g.turn (m.target - m.origin) ∧ g.placement m.target = none ∧
    g.record.head? =
      some ⟨⟨m.target.x, m.origin.y + 2 * sign⟩, ⟨m.target.x, m.origin.y⟩⟩ ∧
    g.placement ⟨m.target.x, m.origin.y⟩ = some ⟨g.turn.opponent, .pawn⟩)

/-- Neither the king nor the rook of a wing has moved. -/
def Unmoved (side : Side) (w : Wing) : Prop :=
  (∀ k ∈ g.record, k.origin ≠ kingHome side) ∧
    ∀ k ∈ g.record, k.origin ≠ w.corner side ∧ k.target ≠ w.corner side

/-- The king castles with the rook of a wing. -/
def Castles (w : Wing) : Prop :=
  m = ⟨kingHome g.turn, w.arrival g.turn⟩ ∧
  g.placement (kingHome g.turn) = some ⟨g.turn, .king⟩ ∧
  g.placement (w.corner g.turn) = some ⟨g.turn, .rook⟩ ∧
  g.Unmoved g.turn w ∧
  Clear g.placement (kingHome g.turn) (w.corner g.turn) ∧
  ¬ Attacked g.placement g.turn.opponent (kingHome g.turn) ∧
  ¬ Attacked g.placement g.turn.opponent (w.transit g.turn) ∧
  ¬ Attacked g.placement g.turn.opponent (w.arrival g.turn)

/-- A move as the piece makes it, whatever becomes of the king. -/
def Moves : Prop :=
  OnBoard m.target ∧ (∀ man, g.placement m.target = some man → man.side ≠ g.turn) ∧
  ∃ piece : Piece, g.placement m.origin = some ⟨g.turn, piece⟩ ∧
    ((piece = .pawn ∧ g.PawnMoves m) ∨
      (piece ≠ .pawn ∧ piece.Reaches g.turn (m.target - m.origin) ∧
        Clear g.placement m.origin m.target) ∨
      ∃ w, g.Castles m w)

/-! ## The board after a move -/

/-- What stands on the target: a pawn on the last rank has become a queen. -/
def arriving : Option Man :=
  if g.placement m.origin = some ⟨g.turn, .pawn⟩ ∧ m.target.y = home g.turn.opponent then
    some ⟨g.turn, .queen⟩
  else g.placement m.origin

/-- The square of the pawn that is captured en passant. -/
def passedPawn? : Option Square :=
  if g.placement m.origin = some ⟨g.turn, .pawn⟩ ∧ m.origin.x ≠ m.target.x ∧
      g.placement m.target = none then
    some ⟨m.target.x, m.origin.y⟩
  else none

/-- The wing on which the king castles. -/
def wing? : Option Wing :=
  if g.placement m.origin ≠ some ⟨g.turn, .king⟩ then none
  else if m.target.x = m.origin.x - 2 then some .queenside
  else if m.target.x = m.origin.x + 2 then some .kingside
  else none

def placementAfter : Placement := fun s =>
  if s = m.origin then none
  else if s = m.target then g.arriving m
  else if g.passedPawn? m = some s then none
  else
    match g.wing? m with
    | none => g.placement s
    | some w =>
      if s = w.corner g.turn then none
      else if s = w.transit g.turn then some ⟨g.turn, .rook⟩
      else g.placement s

def play : State where
  placement := g.placementAfter m
  turn := g.turn.opponent
  record := m :: g.record

/-- A move is legal if the piece makes it and its own king is not attacked afterwards. -/
def Legal : Prop :=
  g.Moves m ∧ ¬ InCheck (g.play m).placement g.turn

end State

/-! ## The start of a game -/

/-- The pieces of the first rank, from the left. -/
def firstRank : List Piece :=
  [.rook, .knight, .bishop, .queen, .king, .bishop, .knight, .rook]

def start : Placement := fun s =>
  if s.x < 0 then none
  else if s.y = 0 then firstRank[s.x.toNat]?.map (Man.mk .white)
  else if s.y = 7 then firstRank[s.x.toNat]?.map (Man.mk .black)
  else if 8 ≤ s.x then none
  else if s.y = 1 then some ⟨.white, .pawn⟩
  else if s.y = 6 then some ⟨.black, .pawn⟩
  else none

def initial : State where
  placement := start
  turn := .white
  record := []

end BoardGame.Chess.Laws
