import BoardGame.Position
/-!
# Frames

A symmetric game can be looked at in four frames: the columns may be turned left to
right, and the sides may be exchanged, which turns the rows top to bottom and
negates the piece codes and the side to move.
-/

namespace BoardGame

structure Frame where
  leftRight : Bool := false
  reverseSides : Bool := false
deriving DecidableEq, Inhabited

namespace Frame

/-- The frame in which nothing is turned. -/
def identity : Frame := {}

def ofIndex (i : Nat) : Frame where
  leftRight := i % 2 == 1
  reverseSides := i / 2 % 2 == 1

/-- The first frames, at least one and at most four. -/
def first (count : Nat) : List Frame :=
  (List.range (min (max count 1) 4)).map ofIndex

/-- The square of a board of edge `size` that is seen in this frame as `s`, and the
other way round. -/
def flip (f : Frame) (size : Nat) (s : Square) : Square :=
  let last := Square.coordinate size - 1
  ⟨if f.leftRight then last - s.x else s.x, if f.reverseSides then last - s.y else s.y⟩

def side (f : Frame) (s : Side) : Side :=
  if f.reverseSides then s.opponent else s

def code (f : Frame) (c : Int) : Int :=
  if f.reverseSides then -c else c

/-- The board seen in this frame. -/
def board (f : Frame) (size : Nat) (b : Board) : Board :=
  Array.ofFn fun i : Fin b.size =>
    f.code (b.read size (f.flip size (Square.ofIndex size i)))

theorem flip_flip (f : Frame) (size : Nat) (s : Square) :
    f.flip size (f.flip size s) = s := by
  obtain ⟨x, y⟩ := s
  have turn (n a : Int) : n - (n - a) = a := by omega
  simp only [flip, Square.mk.injEq]
  constructor
  · split <;> simp [turn]
  · split <;> simp [turn]

theorem side_side (f : Frame) (s : Side) : f.side (f.side s) = s := by
  cases f with
  | mk lr rs => cases rs <;> simp [side]

theorem code_code (f : Frame) (c : Int) : f.code (f.code c) = c := by
  cases f with
  | mk lr rs => cases rs <;> simp [code]

end Frame

end BoardGame
